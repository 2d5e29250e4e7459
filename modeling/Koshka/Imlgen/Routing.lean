import Koshka.Imlgen.Dispatch
import Mathlib.Data.List.Find

namespace Koshka.Iml

open Data Arm

/-- The functions that `decode` passes a word to. -/
inductive Decoder where
  | addsubImm | logicalImm | movw
  | logicalShift | addsubShift
  | branchUnconditional (branchType : L2BranchPage)
  | loadStore
deriving Repr, DecidableEq

def Decoder.run (env : Environment) (instr : U32) : Decoder → Run DecodeResult
  | .addsubImm => decodeAddsubImm env instr
  | .logicalImm => decodeLogicalImm env instr
  | .movw => pure (decodeMovw instr)
  | .logicalShift => decodeDataRegLogicalShift env instr
  | .addsubShift => decodeDataRegAddsubShift env instr
  | .branchUnconditional branchType => pure (decodeBranchUnconditional instr branchType)
  | .loadStore => pure (decodeLoadStore instr)

/-- The decoder that `decode` reaches, if it reaches one. -/
def reached (instr : U32) : Option Decoder :=
  match instrGetGroup instr with
  | .branch =>
      match branchGetGroup instr with
      | .unconditionalReg => some (.branchUnconditional .unconditionalReg)
      | .unconditionalImm => some (.branchUnconditional .unconditionalImm)
      | .conditional | .compare | .test | .exception | .system | .unallocated => none
  | .dataImm =>
      match dataImmGetGroup instr with
      | .movWide => some .movw
      | .addsubImm => some .addsubImm
      | .logicalImm => some .logicalImm
      | .pcRelAddr | .bitfield | .extract | .unallocated => none
  | .dataReg =>
      match dataRegGetGroup instr with
      | .logicalShift => some .logicalShift
      | .addsubShift => some .addsubShift
      | .threeSources | .twoSources | .oneSource | .addsubExtend | .addsubCarry | .condCompReg
      | .condCompImm | .condSel | .unallocated => none
  | .ldStr => some .loadStore
  | .dataSimd | .unallocated => none

/-- The two pages that lead to a decoder. -/
def Decoder.OnPages (instr : U32) : Decoder → Prop
  | .addsubImm => instrGetGroup instr = .dataImm ∧ dataImmGetGroup instr = .addsubImm
  | .logicalImm => instrGetGroup instr = .dataImm ∧ dataImmGetGroup instr = .logicalImm
  | .movw => instrGetGroup instr = .dataImm ∧ dataImmGetGroup instr = .movWide
  | .logicalShift => instrGetGroup instr = .dataReg ∧ dataRegGetGroup instr = .logicalShift
  | .addsubShift => instrGetGroup instr = .dataReg ∧ dataRegGetGroup instr = .addsubShift
  | .branchUnconditional branchType =>
      instrGetGroup instr = .branch ∧ branchGetGroup instr = branchType ∧
        (branchType = .unconditionalImm ∨ branchType = .unconditionalReg)
  | .loadStore => instrGetGroup instr = .ldStr

def ArmPageEntry.Matches {page : Type} (entry : ArmPageEntry page) (op0 : U8) : Prop :=
  op0.setWidth 32 &&& entry.mask = entry.pattern

def ArmDoublePageEntry.Matches {page : Type} (entry : ArmDoublePageEntry page) (op0 op1 : U8) : Prop :=
  op0.setWidth 32 &&& entry.mask1 = entry.pattern1 ∧ op1.setWidth 32 &&& entry.mask2 = entry.pattern2

instance {page : Type} (entry : ArmPageEntry page) (op0 : U8) : Decidable (entry.Matches op0) :=
  inferInstanceAs (Decidable (_ = _))

instance {page : Type} (entry : ArmDoublePageEntry page) (op0 op1 : U8) :
    Decidable (entry.Matches op0 op1) :=
  inferInstanceAs (Decidable (_ ∧ _))

/-- No two rows of the table match. -/
def AtMostOne {row : Type} (Matches : row → Prop) (table : List row) : Prop :=
  table.Pairwise fun one two => ¬ (Matches one ∧ Matches two)

/-- Each lookup table has at most one row for the word, so that the order of its rows does not
matter. -/
structure RowsExclusive (word : U32) : Prop where
  top : AtMostOne (·.Matches ((getBitRegion word 25 29).setWidth 8)) topInstrPagetable
  dataImm : AtMostOne (·.Matches ((getBitRegion word 23 25).setWidth 8)) dataImmPagetable
  branch : AtMostOne (·.Matches ((getBitRegion word 29 31).setWidth 8)
    ((getBitRegion word 22 25).setWidth 8)) branchPagetable
  topOrder : ∀ table, table.Perm topInstrPagetable →
    findPage table ((getBitRegion word 25 29).setWidth 8) .unallocated = instrGetGroup word
  dataImmOrder : ∀ table, table.Perm dataImmPagetable →
    findPage table ((getBitRegion word 23 25).setWidth 8) .unallocated = dataImmGetGroup word
  branchOrder : ∀ table, table.Perm branchPagetable →
    findDoublePage table ((getBitRegion word 29 31).setWidth 8) ((getBitRegion word 22 25).setWidth 8)
      .unallocated = branchGetGroup word

/-- `decode` passes the word to a decoder exactly if it is of the decoder's class. -/
structure RoutesByClass (word : U32) : Prop where
  decodes : ∀ env : Environment,
    decode env word = (reached word).elim (pure .blank) fun decoder => decoder.run env word
  addsubImm : reached word = some .addsubImm ↔ AddSubImmediate word
  logicalImm : reached word = some .logicalImm ↔ LogicalImmediate word
  movw : reached word = some .movw ↔ MoveWide word
  logicalShift : reached word = some .logicalShift ↔ LogicalShifted word
  addsubShift : reached word = some .addsubShift ↔ AddSubShifted word
  branchUnconditional : ∀ branchType, reached word = some (.branchUnconditional branchType) ↔
    (branchType = .unconditionalImm ∧ BranchImmediate word) ∨
      (branchType = .unconditionalReg ∧ BranchRegister word)

section Rows

variable {row : Type} {Matches : row → Prop} {table other : List row} {word : U32}

theorem AtMostOne.unique (exclusive : AtMostOne Matches table) {one two : row} (first : one ∈ table)
    (second : two ∈ table) (firstMatches : Matches one) (secondMatches : Matches two) : one = two := by
  induction table with
  | nil => cases first
  | cons head rest ih =>
      obtain ⟨headExcludes, restExclusive⟩ := List.pairwise_cons.mp exclusive
      rcases List.mem_cons.mp first with firstHead | firstRest <;>
        rcases List.mem_cons.mp second with secondHead | secondRest
      · rw [firstHead, secondHead]
      · subst firstHead
        exact absurd ⟨firstMatches, secondMatches⟩ (headExcludes two secondRest)
      · subst secondHead
        exact absurd ⟨secondMatches, firstMatches⟩ (headExcludes one firstRest)
      · exact ih restExclusive firstRest secondRest

theorem AtMostOne.find?_perm (exclusive : AtMostOne Matches table) (perm : other.Perm table)
    {found : row → Bool} (spec : ∀ entry, found entry = true ↔ Matches entry) :
    other.find? found = table.find? found := by
  refine (List.find?_eq_find?_of_perm perm.symm fun one first two second => ?_).symm
  exact exclusive.unique first.1 second.1 ((spec one).mp first.2) ((spec two).mp second.2)

theorem findPage_perm {page : Type} {table other : List (ArmPageEntry page)} {op0 : U8} {otherwise : page}
    (exclusive : AtMostOne (·.Matches op0) table) (perm : other.Perm table) :
    findPage other op0 otherwise = findPage table op0 otherwise := by
  have spec (entry : ArmPageEntry page) :
      decide (op0.setWidth 32 &&& entry.mask = entry.pattern) = true ↔ entry.Matches op0 :=
        decide_eq_true_iff
  rw [findPage, findPage, exclusive.find?_perm perm spec]

theorem findDoublePage_perm {page : Type} {table other : List (ArmDoublePageEntry page)} {op0 op1 : U8}
    {otherwise : page} (exclusive : AtMostOne (·.Matches op0 op1) table) (perm : other.Perm table) :
    findDoublePage other op0 op1 otherwise = findDoublePage table op0 op1 otherwise := by
  have spec (entry : ArmDoublePageEntry page) :
      decide (op0.setWidth 32 &&& entry.mask1 = entry.pattern1 ∧
        op1.setWidth 32 &&& entry.mask2 = entry.pattern2) = true ↔ entry.Matches op0 op1 :=
    decide_eq_true_iff
  rw [findDoublePage, findDoublePage, exclusive.find?_perm perm spec]

/-- The windows of the tables are five, three, and three and four bits wide. -/
theorem rowsExclusive (word : U32) : RowsExclusive word := by
  have top : AtMostOne (·.Matches ((getBitRegion word 25 29).setWidth 8)) topInstrPagetable := by
    have windows : ∀ op0 : BitVec 5, topInstrPagetable.Pairwise fun one two =>
        ¬ (one.Matches ((op0.setWidth 32).setWidth 8) ∧ two.Matches ((op0.setWidth 32).setWidth 8)) := by
      decide
    rw [getBitRegion_field word (by omega) (by omega)]
    exact windows _
  have dataImm : AtMostOne (·.Matches ((getBitRegion word 23 25).setWidth 8)) dataImmPagetable := by
    have windows : ∀ op0 : BitVec 3, dataImmPagetable.Pairwise fun one two =>
        ¬ (one.Matches ((op0.setWidth 32).setWidth 8) ∧ two.Matches ((op0.setWidth 32).setWidth 8)) := by
      decide
    rw [getBitRegion_field word (by omega) (by omega)]
    exact windows _
  have branch : AtMostOne (·.Matches ((getBitRegion word 29 31).setWidth 8)
      ((getBitRegion word 22 25).setWidth 8)) branchPagetable := by
    have windows : ∀ (op0 : BitVec 3) (op1 : BitVec 4), branchPagetable.Pairwise fun one two =>
        ¬ (one.Matches ((op0.setWidth 32).setWidth 8) ((op1.setWidth 32).setWidth 8) ∧
          two.Matches ((op0.setWidth 32).setWidth 8) ((op1.setWidth 32).setWidth 8)) := by
      decide
    rw [getBitRegion_field word (by omega) (by omega), getBitRegion_field word (by omega) (by omega)]
    exact windows _ _
  exact ⟨top, dataImm, branch, fun _ => findPage_perm top, fun _ => findPage_perm dataImm,
    fun _ => findDoublePage_perm branch⟩

theorem decode_reached {env : Environment} (nonzero : word ≠ 0) :
    decode env word = (reached word).elim (pure .blank) fun decoder => decoder.run env word := by
  rw [decode, assert_true nonzero, lift_ok_bind, reached]
  cases group : instrGetGroup word with
  | dataImm => cases page : dataImmGetGroup word <;> simp [decodeDataImm, page, Decoder.run]
  | branch => cases page : branchGetGroup word <;> simp [decodeSystemExceptionBranch, page, Decoder.run]
  | dataReg => cases page : dataRegGetGroup word <;> simp [decodeDataReg, page, Decoder.run]
  | ldStr | dataSimd | unallocated => rfl

/-- What the two levels of the lookup say together. -/
theorem reached_eq_some {decoder : Decoder} : reached word = some decoder ↔ decoder.OnPages word := by
  rw [reached]
  cases group : instrGetGroup word with
  | dataImm => cases page : dataImmGetGroup word <;> cases decoder <;> simp [Decoder.OnPages, group, page]
  | branch => cases page : branchGetGroup word <;> cases decoder
      <;> simp [Decoder.OnPages, group, page] <;> grind
  | dataReg => cases page : dataRegGetGroup word <;> cases decoder <;> simp [Decoder.OnPages, group, page]
  | ldStr | dataSimd | unallocated => cases decoder <;> simp [Decoder.OnPages, group]

/-- The lookup is the table of the classes. -/
theorem routesByClass (nonzero : word ≠ 0) : RoutesByClass word where
  decodes _ := decode_reached nonzero
  addsubImm := reached_eq_some.trans addSubImmediate_dispatch.symm
  logicalImm := reached_eq_some.trans logicalImmediate_dispatch.symm
  movw := reached_eq_some.trans moveWide_dispatch.symm
  logicalShift := reached_eq_some.trans logicalShifted_dispatch.symm
  addsubShift := reached_eq_some.trans addSubShifted_dispatch.symm
  branchUnconditional branchType := by
    rw [reached_eq_some, branchImmediate_dispatch, branchRegister_dispatch]
    constructor
    · intro found
      obtain ⟨group, page, immediate | register⟩ := found
      · exact Or.inl ⟨immediate, group, page.trans immediate⟩
      · exact Or.inr ⟨register, group, page.trans register⟩
    · intro form
      rcases form with ⟨immediate, group, page⟩ | ⟨register, group, page⟩
      · exact ⟨group, page.trans immediate.symm, Or.inl immediate⟩
      · exact ⟨group, page.trans register.symm, Or.inr register⟩

end Rows

/-- The lookup tables are free of overlaps, and the lookup accepts the classes of the manual. -/
theorem dispatch_exact (word : U32) (nonzero : word ≠ 0) : RowsExclusive word ∧ RoutesByClass word :=
  ⟨rowsExclusive word, routesByClass nonzero⟩

/-- `b .` -/
theorem dispatch_exact_branch : RowsExclusive 0x14000000 ∧ RoutesByClass 0x14000000 :=
  dispatch_exact 0x14000000 (by decide)

end Koshka.Iml
