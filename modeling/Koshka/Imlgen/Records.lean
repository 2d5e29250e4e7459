import Koshka.Imlgen.Capacity
import Koshka.Imlgen.Unimplemented

namespace Koshka.Iml

open Data Arm

/-- The four flags agree with `set_flags`. -/
def Instruction.FlagsAgree (instr : Instruction) : Prop :=
  ∃ math, instr.payload = .math math ∧ instr.touchedNegativeFlag = math.setFlags ∧
    instr.touchedZeroFlag = math.setFlags ∧ instr.touchedCarryFlag = math.setFlags ∧
    instr.touchedOverflowFlag = math.setFlags

def ReportsFlags (word : U32) : Prop :=
  ∀ (env : Environment) (before after : Machine) (result : DecodeResult),
    Returns (decode env word) before result after → result.instr.var = .math → result.instr.FlagsAgree

/-- The decoded branch goes to the address that the architecture sends it to. -/
def Instruction.PointsAt (instr : Instruction) (link : Bool) (offset : U64) : Prop :=
  instr.var = .branch ∧ ∃ branch imm, instr.payload = .branch branch ∧
    branch.dest = { type := .immediate, payload := .imm imm } ∧ branch.link = link ∧
    ∀ address : U64, address + imm = address + offset

def PointsRight (word : U32) : Prop :=
  ∀ (env : Environment) (before : Machine), ∃ result,
    Returns (decode env word) before result before ∧
      result.instr.PointsAt (word.getLsbD 31) (branchOffset word)

/-- `BR`, `BLR` and `RET`. -/
def NamedBranch (word : U32) : Prop := branchOpc word = 0 ∨ branchOpc word = 1 ∨ branchOpc word = 2

instance (word : U32) : Decidable (NamedBranch word) := inferInstanceAs (Decidable (_ ∨ _))

/-- Calls are the branches that link, and a register branch of another name is neither reported
as a call nor as a jump. -/
structure InstrBranch.HintAgrees (branch : InstrBranch) (word : U32) : Prop where
  call : branch.hint = .call ↔ branch.link = true
  other : BranchRegister word → ¬ NamedBranch word → branch.hint ≠ .call ∧ branch.hint ≠ .jump

def ReportsBranch (word : U32) : Prop :=
  ∀ (env : Environment) (before after : Machine) (result : DecodeResult),
    Returns (decode env word) before result after → result.instr.var = .branch →
      ∃ branch, result.instr.payload = .branch branch ∧ branch.HintAgrees word

section Records

variable {env : Environment} {word : U32} {before after : Machine} {result : DecodeResult} {planned : Plan}

theorem decode_exists (found : plan word = some planned) :
    ∃ env before after result, Returns (decode env word) before result after := by
  obtain ⟨result, _, env, before, after, _, _, _, run, _⟩ := accepted_iff.mpr ⟨planned, found⟩
  exact ⟨env, before, after, result, run⟩

/-- A decoded instruction is the record of the plan with some expression in it. -/
theorem decode_record (run : Returns (decode env word) before result after) :
    ∃ planned expr, plan word = some planned ∧ result.instr = planned.instr.withExpr expr := by
  obtain ⟨planned, found, building⟩ := decode_returns.mp run
  obtain ⟨expr, _, built⟩ := Plan.build_returns.mp building
  exact ⟨planned, expr, found, by rw [built]⟩

theorem ofMath_flagsAgree {destRegister : U8} {setFlags touchedFlags is64bit : Bool}
    {expr blank : Expression} :
    ((Instruction.ofMath destRegister setFlags blank is64bit touchedFlags).withExpr expr).FlagsAgree ↔
      touchedFlags = setFlags := by
  simp [Instruction.FlagsAgree, Instruction.ofMath, Instruction.withExpr]

theorem decode_flagsAgree (run : Returns (decode env word) before result after)
    (math : result.instr.var = .math) (sets : ¬ (AddSubImmediate word ∧ S word = true)) :
    result.instr.FlagsAgree := by
  obtain ⟨planned, expr, found, record⟩ := decode_record run
  rw [record] at math ⊢
  cases plan_planned found with
  | addsubImm member =>
      have plain : S word = false := Bool.eq_false_iff.mpr fun set => sets ⟨member, set⟩
      exact ofMath_flagsAgree.mpr plain.symm
  | logicalImm | logicalShift | addsubShift => exact ofMath_flagsAgree.mpr rfl
  | branchImm | branchReg =>
      obtain ⟨branch, shape⟩ := decodeBranchUnconditional_branch word _
      rw [planBranch, shape] at math
      cases math
  | blank => exact ⟨_, rfl, rfl, rfl, rfl, rfl⟩

theorem decode_branchImm (member : BranchImmediate word) :
    Returns (decode env word) before (decodeBranchUnconditional word .unconditionalImm) before := by
  have planned := (plan_unconditional (Or.inl member)).trans (if_pos member)
  exact (decode_planBranch planned).mpr ⟨rfl, rfl⟩

theorem decode_branchReg (member : BranchRegister word) :
    Returns (decode env word) before (decodeBranchUnconditional word .unconditionalReg) before := by
  have planned := (plan_unconditional (Or.inr member)).trans (if_neg member.not_immediate)
  exact (decode_planBranch planned).mpr ⟨rfl, rfl⟩

/-- The offset field of `B` and `BL` is kept as it stands. -/
theorem branchImm_payload : (decodeBranchUnconditional word .unconditionalImm).instr.payload = .branch {
    conditional := false
    link := word.getLsbD 31
    dest := { type := .immediate, payload := .imm ((imm26 word).setWidth 64) }
    hint := if word.getLsbD 31 then .call else .jump } := by
  have field : (getBitRegion word 0 25).setWidth 64 = (imm26 word).setWidth 64 := by
    rw [getBitRegion_field word (by omega) (by omega), BitVec.setWidth_setWidth (by decide)]
    rfl
  simp only [decodeBranchUnconditional, reduceCtorEq, if_false, asBool_bit, field]

theorem branchOpcField : (getBitRegion word 21 24).setWidth 8 = (branchOpc word).setWidth 8 :=
  field_setWidth (by omega) (by omega) (by omega)

/-- Register branches keep the zero of the hint for every opc but those of `BR` and `RET`. -/
theorem branchReg_payload : ∃ dest,
    (decodeBranchUnconditional word .unconditionalReg).instr.payload = .branch {
      conditional := false
      link := decide (branchOpc word = 1)
      dest
      hint := if branchOpc word = 0 then .jump else if branchOpc word = 2 then .return else .call } := by
  have byte : ∀ opc value : BitVec 4, opc.setWidth 8 = (value.setWidth 8 : U8) ↔ opc = value := by decide
  simp only [decodeBranchUnconditional, if_true, branchOpcField]
  generalize branchOpc word = opc
  by_cases eret : opc = 4
  · subst eret
    exact ⟨_, rfl⟩
  · by_cases drps : opc = 5
    · subst drps
      exact ⟨_, rfl⟩
    · refine ⟨{ type := .register, payload := .reg ((getBitRegion word 5 9).setWidth 8) }, ?_⟩
      rw [if_neg (show ¬ opc.setWidth 8 = (4 : U8) from mt (byte opc 4).mp eret),
        if_neg (show ¬ opc.setWidth 8 = (5 : U8) from mt (byte opc 5).mp drps)]
      by_cases br : opc = 0
      · subst br
        rfl
      · rw [if_neg (show ¬ opc.setWidth 8 = (0 : U8) from mt (byte opc 0).mp br), if_neg br]
        by_cases blr : opc = 1
        · subst blr
          rfl
        · rw [if_neg (show ¬ opc.setWidth 8 = (1 : U8) from mt (byte opc 1).mp blr)]
          by_cases ret : opc = 2
          · subst ret
            rfl
          · rw [if_neg (show ¬ opc.setWidth 8 = (2 : U8) from mt (byte opc 2).mp ret), if_neg ret]
            rw [decide_eq_false blr]

theorem planBranch_payload {page : L2BranchPage} {expr : Expression} :
    ((planBranch word page).instr.withExpr expr).payload =
    (decodeBranchUnconditional word page).instr.payload := by
  obtain ⟨branch, shape⟩ := decodeBranchUnconditional_branch word page
  rw [planBranch, shape]
  rfl

/-- The offset as the code has it is the architecture's for a branch to itself only. -/
theorem imm26_offset_iff (field : BitVec 26) :
    field.setWidth 64 = field.signExtend 64 * (4 : U64) ↔ field = 0 := by
  have range : field.toNat < 67108864 := field.isLt
  have wide : (field.setWidth 64).toNat = field.toNat := BitVec.toNat_setWidth_of_le (by decide)
  have forward : field.toNat * 4 % 18446744073709551616 = field.toNat * 4 := Nat.mod_eq_of_lt (by omega)
  have backward : (field.toNat + 18446744073642442752) * 4 % 18446744073709551616 =
      field.toNat * 4 + 18446744073441116160 := by
    have split : (field.toNat + 18446744073642442752) * 4 =
        field.toNat * 4 + 18446744073441116160 + 3 * 18446744073709551616 := by omega
    rw [split, Nat.add_mul_mod_self_right, Nat.mod_eq_of_lt (by omega)]
  constructor
  · intro same
    have values := congrArg BitVec.toNat same
    rw [wide, BitVec.toNat_mul, BitVec.toNat_signExtend, wide] at values
    have zero : field.toNat = 0 := by
      cases negative : field.msb with
      | false =>
          rw [negative] at values
          have plain : field.toNat = field.toNat * 4 := values.trans forward
          omega
      | true =>
          rw [negative] at values
          have large : field.toNat = field.toNat * 4 + 18446744073441116160 := values.trans backward
          omega
    exact BitVec.eq_of_toNat_eq zero
  · intro zero
    subst zero
    rfl

end Records

/-- Add/subtract (immediate) leaves the flags out when it sets them. -/
theorem reportsFlags_iff (word : U32) : ReportsFlags word ↔ ¬ (AddSubImmediate word ∧ S word = true) := by
  constructor
  · intro reports sets
    obtain ⟨member, set⟩ := sets
    obtain ⟨env, before, after, result, run⟩ := decode_exists (plan_addsubImm member)
    obtain ⟨planned, expr, found, record⟩ := decode_record run
    cases (plan_addsubImm member).symm.trans found
    have agree := reports env before after result run (by rw [record]; rfl)
    rw [record] at agree
    exact absurd ((ofMath_flagsAgree.mp agree).trans set) (by decide)
  · intro plain env before after result run math
    exact decode_flagsAgree run math plain

/-- `subs x0, x1, #1` -/
theorem reportsFlags_fails_subs : ¬ ∀ word : U32, ReportsFlags word := by
  intro reports
  have planned : plan 0xF1000420 = some (planAddsubImm 0xF1000420) := plan_addsubImm (by decide)
  obtain ⟨env, before, after, result, run⟩ := decode_exists planned
  obtain ⟨_, expr, found, record⟩ := decode_record run
  cases planned.symm.trans found
  have agree := reports _ env before after result run (by rw [record]; rfl)
  rw [record] at agree
  exact absurd (ofMath_flagsAgree.mp agree) (by decide)

/-- A constant branch is right where the offset is 0: the field is neither extended nor scaled. -/
theorem pointsRight_iff (word : U32) (member : BranchImmediate word) :
    PointsRight word ↔ imm26 word = 0 := by
  rw [← imm26_offset_iff, ← branchOffset]
  constructor
  · intro points
    obtain ⟨result, run, _, branch, imm, payload, dest, _, address⟩ := points .calm (.initial .calm [] 0)
    rw [run.value_unique (decode_branchImm member), branchImm_payload] at payload
    cases payload
    cases dest
    simpa using address 0
  · intro same env before
    refine ⟨_, decode_branchImm member, rfl, _, _, branchImm_payload, rfl, rfl, fun address => ?_⟩
    rw [same]

/-- `b .` -/
theorem pointsRight_iff_self : PointsRight 0x14000000 ↔ imm26 0x14000000 = 0 :=
  pointsRight_iff 0x14000000 (by decide)

/-- `b .-4` -/
theorem pointsRight_fails_backward : ¬ ∀ word : U32, BranchImmediate word → PointsRight word := by
  intro points
  obtain ⟨result, run, _, branch, imm, payload, dest, _, address⟩ :=
    points 0x17FFFFFF (by decide) .calm (.initial .calm [] 0)
  rw [run.value_unique (decode_branchImm (by decide)), branchImm_payload] at payload
  cases payload
  cases dest
  exact absurd (address 0) (by decide)

/-- Every register branch that is not `BR`, `BLR` or `RET` is reported as a call that does not
link. -/
theorem reportsBranch_iff (word : U32) :
    ReportsBranch word ↔ (BranchRegister word → NamedBranch word) := by
  constructor
  · intro reports member
    by_contra unnamed
    obtain ⟨dest, shape⟩ := @branchReg_payload word
    obtain ⟨branch, payload, agrees⟩ :=
      reports .calm (.initial .calm [] 0) _ _ (decode_branchReg member) (by
      obtain ⟨_, record⟩ := decodeBranchUnconditional_branch word .unconditionalReg
      rw [record])
    cases shape.symm.trans payload
    have call := (agrees.other member unnamed).1
    simp only [NamedBranch, not_or] at unnamed
    rw [if_neg unnamed.1, if_neg unnamed.2.2] at call
    exact call rfl
  · intro named env before after result run branch
    obtain ⟨planned, expr, found, record⟩ := decode_record run
    rw [record] at branch ⊢
    cases plan_planned found with
    | addsubImm | logicalImm | logicalShift | addsubShift | blank => cases branch
    | branchImm member =>
        refine ⟨_, planBranch_payload.trans branchImm_payload, ?_,
          fun register => absurd member register.not_immediate⟩
        cases word.getLsbD 31 <;> simp
    | branchReg member =>
        obtain ⟨dest, shape⟩ := @branchReg_payload word
        refine ⟨_, planBranch_payload.trans shape, ?_, fun _ unnamed => absurd (named member) unnamed⟩
        rcases named member with opc | opc | opc <;> simp [opc]

theorem reportsBranch_fails_eret : ¬ ∀ word : U32, ReportsBranch word := by
  intro reports
  obtain ⟨branch, payload, agrees⟩ :=
    reports 0xD69F03E0 .calm (.initial .calm [] 0) _ _ (decode_branchReg (by decide)) rfl
  cases payload
  exact absurd (agrees.call.mp rfl) (by decide)

end Koshka.Iml
