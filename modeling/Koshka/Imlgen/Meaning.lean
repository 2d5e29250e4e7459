import Koshka.Arm.Effect
import Koshka.Imlgen.Capacity

namespace Koshka.Iml

open Data Arm

/-- Decoding turns both words into the same instruction, once its handles are followed. -/
def SameIml (one two : U32) : Prop :=
  ∃ (first second : DecodeResult) (pool other : ImlPool) (resolved : ResolvedInstruction),
    DecodedAlone one first pool ∧ first.instr.Resolves pool resolved ∧
    DecodedAlone two second other ∧ second.instr.Resolves other resolved

def resolvedForm (word : U32) : Option ResolvedInstruction := (plan word).bind Plan.resolved

section Forms

variable {word one two : U32}

theorem DecodedAlone.form {result : DecodeResult} {pool : ImlPool} {form : ResolvedInstruction}
    (alone : DecodedAlone word result pool) (found : resolvedForm word = some form) :
    result.instr.Resolves pool form := by
  obtain ⟨planned, planning, resolves⟩ := alone.resolves
  rw [resolvedForm, planning] at found
  exact resolves form found

theorem sameIml_iff {first second : ResolvedInstruction} (formOne : resolvedForm one = some first)
    (formTwo : resolvedForm two = some second) : SameIml one two ↔ first = second := by
  constructor
  · intro both
    obtain ⟨_, _, _, _, resolved, aloneOne, resolvesOne, aloneTwo, resolvesTwo⟩ := both
    rw [(aloneOne.form formOne).unique resolvesOne, (aloneTwo.form formTwo).unique resolvesTwo]
  · intro equal
    subst equal
    have accepted {word : U32} {form : ResolvedInstruction}
        (found : resolvedForm word = some form) : Accepted word := by
      obtain ⟨planned, planning, _⟩ := Option.bind_eq_some_iff.mp found
      exact accepted_iff.mpr ⟨planned, planning⟩
    obtain ⟨_, _, aloneOne⟩ := accepted formOne
    obtain ⟨_, _, aloneTwo⟩ := accepted formTwo
    exact ⟨_, _, _, _, first, aloneOne, aloneOne.form formOne, aloneTwo, aloneTwo.form formTwo⟩

theorem plan_dataClass (kind : DataClass) (member : kind.Member word) :
    plan word = match kind with
      | .addSubImmediate => some (planAddsubImm word)
      | .logicalImmediate => if LogicalImmAccepted word then some (planLogicalImm word) else none
      | .logicalShifted => if ShiftAccepted word then some (planLogicalShift word) else none
      | .addSubShifted => if ShiftAccepted word then some (planAddsubShift word) else none := by
  have found := dataClass_eq_some.mpr member
  have nonzero : word ≠ 0 := by
    intro equal
    subst equal
    cases found
  unfold dataClass at found
  repeat' split at found
  all_goals cases found
  all_goals simp only [plan, if_true, if_false, *]

/-- What the decoders make of the words of a class, with the handles followed. -/
def classForm (kind : DataClass) (word : U32) : ResolvedInstruction :=
  match kind with
  | .addSubImmediate =>
      .ofMath word (if op word then .add else .sub) (S word) false (addsubImmOperand word)
  | .logicalImmediate =>
      .ofMath word (bitwiseOpTable (opc word)) (opc word = 3) (opc word = 3) (logicalImmOperand word)
  | .logicalShifted =>
      .ofMath word (bitwiseOpTable (opc word)) (opc word = 3) (opc word = 3) (logicalShiftOperand word)
  | .addSubShifted => .ofMath word (if op word then .add else .sub) (S word) (S word) (shiftedOperand word)

theorem allocated_form {kind : DataClass} (allocated : Allocated word)
    (found : dataClass word = some kind) :
    resolvedForm word = some (classForm kind word) := by
  simp only [Allocated, found, Option.some.injEq] at allocated
  rw [resolvedForm, plan_dataClass kind (dataClass_eq_some.mp found)]
  cases kind <;> simp only [reduceCtorEq, false_and, true_and, or_false, false_or] at allocated
  case addSubImmediate => exact planAddsubImm_resolved
  case logicalImmediate =>
    simp only [if_pos (show LogicalImmAccepted word from allocated)]
    exact planLogicalImm_resolved
  case logicalShifted =>
    simp only [if_pos (show ShiftAccepted word from allocated)]
    exact planLogicalShift_resolved
  case addSubShifted =>
    simp only [if_pos (show ShiftAccepted word from allocated.2)]
    exact planAddsubShift_resolved

theorem allocated_found (allocated : Allocated word) :
    ∃ kind, dataClass word = some kind ∧ resolvedForm word = some (classForm kind word) := by
  obtain ⟨kind, found⟩ : ∃ kind, dataClass word = some kind := by
    rcases allocated with ⟨found, _⟩ | ⟨found, _⟩ | ⟨found, _⟩ | ⟨found, _⟩ <;> exact ⟨_, found⟩
  exact ⟨kind, found, allocated_form allocated found⟩

/-- The decoded instruction has the form of its class. -/
theorem allocated_plan (allocated : Allocated word) : ∃ planned kind, plan word = some planned ∧
    dataClass word = some kind ∧ planned.resolved = some (classForm kind word) := by
  obtain ⟨kind, found, shape⟩ := allocated_found allocated
  obtain ⟨planned, planning, form⟩ := Option.bind_eq_some_iff.mp shape
  exact ⟨planned, kind, planning, found, form⟩

theorem registerByte_inj {register other : BitVec 5} :
    register.setWidth 8 = other.setWidth 8 ↔ register = other := by
  constructor
  · intro same
    have back := congrArg (BitVec.setWidth 5) same
    simpa only [BitVec.setWidth_setWidth_of_le _ (show 5 ≤ 8 by decide), BitVec.setWidth_eq] using back
  · exact congrArg _

theorem sourceOperand_constant {register : BitVec 5} {value : U64} :
    sourceOperand register = { type := .immediate, payload := .imm value } ↔
      register = 31 ∧ value = 0 := by
  unfold sourceOperand
  split
  · rename_i last
    simp only [Operand.mk.injEq, OperandUnion.imm.injEq, true_and, last]
    exact eq_comm
  · rename_i other
    exact iff_of_false nofun fun both => other both.1

theorem sourceOperand_inj {register other : BitVec 5} :
    sourceOperand register = sourceOperand other ↔ register = other := by
  refine ⟨fun same => ?_, congrArg _⟩
  by_cases last : other = 31
  · have zero : sourceOperand other = { type := .immediate, payload := .imm 0 } := if_pos last
    rw [zero, sourceOperand_constant] at same
    rw [same.1, last]
  · have kept : sourceOperand other = { type := .register, payload := .reg (other.setWidth 8) } :=
      if_neg last
    rw [kept, sourceOperand] at same
    split at same
    · cases same
    · simpa [registerByte_inj] using same

theorem ofMath_inj {firstOp secondOp : MathOp} {setFirst setSecond touchedFirst touchedSecond : Bool}
    {left right : Resolved} :
    ResolvedInstruction.ofMath one firstOp setFirst touchedFirst left =
        ResolvedInstruction.ofMath two secondOp setSecond touchedSecond right ↔
      Rd one = Rd two ∧ setFirst = setSecond ∧ sf one = sf two ∧ touchedFirst = touchedSecond ∧
      firstOp = secondOp ∧
        Rn one = Rn two ∧ left = right := by
  simp only [ResolvedInstruction.ofMath, Instruction.ofMath, ResolvedInstruction.mk.injEq,
    Instruction.mk.injEq,
    InstructionUnion.math.injEq, InstrMath.mk.injEq, Option.some.injEq, Resolved.operation.injEq,
    Resolved.value.injEq, sourceOperand_inj, registerByte_inj, true_and, and_true, and_self]
  tauto

theorem constant_inj {width : Nat} {value other : BitVec width} (narrow : width ≤ 64) :
    (Resolved.value { type := .immediate, payload := .imm (value.setWidth 64) }) =
      .value { type := .immediate, payload := .imm (other.setWidth 64) } ↔ value = other := by
  simp only [Resolved.value.injEq, Operand.mk.injEq, OperandUnion.imm.injEq, true_and]
  constructor
  · intro same
    have back := congrArg (BitVec.setWidth width) same
    simpa only [BitVec.setWidth_setWidth_of_le _ narrow, BitVec.setWidth_eq] using back
  · exact congrArg _

theorem addsubImmOperand_plain (unshifted : shift word ≠ 1) : addsubImmOperand word =
    .value { type := .immediate, payload := .imm ((imm12 word).setWidth 64) } := if_neg unshifted

theorem addsubImmOperand_shifted (shifted : shift word = 1) : addsubImmOperand word =
    .operation .lsl false false (.value { type := .immediate, payload := .imm ((imm12 word).setWidth 64) })
      (.value { type := .immediate, payload := .imm ((12 : BitVec 6).setWidth 64) }) := if_pos shifted

theorem shiftedOperand_plain (unshifted : imm6 word = 0) :
    shiftedOperand word = .value (sourceOperand (Rm word)) := by
  rw [shiftedOperand, unshifted]
  rfl

theorem shiftedOperand_shifted (shifted : imm6 word ≠ 0) : shiftedOperand word =
    .operation (shiftTypeTable (shift word)) false false (.value (sourceOperand (Rm word)))
      (.value { type := .immediate, payload := .imm ((imm6 word).setWidth 64) }) := by
  have positive : 0 < imm6 word := by
    revert shifted
    generalize imm6 word = field
    revert field
    decide
  exact if_pos positive

theorem addsubImmOperand_inj : addsubImmOperand one = addsubImmOperand two ↔
    (shift one = 1 ↔ shift two = 1) ∧ imm12 one = imm12 two := by
  by_cases first : shift one = 1 <;> by_cases second : shift two = 1
  · rw [addsubImmOperand_shifted first, addsubImmOperand_shifted second, Resolved.operation.injEq,
      constant_inj (by decide)]
    simp only [true_and, and_true, first, second]
  · rw [addsubImmOperand_shifted first, addsubImmOperand_plain second]
    exact iff_of_false nofun fun both => second (both.1.mp first)
  · rw [addsubImmOperand_plain first, addsubImmOperand_shifted second]
    exact iff_of_false nofun fun both => first (both.1.mpr second)
  · rw [addsubImmOperand_plain first, addsubImmOperand_plain second, constant_inj (by decide)]
    simp only [first, second, true_and]

theorem logicalImmOperand_inj :
    logicalImmOperand one = logicalImmOperand two ↔ lowMask one = lowMask two :=
  constant_inj (by decide)

theorem shiftTypeTable_inj {index other : BitVec 2} :
    shiftTypeTable index = shiftTypeTable other ↔ index = other := by
  revert index other
  decide

theorem shiftedOperand_inj : shiftedOperand one = shiftedOperand two ↔
    imm6 one = imm6 two ∧ Rm one = Rm two ∧ (imm6 one = 0 ∨ shift one = shift two) := by
  by_cases first : imm6 one = 0 <;> by_cases second : imm6 two = 0
  · rw [shiftedOperand_plain first, shiftedOperand_plain second, Resolved.value.injEq, sourceOperand_inj]
    simp only [first, second, true_and, true_or, and_true]
  · rw [shiftedOperand_plain first, shiftedOperand_shifted second]
    exact iff_of_false nofun fun all => second (all.1.symm.trans first)
  · rw [shiftedOperand_shifted first, shiftedOperand_plain second]
    exact iff_of_false nofun fun all => first (all.1.trans second)
  · rw [shiftedOperand_shifted first, shiftedOperand_shifted second, Resolved.operation.injEq,
      constant_inj (by decide), Resolved.value.injEq, sourceOperand_inj, shiftTypeTable_inj]
    simp only [first, false_or, true_and]
    tauto

theorem logicalShiftOperand_inj : logicalShiftOperand one = logicalShiftOperand two ↔
    N one = N two ∧ shiftedOperand one = shiftedOperand two := by
  have plain (word : U32) (operand : Resolved) : shiftedOperand word ≠ .negation false false operand := by
    unfold shiftedOperand
    split <;> nofun
  unfold logicalShiftOperand
  cases N one <;> cases N two
  · simp
  · simp [plain]
  · simp [(plain _ _).symm]
  · simp

theorem constant_source {width : Nat} {value : BitVec width} (narrow : width ≤ 64) {register : BitVec 5} :
    Resolved.value { type := .immediate, payload := .imm (value.setWidth 64) } =
    .value (sourceOperand register) ↔
      register = 31 ∧ value = 0 := by
  rw [Resolved.value.injEq, eq_comm, sourceOperand_constant]
  refine and_congr_right fun _ => ⟨fun zero => ?_, fun zero => ?_⟩
  · have back := congrArg (BitVec.setWidth width) zero
    simpa only [BitVec.setWidth_setWidth_of_le _ narrow, BitVec.setWidth_eq, BitVec.ofNat_eq_ofNat,
      BitVec.setWidth_zero] using back
  · rw [zero]
    exact BitVec.setWidth_zero ..

/-- An immediate that reads like a shifted register: both are the constant 0. -/
theorem addsubImmOperand_eq_shiftedOperand : addsubImmOperand one = shiftedOperand two ↔
    imm12 one = 0 ∧ Rm two = 31 ∧
      ((shift one ≠ 1 ∧ imm6 two = 0) ∨ (shift one = 1 ∧ shift two = 0 ∧ imm6 two = 12)) := by
  by_cases first : shift one = 1 <;> by_cases second : imm6 two = 0
  · rw [addsubImmOperand_shifted first, shiftedOperand_plain second]
    refine iff_of_false nofun ?_
    intro both
    rcases both with ⟨_, _, ⟨unshifted, _⟩ | ⟨_, _, twelve⟩⟩
    · exact unshifted first
    · exact absurd (second.symm.trans twelve) (by decide)
  · have left : MathOp.lsl = shiftTypeTable (shift two) ↔ shift two = 0 := by
      rw [← shiftTypeTable_inj]
      exact eq_comm
    rw [addsubImmOperand_shifted first, shiftedOperand_shifted second, Resolved.operation.injEq, left,
      constant_source (by decide), constant_inj (by decide)]
    simp only [true_and, first, second, and_false, ne_eq, not_true_eq_false, false_or, eq_comm]
    tauto
  · rw [addsubImmOperand_plain first, shiftedOperand_plain second, constant_source (by decide)]
    simp only [first, second, ne_eq, not_false_eq_true, and_self, false_and, or_false, and_true]
    exact and_comm
  · rw [addsubImmOperand_plain first, shiftedOperand_shifted second]
    refine iff_of_false nofun ?_
    intro both
    rcases both with ⟨_, _, ⟨_, zero⟩ | ⟨shifted, _⟩⟩
    · exact second zero
    · exact first shifted

theorem logicalImmOperand_eq_logicalShiftOperand : logicalImmOperand one = logicalShiftOperand two ↔
    lowMask one = 0 ∧ Rm two = 31 ∧ imm6 two = 0 ∧ N two = false := by
  unfold logicalImmOperand logicalShiftOperand
  cases N two with
  | true => exact iff_of_false nofun fun all => nomatch all.2.2.2
  | false =>
      simp only [Bool.false_eq_true, if_false, and_true]
      by_cases unshifted : imm6 two = 0
      · rw [shiftedOperand_plain unshifted, constant_source (by decide)]
        simp only [unshifted, and_true]
        exact and_comm
      · rw [shiftedOperand_shifted unshifted]
        exact iff_of_false nofun fun all => unshifted all.2.2

theorem opc_inj {index other : BitVec 2} : decide (index = 3) = decide (other = 3) ∧
    bitwiseOpTable index = bitwiseOpTable other ↔ index = other := by
  revert index other
  decide

theorem addsubOp_inj {add other : Bool} :
    (if add then MathOp.add else .sub) = (if other then .add else .sub) ↔ add = other := by
  revert add other
  decide

theorem addsubOp_bitwise (add : Bool) (index : BitVec 2) :
    (if add then MathOp.add else .sub) ≠ bitwiseOpTable index := by
  revert add index
  decide

end Forms

section Lost

variable (one two : U32)

/-- Two 64-bit logical immediates whose masks differ in the upper half only. -/
def MaskCut : Prop :=
  Rd one = Rd two ∧ Rn one = Rn two ∧ opc one = opc two ∧ sf one = true ∧ sf two = true ∧
    lowMask one = lowMask two ∧
    mask (immN one) (imms one) (immr one) ≠ mask (immN two) (imms two) (immr two) ∧
    ¬ (Rn one = 31 ∧ (opc one = 0 ∨ opc one = 3))

/-- A 64-bit logical immediate whose mask has an upper half only, and the zero register. -/
def MaskLost : Prop :=
  Rd one = Rd two ∧ Rn one = Rn two ∧ opc one = opc two ∧ sf one = true ∧ sf two = true ∧
    lowMask one = 0 ∧ Rm two = 31 ∧ imm6 two = 0 ∧ N two = false ∧
    ¬ (Rn one = 31 ∧ ((opc one = 0 ∧ Rd one ≠ 31) ∨ opc one = 3))

/-- The immediate 0 and the zero register, in classes that disagree on number 31. -/
def StackLost : Prop :=
  Rd one = Rd two ∧ Rn one = Rn two ∧ op one = op two ∧ sf one = sf two ∧ S one = false ∧ S two = false ∧
    imm12 one = 0 ∧ Rm two = 31 ∧
    ((shift one ≠ 1 ∧ imm6 two = 0) ∨ (shift one = 1 ∧ shift two = 0 ∧ imm6 two = 12)) ∧
    ¬ ((Rn one ≠ 31 ∧ Rd one ≠ 31) ∨ (sf one = true ∧ Rn one = 31 ∧ Rd one = 31))

instance : Decidable (MaskCut one two) := inferInstanceAs (Decidable (_ ∧ _))
instance : Decidable (MaskLost one two) := inferInstanceAs (Decidable (_ ∧ _))
instance : Decidable (StackLost one two) := inferInstanceAs (Decidable (_ ∧ _))

/-- The pairs that the IML confuses, in one of their two orders. -/
def Confusable : Prop :=
  (dataClass one = some .logicalImmediate ∧ dataClass two = some .logicalImmediate ∧ MaskCut one two) ∨
  (dataClass one = some .logicalImmediate ∧ dataClass two = some .logicalShifted ∧ MaskLost one two) ∨
  (dataClass one = some .addSubImmediate ∧ dataClass two = some .addSubShifted ∧ StackLost one two)

instance : Decidable (Confusable one two) := inferInstanceAs (Decidable (_ ∨ _))

end Lost

section Pairs

variable {one two : U32}

def Confused (one two : U32) : Prop := SameIml one two ∧ ¬ SameEffect one two

theorem Confused.symm (confused : Confused one two) : Confused two one := by
  obtain ⟨⟨first, second, pool, other, resolved, aloneOne, formOne, aloneTwo, formTwo⟩, differ⟩ :=
    confused
  exact ⟨⟨second, first, other, pool, resolved, aloneTwo, formTwo, aloneOne, formOne⟩,
    fun same => differ fun cpu => (same cpu).symm⟩

theorem MaskCut.symm (cut : MaskCut one two) : MaskCut two one := by
  obtain ⟨sameRd, sameRn, sameOpc, wideOne, wideTwo, sameLow, differ, visible⟩ := cut
  exact ⟨sameRd.symm, sameRn.symm, sameOpc.symm, wideTwo, wideOne, sameLow.symm, differ.symm,
    sameRn ▸ sameOpc ▸ visible⟩

theorem confused_comm : Confused one two ↔ Confused two one := ⟨Confused.symm, Confused.symm⟩

theorem execute_class {word : U32} {kind : DataClass} (found : dataClass word = some kind) (cpu : Cpu) :
    execute word cpu = match kind with
      | .addSubImmediate => addSubImmediate cpu word
      | .logicalImmediate => logicalImmediate cpu word
      | .logicalShifted => Arm.logicalShifted cpu word
      | .addSubShifted => addSubShifted cpu word := by
  unfold execute
  cases kind <;> simp only [found]

variable (allocatedOne : Allocated one) (allocatedTwo : Allocated two)

include allocatedOne allocatedTwo

theorem sameIml_class {kindOne kindTwo : DataClass} (foundOne : dataClass one = some kindOne)
    (foundTwo : dataClass two = some kindTwo) :
    SameIml one two ↔ classForm kindOne one = classForm kindTwo two :=
  sameIml_iff (allocated_form allocatedOne foundOne) (allocated_form allocatedTwo foundTwo)

theorem not_confused_addSubImmediate (foundOne : dataClass one = some .addSubImmediate)
    (foundTwo : dataClass two = some .addSubImmediate) : ¬ Confused one two := by
  intro both
  obtain ⟨iml, differ⟩ := both
  rw [sameIml_class allocatedOne allocatedTwo foundOne foundTwo, classForm, classForm, ofMath_inj,
    addsubOp_inj, addsubImmOperand_inj] at iml
  obtain ⟨sameRd, sameS, sameSize, _, sameOp, sameRn, sameShift, sameImm⟩ := iml
  refine differ fun cpu => ?_
  rw [execute_class foundOne, execute_class foundTwo]
  exact addSubImmediate_congr sameRd sameRn sameOp sameS sameSize sameShift sameImm

theorem not_confused_addSubShifted (foundOne : dataClass one = some .addSubShifted)
    (foundTwo : dataClass two = some .addSubShifted) : ¬ Confused one two := by
  intro both
  obtain ⟨iml, differ⟩ := both
  rw [sameIml_class allocatedOne allocatedTwo foundOne foundTwo, classForm, classForm, ofMath_inj,
    addsubOp_inj, shiftedOperand_inj] at iml
  obtain ⟨sameRd, sameS, sameSize, _, sameOp, sameRn, sameAmount, sameRm, sameType⟩ := iml
  refine differ fun cpu => ?_
  rw [execute_class foundOne, execute_class foundTwo]
  exact addSubShifted_congr sameRd sameRn sameOp sameS sameSize sameAmount sameRm sameType

theorem not_confused_logicalShifted (foundOne : dataClass one = some .logicalShifted)
    (foundTwo : dataClass two = some .logicalShifted) : ¬ Confused one two := by
  intro both
  obtain ⟨iml, differ⟩ := both
  rw [sameIml_class allocatedOne allocatedTwo foundOne foundTwo, classForm, classForm, ofMath_inj,
    logicalShiftOperand_inj, shiftedOperand_inj] at iml
  obtain ⟨sameRd, sameFlags, sameSize, _, sameOp, sameRn, sameN, sameAmount, sameRm, sameType⟩ := iml
  refine differ fun cpu => ?_
  rw [execute_class foundOne, execute_class foundTwo]
  have sameOpc := opc_inj.mp ⟨sameFlags, sameOp⟩
  exact logicalShifted_congr sameRd sameRn sameOpc sameSize sameN sameAmount sameRm sameType

theorem not_confused_operation {kindOne kindTwo : DataClass} (foundOne : dataClass one = some kindOne)
    (foundTwo : dataClass two = some kindTwo)
    (sum : kindOne = .addSubImmediate ∨ kindOne = .addSubShifted)
    (logical : kindTwo = .logicalImmediate ∨ kindTwo = .logicalShifted) : ¬ Confused one two := by
  intro both
  obtain ⟨iml, _⟩ := both
  rw [sameIml_class allocatedOne allocatedTwo foundOne foundTwo] at iml
  rcases sum with rfl | rfl <;> rcases logical with rfl | rfl
  all_goals
    rw [classForm, classForm, ofMath_inj] at iml
    exact addsubOp_bitwise _ _ iml.2.2.2.2.1

theorem confused_logicalImmediate (foundOne : dataClass one = some .logicalImmediate)
    (foundTwo : dataClass two = some .logicalImmediate) : Confused one two ↔ MaskCut one two := by
  have iml := sameIml_class allocatedOne allocatedTwo foundOne foundTwo
  rw [classForm, classForm, ofMath_inj, logicalImmOperand_inj] at iml
  have effect : SameEffect one two ↔ ∀ cpu, logicalImmediate cpu one = logicalImmediate cpu two :=
    forall_congr' fun cpu => by rw [execute_class foundOne, execute_class foundTwo]
  rw [Confused, iml, effect]
  constructor
  · intro both
    obtain ⟨⟨sameRd, sameFlags, sameSize, _, sameOp, sameRn, sameLow⟩, differ⟩ := both
    have sameOpc := opc_inj.mp ⟨sameFlags, sameOp⟩
    have wide : sf two = true := by
      by_contra narrow
      have size : datasize two = 32 := if_neg narrow
      refine differ fun cpu => logicalImmediate_congr sameRd sameRn sameOpc sameSize ?_
      rw [size]
      exact sameLow
    have masks : mask (immN one) (imms one) (immr one) ≠ mask (immN two) (imms two) (immr two) :=
      fun same => differ fun cpu =>
        logicalImmediate_congr sameRd sameRn sameOpc sameSize (by rw [same])
    have same := logicalImmediate_same_iff sameRd sameRn sameOpc (sameSize.trans wide) wide masks
    exact ⟨sameRd, sameRn, sameOpc, sameSize.trans wide, wide, sameLow, masks,
      fun nothing => differ (same.mpr nothing)⟩
  · intro both
    obtain ⟨sameRd, sameRn, sameOpc, wideOne, wideTwo, sameLow, masks, visible⟩ := both
    obtain ⟨sameFlags, sameOp⟩ := opc_inj.mpr sameOpc
    have same := logicalImmediate_same_iff sameRd sameRn sameOpc wideOne wideTwo masks
    exact ⟨⟨sameRd, sameFlags, wideOne.trans wideTwo.symm, sameFlags, sameOp, sameRn, sameLow⟩,
      fun agree => visible (same.mp agree)⟩

theorem confused_logicalImmediate_logicalShifted (foundOne : dataClass one = some .logicalImmediate)
    (foundTwo : dataClass two = some .logicalShifted) : Confused one two ↔ MaskLost one two := by
  have iml := sameIml_class allocatedOne allocatedTwo foundOne foundTwo
  rw [classForm, classForm, ofMath_inj, logicalImmOperand_eq_logicalShiftOperand] at iml
  have effect : SameEffect one two ↔ ∀ cpu, logicalImmediate cpu one = Arm.logicalShifted cpu two :=
    forall_congr' fun cpu => by rw [execute_class foundOne, execute_class foundTwo]
  -- a mask without a lower half is not all ones
  have partial_ (low : lowMask one = 0) : mask (immN one) (imms one) (immr one) ≠ BitVec.allOnes 64 := by
    intro all
    rw [lowMask, all] at low
    exact absurd low (by decide)
  rw [Confused, iml, effect]
  constructor
  · intro both
    obtain ⟨⟨sameRd, sameFlags, sameSize, _, sameOp, sameRn, low, zero, unshifted, plain⟩, differ⟩ := both
    have sameOpc := opc_inj.mp ⟨sameFlags, sameOp⟩
    have wide : sf one = true := by
      by_contra narrow
      have short : immN one = false := by
        simp only [Allocated, foundOne] at allocatedOne
        simp_all
      rw [lowMask, short] at low
      exact mask_low_ne_zero low
    have same := logicalImmediate_logicalShifted_same_iff sameRd sameRn sameOpc wide
      (sameSize ▸ wide) zero plain (partial_ low)
    exact ⟨sameRd, sameRn, sameOpc, wide, sameSize ▸ wide, low, zero, unshifted, plain,
      fun nothing => differ (same.mpr nothing)⟩
  · intro both
    obtain ⟨sameRd, sameRn, sameOpc, wideOne, wideTwo, low, zero, unshifted, plain, visible⟩ := both
    obtain ⟨sameFlags, sameOp⟩ := opc_inj.mpr sameOpc
    have same := logicalImmediate_logicalShifted_same_iff sameRd sameRn sameOpc wideOne wideTwo zero
      plain (partial_ low)
    exact ⟨⟨sameRd, sameFlags, wideOne.trans wideTwo.symm, sameFlags, sameOp, sameRn, low, zero,
      unshifted, plain⟩, fun agree => visible (same.mp agree)⟩

theorem confused_addSubImmediate_addSubShifted (foundOne : dataClass one = some .addSubImmediate)
    (foundTwo : dataClass two = some .addSubShifted) : Confused one two ↔ StackLost one two := by
  have iml := sameIml_class allocatedOne allocatedTwo foundOne foundTwo
  rw [classForm, classForm, ofMath_inj, addsubOp_inj, addsubImmOperand_eq_shiftedOperand] at iml
  have effect : SameEffect one two ↔ ∀ cpu, addSubImmediate cpu one = addSubShifted cpu two :=
    forall_congr' fun cpu => by rw [execute_class foundOne, execute_class foundTwo]
  rw [Confused, iml, effect]
  constructor
  · intro both
    obtain ⟨⟨sameRd, sameS, sameSize, plain, sameOp, sameRn, zeroImm, zero, shifts⟩, differ⟩ := both
    have plainOne := sameS.trans plain.symm
    have same := addSubImmediate_addSubShifted_same_iff sameRd sameRn sameSize plainOne plain.symm
      zeroImm zero
    exact ⟨sameRd, sameRn, sameOp, sameSize, plainOne, plain.symm, zeroImm, zero, shifts,
      fun nothing => differ (same.mpr nothing)⟩
  · intro both
    obtain ⟨sameRd, sameRn, sameOp, sameSize, plainOne, plainTwo, zeroImm, zero, shifts, visible⟩ := both
    have same := addSubImmediate_addSubShifted_same_iff sameRd sameRn sameSize plainOne plainTwo
      zeroImm zero
    exact ⟨⟨sameRd, plainOne.trans plainTwo.symm, sameSize, plainTwo.symm, sameOp, sameRn, zeroImm,
      zero, shifts⟩, fun agree => visible (same.mp agree)⟩

theorem confused_iff : Confused one two ↔ Confusable one two ∨ Confusable two one := by
  have some_kind {word : U32} (allocated : Allocated word) : ∃ kind, dataClass word = some kind := by
    rcases allocated with ⟨found, _⟩ | ⟨found, _⟩ | ⟨found, _⟩ | ⟨found, _⟩ <;> exact ⟨_, found⟩
  obtain ⟨kindOne, foundOne⟩ := some_kind allocatedOne
  obtain ⟨kindTwo, foundTwo⟩ := some_kind allocatedTwo
  have sumLogical := not_confused_operation allocatedOne allocatedTwo foundOne foundTwo
  have logicalSum := fun sum logical => mt Confused.symm
    (not_confused_operation allocatedTwo allocatedOne foundTwo foundOne sum logical)
  simp only [Confusable, foundOne, foundTwo, Option.some.injEq]
  cases kindOne <;> cases kindTwo <;>
    simp only [reduceCtorEq, false_and, true_and, and_false, or_false, false_or, or_self, iff_false]
  case addSubImmediate.addSubImmediate =>
    exact not_confused_addSubImmediate allocatedOne allocatedTwo foundOne foundTwo
  case addSubImmediate.addSubShifted =>
    exact confused_addSubImmediate_addSubShifted allocatedOne allocatedTwo foundOne foundTwo
  case addSubShifted.addSubImmediate =>
    exact confused_comm.trans (confused_addSubImmediate_addSubShifted allocatedTwo allocatedOne foundTwo foundOne)
  case addSubShifted.addSubShifted =>
    exact not_confused_addSubShifted allocatedOne allocatedTwo foundOne foundTwo
  case logicalImmediate.logicalImmediate =>
    rw [confused_logicalImmediate allocatedOne allocatedTwo foundOne foundTwo]
    exact ⟨Or.inl, fun cut => cut.elim id MaskCut.symm⟩
  case logicalImmediate.logicalShifted =>
    exact confused_logicalImmediate_logicalShifted allocatedOne allocatedTwo foundOne foundTwo
  case logicalShifted.logicalImmediate =>
    exact confused_comm.trans (confused_logicalImmediate_logicalShifted allocatedTwo allocatedOne foundTwo foundOne)
  case logicalShifted.logicalShifted =>
    exact not_confused_logicalShifted allocatedOne allocatedTwo foundOne foundTwo
  case addSubImmediate.logicalImmediate => exact sumLogical (Or.inl rfl) (Or.inl rfl)
  case addSubImmediate.logicalShifted => exact sumLogical (Or.inl rfl) (Or.inr rfl)
  case addSubShifted.logicalImmediate => exact sumLogical (Or.inr rfl) (Or.inl rfl)
  case addSubShifted.logicalShifted => exact sumLogical (Or.inr rfl) (Or.inr rfl)
  case logicalImmediate.addSubImmediate => exact logicalSum (Or.inl rfl) (Or.inl rfl)
  case logicalImmediate.addSubShifted => exact logicalSum (Or.inr rfl) (Or.inl rfl)
  case logicalShifted.addSubImmediate => exact logicalSum (Or.inl rfl) (Or.inr rfl)
  case logicalShifted.addSubShifted => exact logicalSum (Or.inr rfl) (Or.inr rfl)

end Pairs

/-- The IML tells the effects of two words apart exactly if they are none of the pairs
that it confuses. -/
theorem sameIml_sameEffect_iff (one two : U32) (allocatedOne : Allocated one)
    (allocatedTwo : Allocated two) :
    (SameIml one two → SameEffect one two) ↔ ¬ Confusable one two ∧ ¬ Confusable two one := by
  rw [← not_or, ← confused_iff allocatedOne allocatedTwo, Confused, not_and, not_not]

/-- `add x0, x1, #0` and `add x0, x1, xzr`. -/
theorem sameIml_sameEffect_iff_add :
    SameIml 0x91000020 0x8B1F0020 ∧ SameEffect 0x91000020 0x8B1F0020 := by
  have immediate : resolvedForm 0x91000020 = some (classForm .addSubImmediate 0x91000020) :=
    allocated_form (by decide) (by decide)
  have shifted : resolvedForm 0x8B1F0020 = some (classForm .addSubShifted 0x8B1F0020) :=
    allocated_form (by decide) (by decide)
  have same : SameIml 0x91000020 0x8B1F0020 := (sameIml_iff immediate shifted).mpr (by decide)
  exact ⟨same, (sameIml_sameEffect_iff 0x91000020 0x8B1F0020 (by decide) (by decide)).mpr (by decide) same⟩

/-- `add sp, x1, #0` moves to SP, and `add xzr, x1, xzr` does nothing. -/
theorem sameIml_confuses_stack :
    ¬ ∀ one two : U32, Allocated one → Allocated two → SameIml one two → SameEffect one two := by
  intro keeps
  have confused : Confused 0x9100003F 0x8B1F003F :=
    (confused_iff (by decide) (by decide)).mpr (Or.inl (by decide))
  exact confused.2 (keeps _ _ (by decide) (by decide) confused.1)

end Koshka.Iml
