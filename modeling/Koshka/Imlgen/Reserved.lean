import Koshka.Imlgen.Classes
import Koshka.Imlgen.Meaning
import Koshka.Imlgen.Records

namespace Koshka.Iml

open Data Arm

/-- The words of the four classes that the architecture leaves without a meaning. -/
def Reserved (word : U32) : Prop :=
  (AddSubImmediate word ∧ (shift word = 2 ∨ shift word = 3)) ∨
  (AddSubShifted word ∧ shift word = 3) ∨
  ((LogicalShifted word ∨ AddSubShifted word) ∧ sf word = false ∧ 32 ≤ (imm6 word).toNat) ∨
  (LogicalImmediate word ∧
    ((sf word = false ∧ immN word = true) ∨ MaskReserved (immN word) (imms word)))

instance (word : U32) : Decidable (Reserved word) := inferInstanceAs (Decidable (_ ∨ _))

/-- An assert stops the decoding of the word, or its result is invalid. -/
def Rejects (word : U32) : Prop :=
  ∀ (env : Environment) (before : Machine), Fails (decode env word) before .assertFailed ∨
    Returns (decode env word) before .blank before

/-- Some decoding of the word returns a math instruction. -/
def Translated (word : U32) : Prop :=
  ∃ (env : Environment) (before after : Machine) (result : DecodeResult),
    Returns (decode env word) before result after ∧ result.instr.var = .math

/-- The reserved words of the two classes of additions and subtractions whose shift types the
decoders do not check, or check in the wrong encoding. -/
def ShiftUnchecked (word : U32) : Prop :=
  AddSubImmediate word ∨ (AddSubShifted word ∧ (sf word = false → (imm6 word).toNat < 32))

section Reserved

variable {word : U32} {planned : Plan}

theorem plan_addsubShift (member : AddSubShifted word) (accepted : ShiftAccepted word) :
    plan word = some (planAddsubShift word) := by
  rw [plan_dataClass .addSubShifted member]
  exact if_pos accepted

theorem planned_shiftAccepted (member : LogicalShifted word ∨ AddSubShifted word)
    (found : plan word = some planned) : ShiftAccepted word := by
  by_contra refused
  have none : plan word = none := by
    rcases member with logical | addSub
    · rw [plan_dataClass .logicalShifted logical]
      exact if_neg refused
    · rw [plan_dataClass .addSubShifted addSub]
      exact if_neg refused
  cases none.symm.trans found

theorem planned_maskAccepted (member : LogicalImmediate word) (found : plan word = some planned) :
    LogicalImmAccepted word := by
  by_contra refused
  have none : plan word = none := by
    rw [plan_dataClass .logicalImmediate member]
    exact if_neg refused
  cases none.symm.trans found

/-- A reserved word with a plan is one whose shift type goes unchecked. -/
theorem reserved_planned (reserved : Reserved word) (found : plan word = some planned) :
    ShiftUnchecked word := by
  rcases reserved with immediate | addSub | long | mask
  · exact Or.inl immediate.1
  · exact Or.inr ⟨addSub.1, shiftAccepted_iff.mp (planned_shiftAccepted (Or.inr addSub.1) found)⟩
  · obtain ⟨member, narrow, wide⟩ := long
    have short := shiftAccepted_iff.mp (planned_shiftAccepted member found) narrow
    exact absurd wide (Nat.not_le.mpr short)
  · obtain ⟨member, unnamed⟩ := mask
    obtain ⟨plain, named⟩ := planned_maskAccepted member found
    rcases unnamed with narrow | noMask
    · exact absurd ((plain narrow.1).symm.trans narrow.2) (by decide)
    · exact absurd noMask named

theorem pushStored_handle {env : Environment} {object : Stored} {handle : PoolHandle}
    {before after : Machine}
    (run : Returns (pushStored env object) before handle after) :
    handle = poolInvalidHandle ∨ (handle = before.program.imlPool.pos ∧
      after.program.imlPool.pos = before.program.imlPool.pos + BitVec.ofNat 32 object.size) := by
  obtain ⟨_, pushed, rfl⟩ := pushStored_returns.mp run
  rcases poolPush_handle pushed with refused | stored
  · exact Or.inl refused.1
  · exact Or.inr stored

/-- The operands of an operator lie at different handles, so that no operator is all zeros. -/
theorem operatorExpression_ne_blank {env : Environment} {left right expr : Expression} {op : MathOp}
    {carry : Bool} {before after : Machine}
    (run : Returns (operatorExpression env left op right carry) before expr after) : expr ≠ .blank := by
  obtain ⟨_, _, _, _, pushLeft, pushRight, rfl, -⟩ := operatorExpression_returns.mp run
  intro blank
  simp only [Expression.blank, Expression.mk.injEq, ExpressionUnion.expr.injEq, ExprOp.mk.injEq] at blank
  obtain ⟨_, _, _, _, leftZero, rightZero⟩ := blank
  subst leftZero rightZero
  rcases pushStored_handle pushLeft with refused | ⟨start, moved⟩
  · exact absurd refused (by decide)
  · rcases pushStored_handle pushRight with refused | ⟨next, _⟩
    · exact absurd refused (by decide)
    · rw [moved, ← start] at next
      exact absurd next (by decide : (0 : PoolHandle) ≠ 0 + BitVec.ofNat 32 24)

theorem reserved_unplanned (reserved : Reserved word) (checked : ¬ ShiftUnchecked word) :
    plan word = none :=
  Option.eq_none_iff_forall_ne_some.mpr fun _ found => checked (reserved_planned reserved found)

/-- An instruction with an operator is math, and not the invalid result. -/
theorem node_build {env : Environment} {before after : Machine} {result : DecodeResult} {op : MathOp}
    {left right : Tree} {math : InstrMath} (node : planned.tree = .node op left right)
    (payload : planned.instr.payload = .math math)
    (building : Returns (planned.build env) before result after) :
    result.instr.var = planned.instr.var ∧ result ≠ .blank := by
  simp only [Plan.build, node, Tree.build, returns_bind, returns_pure] at building
  obtain ⟨expr, _, ⟨_, _, _, _, _, _, operator⟩, rfl, rfl⟩ := building
  have instr : planned.instr.withExpr expr =
    { planned.instr with payload := .math { math with expr } } := by
    simp only [Instruction.withExpr, payload]
  rw [instr]
  refine ⟨rfl, fun blank => operatorExpression_ne_blank operator ?_⟩
  simp only [DecodeResult.blank, Instruction.blank, DecodeResult.mk.injEq, Instruction.mk.injEq,
    InstructionUnion.math.injEq, InstrMath.mk.injEq] at blank
  exact blank.2.1.2.2

theorem unchecked_translated {env : Environment} {before after : Machine} {result : DecodeResult}
    (unchecked : ShiftUnchecked word) (run : Returns (decode env word) before result after) :
    result.instr.var = .math ∧ result ≠ .blank := by
  obtain ⟨planned, found, building⟩ := decode_returns.mp run
  rcases unchecked with immediate | addSub
  · cases (plan_addsubImm immediate).symm.trans found
    exact node_build rfl rfl building
  · cases (plan_addsubShift addSub.1 (shiftAccepted_iff.mpr addSub.2)).symm.trans found
    exact node_build rfl rfl building

theorem unchecked_exists (unchecked : ShiftUnchecked word) :
    ∃ env before after result, Returns (decode env word) before result after := by
  rcases unchecked with immediate | addSub
  · exact decode_exists (plan_addsubImm immediate)
  · exact decode_exists (plan_addsubShift addSub.1 (shiftAccepted_iff.mpr addSub.2))

theorem unplanned_rejects_iff (none : plan word = none) : Rejects word ↔ ¬ Endless word := by
  have stops (env : Environment) (before : Machine) : Fails (decode env word) before (planFault word) := by
    rw [decode_eq, none]
    exact fails_throw.mpr rfl
  constructor
  · intro rejects endless
    have stopped := stops .calm (.initial .calm [] 0)
    rw [planFault, if_pos endless] at stopped
    rcases rejects .calm (.initial .calm [] 0) with failed | returned
    · cases failed.unique stopped
    · exact returned.not_fails stopped
  · intro ends env before
    have stopped := stops env before
    rw [planFault, if_neg ends] at stopped
    exact Or.inl stopped

end Reserved

/-- Reserved words are rejected but for the shift types that go unchecked and the mask whose
decoding does not end. -/
theorem decode_rejects_iff (word : U32) (reserved : Reserved word) :
    (Rejects word ↔ ¬ ShiftUnchecked word ∧ ¬ Endless word) ∧
      (Translated word ↔ ShiftUnchecked word) := by
  constructor
  · constructor
    · intro rejects
      have unchecked : ¬ ShiftUnchecked word := by
        intro unchecked
        obtain ⟨env, before, after, result, run⟩ := unchecked_exists unchecked
        rcases rejects env before with failed | blank
        · exact run.not_fails failed
        · exact (unchecked_translated unchecked run).2 (run.value_unique blank)
      exact ⟨unchecked, (unplanned_rejects_iff (reserved_unplanned reserved unchecked)).mp rejects⟩
    · intro condition
      obtain ⟨checked, ends⟩ := condition
      exact (unplanned_rejects_iff (reserved_unplanned reserved checked)).mpr ends
  · constructor
    · intro translated
      obtain ⟨env, before, after, result, run, _⟩ := translated
      obtain ⟨planned, _, found, _⟩ := decode_record run
      exact reserved_planned reserved found
    · intro unchecked
      obtain ⟨env, before, after, result, run⟩ := unchecked_exists unchecked
      exact ⟨env, before, after, result, run, (unchecked_translated unchecked run).1⟩

/-- `ands w0, w1, #1` with N set -/
theorem decode_rejects_iff_wide :
    (Rejects 0x72400020 ↔ ¬ ShiftUnchecked 0x72400020 ∧ ¬ Endless 0x72400020) ∧
    (Translated 0x72400020 ↔ ShiftUnchecked 0x72400020) :=
  decode_rejects_iff 0x72400020 (by decide)

/-- `add x0, x1, x2` with the shift type of a rotation. -/
theorem decode_translates_reserved : ¬ ∀ word : U32, Reserved word → Rejects word := by
  intro rejects
  have unchecked : ShiftUnchecked 0x8BC20020 := Or.inr (by decide)
  obtain ⟨env, before, after, result, run⟩ := unchecked_exists unchecked
  rcases rejects 0x8BC20020 (by decide) env before with failed | blank
  · exact run.not_fails failed
  · exact (unchecked_translated unchecked run).2 (run.value_unique blank)

end Koshka.Iml
