import Koshka.Imlgen.Classes
import Koshka.Imlgen.Meaning

namespace Koshka.Iml

open Data Arm

/-- The final values of an expression, from left to right. -/
def Resolved.leaves : Resolved → List Operand
  | .value operand => [operand]
  | .negation _ _ operand => operand.leaves
  | .operation _ _ _ left right => left.leaves ++ right.leaves

/-- The leaf for a source field: number 31 is the stack pointer where the instruction reads
SP, and else the zero register. -/
def architecturalSource (readsSp : Bool) (register : BitVec 5) : Operand :=
  if register = 31 ∧ readsSp = false then { type := .immediate, payload := .imm 0 }
  else { type := .register, payload := .reg (register.setWidth 8) }

/-- `Rn` of an addition or subtraction of an immediate is the only source that names SP. -/
def readsSp (word : U32) : Bool := dataClass word = some .addSubImmediate

def HasRm (word : U32) : Prop :=
  dataClass word = some .logicalShifted ∨ dataClass word = some .addSubShifted

/-- The source fields are the first leaves of the expression, as the architecture reads them. -/
structure Resolved.ReadsSources (expr : Resolved) (word : U32) : Prop where
  Rn : expr.leaves[0]? = some (architecturalSource (readsSp word) (Rn word))
  Rm : HasRm word → expr.leaves[1]? = some (architecturalSource false (Rm word))

def Instruction.ReadsSources (pool : ImlPool) (instr : Instruction) (word : U32) : Prop :=
  ∃ form expr, instr.Resolves pool form ∧ form.expr = some expr ∧ expr.ReadsSources word

section Sources

variable {word : U32} {kind : DataClass} {register : BitVec 5}

theorem sourceOperand_eq_iff {sp : Bool} :
    sourceOperand register = architecturalSource sp register ↔ ¬ (sp = true ∧ register = 31) := by
  by_cases last : register = 31
  · cases sp <;> simp [sourceOperand, architecturalSource, last]
  · rw [sourceOperand, architecturalSource, if_neg last, if_neg fun both => last both.1]
    exact iff_of_true rfl fun both => last both.2

theorem shiftedOperand_leaves :
    ∃ rest, (shiftedOperand word).leaves = sourceOperand (Rm word) :: rest := by
  unfold shiftedOperand
  split
  · exact ⟨_, rfl⟩
  · exact ⟨_, rfl⟩

theorem logicalShiftOperand_leaves :
    (logicalShiftOperand word).leaves = (shiftedOperand word).leaves := by
  unfold logicalShiftOperand
  split
  · rfl
  · rfl

/-- The leaves of a class: `Rn`, then the leaves of the second operand. -/
theorem classForm_leaves (kind : DataClass) (word : U32) : ∃ expr rest,
    (classForm kind word).expr = some expr ∧ expr.leaves = sourceOperand (Rn word) :: rest ∧
      (kind = .logicalShifted ∨ kind = .addSubShifted → rest[0]? = some (sourceOperand (Rm word))) := by
  obtain ⟨more, shifted⟩ := @shiftedOperand_leaves word
  cases kind with
  | addSubImmediate => exact ⟨_, _, rfl, rfl, nofun⟩
  | logicalImmediate => exact ⟨_, _, rfl, rfl, nofun⟩
  | logicalShifted => exact ⟨_, _, rfl, rfl, fun _ => by rw [logicalShiftOperand_leaves, shifted]; rfl⟩
  | addSubShifted => exact ⟨_, _, rfl, rfl, fun _ => by rw [shifted]; rfl⟩

theorem readsSp_iff : readsSp word = true ↔ AddSubImmediate word :=
  decide_eq_true_iff.trans dataClass_eq_some

theorem classForm_readsSources_iff {expr : Resolved} (found : dataClass word = some kind)
    (formula : (classForm kind word).expr = some expr) :
    expr.ReadsSources word ↔ ¬ (AddSubImmediate word ∧ Rn word = 31) := by
  obtain ⟨_, rest, same, leaves, second⟩ := classForm_leaves kind word
  cases same.symm.trans formula
  rw [← readsSp_iff, ← sourceOperand_eq_iff]
  constructor
  · intro reads
    have first := reads.Rn
    rw [leaves] at first
    exact Option.some.inj first
  · intro right
    refine ⟨by rw [leaves, ← right]; rfl, fun member => ?_⟩
    have plain : sourceOperand (Rm word) = architecturalSource false (Rm word) :=
      sourceOperand_eq_iff.mpr fun both => absurd both.1 (by decide)
    rw [HasRm, found, Option.some.injEq, Option.some.injEq] at member
    rw [leaves, List.getElem?_cons_succ, second member, plain]

theorem resolves_readsSources_iff {instr : Instruction} {pool : ImlPool}
    (found : dataClass word = some kind)
    (resolves : instr.Resolves pool (classForm kind word)) :
    instr.ReadsSources pool word ↔ ¬ (AddSubImmediate word ∧ Rn word = 31) := by
  obtain ⟨expr, _, formula, _⟩ := classForm_leaves kind word
  rw [← classForm_readsSources_iff found formula]
  constructor
  · intro reads
    obtain ⟨form, other, again, same, sources⟩ := reads
    cases resolves.unique again
    cases formula.symm.trans same
    exact sources
  · intro sources
    exact ⟨_, expr, resolves, formula, sources⟩

/-- Whatever is decoded reads its sources but for SP, and where an operand was lost. -/
theorem decoded_readsSources_iff {env : Environment} {before after : Machine} {arena : Arena}
    {result : DecodeResult} {planned : Plan} (models : before.Models arena) (allocated : Allocated word)
    (planning : plan word = some planned) (run : Returns (decode env word) before result after) :
    result.instr.ReadsSources after.program.imlPool word ↔
      planned.tree.supplied env arena = true ∧ ¬ (AddSubImmediate word ∧ Rn word = 31) := by
  obtain ⟨_, kind, again, found, form⟩ := allocated_plan allocated
  cases planning.symm.trans again
  obtain ⟨_, again, building⟩ := decode_returns.mp run
  cases planning.symm.trans again
  have reads_iff (supplied : planned.tree.supplied env arena = true) :
      result.instr.ReadsSources after.program.imlPool word ↔ ¬ (AddSubImmediate word ∧ Rn word = 31) :=
    resolves_readsSources_iff found (Plan.build_resolves_supplied models building form supplied)
  constructor
  · intro reads
    have sources := reads
    obtain ⟨_, _, resolves, formula, _⟩ := sources
    have supplied := Plan.build_supplied models building resolves formula
    exact ⟨supplied, (reads_iff supplied).mp reads⟩
  · intro both
    exact (reads_iff both.1).mpr both.2

end Sources

/-- Register 31 is read as the class says, but for the stack pointer: an addition or
subtraction of an immediate to SP gets the constant 0. -/
theorem decode_readsSources_iff (env : Environment) (word : U32) (before : Machine) (arena : Arena)
    (models : before.Models arena) (allocated : Allocated word) :
    ∃ planned, plan word = some planned ∧
      ((∀ count, env.calloc count = true) → arena.Fits planned.tree.requests →
        ∃ result after, Returns (decode env word) before result after) ∧
      ∀ result after, Returns (decode env word) before result after →
        (result.instr.ReadsSources after.program.imlPool word ↔
          planned.tree.supplied env arena = true ∧ ¬ (AddSubImmediate word ∧ Rn word = 31)) := by
  obtain ⟨planned, _, planning, _, _⟩ := allocated_plan allocated
  exact ⟨planned, planning, fun memory => decode_fits memory models planning,
    fun _ _ run => decoded_readsSources_iff models allocated planning run⟩

/-- `orr x0, xzr, x1` -/
theorem decode_readsSources_iff_orr : ∃ result after,
    Returns (decode .calm 0xAA0103E0) (.initial .calm [] 0) result after ∧
      result.instr.ReadsSources after.program.imlPool 0xAA0103E0 := by
  obtain ⟨planned, planning, returns, reads⟩ :=
    decode_readsSources_iff .calm 0xAA0103E0 (.initial .calm [] 0) (.initial 0) calm_models (by decide)
  cases planning
  obtain ⟨result, after, run⟩ := returns (fun _ => rfl)
    (show SizesFit 0 0 ((planLogicalShift 0xAA0103E0).tree.requests.map some) by decide)
  exact ⟨result, after, run, (reads result after run).mpr (by decide)⟩

/-- `sub sp, sp, #0x16` reads 0 instead of SP. -/
theorem decode_loses_sp : ∃ result after,
    Returns (decode .calm 0xD1005BFF) (.initial .calm [] 0) result after ∧
      ¬ result.instr.ReadsSources after.program.imlPool 0xD1005BFF := by
  obtain ⟨result, after, building⟩ :=
    calm_build_returns (show SizesFit 0 0 ((planAddsubImm 0xD1005BFF).tree.requests.map some) by decide)
  have run : Returns (decode .calm 0xD1005BFF) (.initial .calm [] 0) result after :=
    decode_returns.mpr ⟨_, rfl, building⟩
  refine ⟨result, after, run, fun reads => ?_⟩
  exact ((decoded_readsSources_iff calm_models (by decide) rfl run).mp reads).2 (by decide)

end Koshka.Iml
