import Koshka.Arm.Effect
import Koshka.Imlgen.Capacity

namespace Koshka.Iml

open Data Arm

/-! The values of expressions, in the registers of a CPU.

Nothing in the repository computes with the IML yet.  The enumerators are read as their
comments have it; the ones that no decoder uses get no value.
-/

def MathOp.eval {width : Nat} (op : MathOp) (left right : BitVec width) : Option (BitVec width) :=
  match op with
  | .add => some (left + right)
  | .sub => some (left - right)
  | .lsl => some (left <<< right.toNat)
  | .lsr => some (left >>> right.toNat)
  | .asr => some (left.sshiftRight right.toNat)
  | .ror => some (left.rotateRight right.toNat)
  | .and => some (left &&& right)
  | .or => some (left ||| right)
  | .xor => some (left ^^^ right)
  | .mul | .div | .asl | .rol | .neg | .bitfieldMov | .bitfieldMovSigned | .bitfieldMovUnsigned => none

def Operand.eval (width : Nat) (cpu : Cpu) (operand : Operand) : Option (BitVec width) :=
  match operand.type, operand.payload with
  | .register, .reg id => some ((cpu.read false (id.setWidth 5)).setWidth width)
  | .immediate, .imm value => some (value.setWidth width)
  | _, _ => none

/-- A negation is the bitwise complement.  No decoder sets `signed_op` or `carry`. -/
def Resolved.eval (width : Nat) (cpu : Cpu) : Resolved → Option (BitVec width)
  | .value operand => operand.eval width cpu
  | .negation _ _ operand => (operand.eval width cpu).map (~~~ ·)
  | .operation op _ _ left right => do
      let left ← left.eval width cpu
      let right ← right.eval width cpu
      op.eval left right

/-- The value that the instruction gives its destination, at the width it works at. -/
def Instruction.Evaluates {width : Nat} (pool : ImlPool) (instr : Instruction) (cpu : Cpu)
    (value : BitVec width) : Prop :=
  (if instr.is64bit then 64 else 32) = width ∧ ∃ form expr, instr.Resolves pool form ∧
    form.expr = some expr ∧ expr.eval width cpu = some value

/-- The instruction writes the meaning, a function of the registers, to the given one. -/
structure Instruction.Means {width : Nat} (pool : ImlPool) (instr : Instruction) (destRegister : U8)
    (setFlags : Bool) (meaning : Cpu → BitVec width) : Prop where
  evaluates : ∀ cpu, instr.Evaluates pool cpu (meaning cpu)
  record : instr.var = .math ∧ ∃ expr, instr.payload = .math { destRegister, setFlags, expr }

section Operands

variable {width : Nat} {cpu : Cpu} {word : U32}

theorem sourceOperand_eval (register : BitVec 5) :
    (sourceOperand register).eval width cpu = some ((cpu.read false register).setWidth width) := by
  unfold sourceOperand
  split
  · rename_i zero
    rw [zero, Cpu.read_zero]
    rfl
  · have back : (register.setWidth 8).setWidth 5 = register := by
      rw [BitVec.setWidth_setWidth_of_le _ (by decide), BitVec.setWidth_eq]
    simp only [Operand.eval, back]

theorem constant_eval {size : Nat} (value : BitVec size) (short : width ≤ 64) :
    (Resolved.value { type := .immediate, payload := .imm (value.setWidth 64) }).eval width cpu =
      some (value.setWidth width) := by
  simp only [Resolved.eval, Operand.eval, Option.some.injEq]
  exact BitVec.setWidth_setWidth (by omega)

theorem shiftTypeTable_eval (value amount : BitVec width) (index : BitVec 2) :
    (shiftTypeTable index).eval value amount = some (shiftReg value index amount.toNat) := by
  have cases_ : ∀ index : BitVec 2, index = 0 ∨ index = 1 ∨ index = 2 ∨ index = 3 := by decide
  rcases cases_ index with same | same | same | same <;> rw [same] <;> rfl

theorem bitwiseOpTable_eval (left right : BitVec width) (index : BitVec 2) :
    (bitwiseOpTable index).eval left right = some (bitwise index left right) := by
  have cases_ : ∀ index : BitVec 2, index = 0 ∨ index = 1 ∨ index = 2 ∨ index = 3 := by decide
  rcases cases_ index with same | same | same | same <;> rw [same] <;> rfl

theorem shiftedOperand_eval (enough : 6 ≤ width) (short : width ≤ 64) :
    (shiftedOperand word).eval width cpu = some (shiftedSource cpu word width) := by
  unfold shiftedOperand shiftedSource
  split
  · have amount : ((imm6 word).setWidth width).toNat = (imm6 word).toNat :=
      BitVec.toNat_setWidth_of_le enough
    rw [Resolved.eval, Resolved.eval, sourceOperand_eval, constant_eval _ short]
    simp only [Option.bind_eq_bind, Option.bind_some, shiftTypeTable_eval, amount]
  · rename_i none
    have zero : (imm6 word).toNat = 0 := Nat.eq_zero_of_not_pos none
    rw [zero, shiftReg_none]
    exact sourceOperand_eval _

theorem logicalShiftOperand_eval (enough : 6 ≤ width) (short : width ≤ 64) :
    (logicalShiftOperand word).eval width cpu = some (invertedSource cpu word width) := by
  unfold logicalShiftOperand invertedSource
  split
  · rw [Resolved.eval, shiftedOperand_eval enough short]
    rfl
  · exact shiftedOperand_eval enough short

theorem addsubImmOperand_eval (enough : 12 ≤ width) (short : width ≤ 64) :
    (addsubImmOperand word).eval width cpu = some (immediateOperand word width) := by
  unfold addsubImmOperand immediateOperand
  split
  · have twelve : ((12 : BitVec 6).setWidth width).toNat = 12 :=
      BitVec.toNat_setWidth_of_le (by omega)
    have amount : (Resolved.value { type := .immediate, payload := .imm 12 }).eval width cpu =
        some ((12 : BitVec 6).setWidth width) := constant_eval (12 : BitVec 6) short
    rw [Resolved.eval, constant_eval _ short, amount]
    simp only [Option.bind_eq_bind, Option.bind_some, MathOp.eval, twelve]
  · exact constant_eval _ short

end Operands

section Means

variable {env : Environment} {before after : Machine} {arena : Arena} {planned : Plan} {result : DecodeResult}
  {word : U32} {pool : ImlPool} {instr : Instruction} {op : MathOp} {setFlags touchedFlags : Bool}
  {second : Resolved}

theorem Plan.build_resolves_supplied {resolved : ResolvedInstruction} (models : before.Models arena)
    (building : Returns (planned.build env) before result after) (form : planned.resolved = some resolved)
    (supplied : planned.tree.supplied env arena = true) :
    result.instr.Resolves after.program.imlPool resolved := by
  obtain ⟨built, models, _⟩ := Plan.build_models models building
  rw [built]
  exact Plan.supplied_resolves models (.of_extends (List.prefix_refl _)) form supplied _

theorem Plan.build_supplied {form : ResolvedInstruction} {expr : Resolved} (models : before.Models arena)
    (building : Returns (planned.build env) before result after)
    (resolves : result.instr.Resolves after.program.imlPool form) (formula : form.expr = some expr) :
    planned.tree.supplied env arena = true := by
  obtain ⟨built, models, _⟩ := Plan.build_models models building
  rw [built] at resolves
  exact Plan.supplied_of_resolves models (.of_extends (List.prefix_refl _)) resolves formula

/-- What was built with an operand lost has no meaning. -/
theorem Instruction.Means.supplied {width : Nat} {destRegister : U8} {meaning : Cpu → BitVec width}
    (means : result.instr.Means after.program.imlPool destRegister setFlags meaning)
    (models : before.Models arena) (building : Returns (planned.build env) before result after) :
    planned.tree.supplied env arena = true := by
  obtain ⟨_, form, expr, resolves, formula, _⟩ := means.evaluates (.filled 0)
  exact Plan.build_supplied models building resolves formula

/-- Where no operand is lost, the form decides what was built. -/
theorem Plan.build_means_iff {width : Nat} {destRegister : U8} {meaning : Cpu → BitVec width}
    {form : ResolvedInstruction} {condition : Prop} (models : before.Models arena)
    (building : Returns (planned.build env) before result after) (shape : planned.resolved = some form)
    (means_iff : result.instr.Resolves after.program.imlPool form →
      (result.instr.Means after.program.imlPool destRegister setFlags meaning ↔ condition)) :
    result.instr.Means after.program.imlPool destRegister setFlags meaning ↔
      planned.tree.supplied env arena = true ∧ condition := by
  constructor
  · intro means
    have supplied := means.supplied models building
    exact ⟨supplied, (means_iff (Plan.build_resolves_supplied models building shape supplied)).mp means⟩
  · intro both
    obtain ⟨supplied, holds⟩ := both
    exact (means_iff (Plan.build_resolves_supplied models building shape supplied)).mpr holds

theorem Instruction.Resolves.math_record {form : ResolvedInstruction} {expr : Resolved}
    (resolves : instr.Resolves pool form) (formula : form.expr = some expr) :
    instr.record = form.record ∧ ∃ math, instr.payload = .math math := by
  cases resolves with
  | math payload _ => exact ⟨rfl, _, payload⟩
  | branch payload => cases formula

/-- What an instruction of a data-processing class keeps of its form beside the expression. -/
theorem Instruction.Resolves.ofMath_record
    (resolves : instr.Resolves pool (.ofMath word op setFlags touchedFlags second)) :
    instr.is64bit = sf word ∧
      (instr.var = .math ∧
        ∃ expr, instr.payload = .math { destRegister := (Rd word).setWidth 8, setFlags, expr }) ∧
      (instr.touchedNegativeFlag = touchedFlags ∧ instr.touchedZeroFlag = touchedFlags ∧
        instr.touchedCarryFlag = touchedFlags ∧ instr.touchedOverflowFlag = touchedFlags) := by
  obtain ⟨record, math, payload⟩ := resolves.math_record rfl
  simp only [Instruction.record, Instruction.withExpr, payload, ResolvedInstruction.ofMath,
    Instruction.ofMath, Instruction.mk.injEq, InstructionUnion.math.injEq, InstrMath.mk.injEq] at record
  obtain ⟨var, ⟨dest, flags, _⟩, wide, negative, zero, carry, overflow, _⟩ := record
  refine ⟨wide, ⟨var, math.expr, ?_⟩, negative, zero, carry, overflow⟩
  rw [payload, ← dest, ← flags]

theorem datasize_bounds (word : U32) : 12 ≤ datasize word ∧ datasize word ≤ 64 := by
  rcases datasize_cases word with size | size <;> omega

/-- An instruction of a data-processing class means its operation on the two operands. -/
theorem Instruction.Resolves.means_iff {meaning : Cpu → BitVec (datasize word)}
    (resolves : instr.Resolves pool (.ofMath word op setFlags touchedFlags second)) :
    instr.Means pool ((Rd word).setWidth 8) setFlags meaning ↔ ∀ cpu : Cpu,
      (second.eval (datasize word) cpu).bind
        (op.eval ((cpu.read false (Rn word)).setWidth (datasize word))) = some (meaning cpu) := by
  obtain ⟨wide, record, _⟩ := resolves.ofMath_record
  have width : (if instr.is64bit then 64 else 32) = datasize word := by
    rw [wide]
    rfl
  have expression (cpu : Cpu) :
      (Resolved.operation op false false (.value (sourceOperand (Rn word))) second).eval (datasize word) cpu =
        (second.eval (datasize word) cpu).bind
          (op.eval ((cpu.read false (Rn word)).setWidth (datasize word))) := by
    rw [Resolved.eval, Resolved.eval, sourceOperand_eval]
    rfl
  refine ⟨fun means cpu => ?_, fun same => ⟨fun cpu => ⟨width, _, _, resolves, rfl, ?_⟩, record⟩⟩
  · obtain ⟨_, form, expr, again, formula, value⟩ := means.evaluates cpu
    cases resolves.unique again
    cases formula
    rw [← expression, value]
  · rw [expression, same]

end Means

end Koshka.Iml
