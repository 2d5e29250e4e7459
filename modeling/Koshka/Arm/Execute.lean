import Koshka.ArmAsl
import Koshka.Arm.Encoding

namespace Koshka.Arm

/-! What the four data-processing classes do on a CPU.

This is the architecture's side: it is not part of the program, which has no meaning
for its IML yet.
-/

structure Flags where
  n : Bool
  z : Bool
  c : Bool
  v : Bool
deriving Repr, DecidableEq

/-- The general registers, with SP as number 31, and the flags. -/
structure Cpu where
  registers : BitVec 5 → U64
  flags : Flags

/-- Number 31 names SP or the zero register, as the instruction has it. -/
def Cpu.read (cpu : Cpu) (sp : Bool) (number : BitVec 5) : U64 :=
  if number = 31 ∧ sp = false then 0 else cpu.registers number

def Cpu.write (cpu : Cpu) (sp : Bool) (number : BitVec 5) (value : U64) : Cpu :=
  if number = 31 ∧ sp = false then cpu
  else { cpu with registers := fun other => if other = number then value else cpu.registers other }

section Operations

variable {width : Nat}

def addWithCarry (x y : BitVec width) (carryIn : Bool) : BitVec width × Flags :=
  let unsignedSum : Nat := x.toNat + y.toNat + carryIn.toNat
  let signedSum : Int := x.toInt + y.toInt + carryIn.toNat
  let result := BitVec.ofNat width unsignedSum
  (result, {
    n := result.msb
    z := result = 0
    c := result.toNat ≠ unsignedSum
    v := result.toInt ≠ signedSum })

def shiftReg (value : BitVec width) (type : BitVec 2) (amount : Nat) : BitVec width :=
  match type with
  | 0b00 => value <<< amount
  | 0b01 => value >>> amount
  | 0b10 => value.sshiftRight amount
  | 0b11 => value.rotateRight amount

/-- `ADD`, `ADDS`, `SUB` and `SUBS`.  A 32-bit result clears the upper half. -/
def Cpu.addSub (cpu : Cpu) (word : U32) (sourceSp destSp : Bool) (operand2 : BitVec width) : Cpu :=
  let operand1 := (cpu.read sourceSp (Rn word)).setWidth width
  let sum :=
    if op word then addWithCarry operand1 (~~~operand2) true
    else addWithCarry operand1 operand2 false
  let flagged := if S word then { cpu with flags := sum.2 } else cpu
  flagged.write destSp (Rd word) (sum.1.setWidth 64)

def bitwise (opc : BitVec 2) (x y : BitVec width) : BitVec width :=
  match opc with
  | 0b00 => x &&& y
  | 0b01 => x ||| y
  | 0b10 => x ^^^ y
  | 0b11 => x &&& y

/-- `AND`, `ORR`, `EOR`, `ANDS` and their variants with an inverted operand. -/
def Cpu.logical (cpu : Cpu) (word : U32) (destSp : Bool) (operand2 : BitVec width) : Cpu :=
  let result := bitwise (opc word) ((cpu.read false (Rn word)).setWidth width) operand2
  let flagged :=
    if opc word = 3 then
      { cpu with flags := { n := result.msb, z := result = 0, c := false, v := false } }
    else cpu
  flagged.write destSp (Rd word) (result.setWidth 64)

end Operations

def datasize (word : U32) : Nat := if sf word then 64 else 32

def immediateOperand (word : U32) (width : Nat) : BitVec width :=
  if shift word = 1 then (imm12 word).setWidth width <<< 12 else (imm12 word).setWidth width

def shiftedSource (cpu : Cpu) (word : U32) (width : Nat) : BitVec width :=
  shiftReg ((cpu.read false (Rm word)).setWidth width) (shift word) (imm6 word).toNat

def invertedSource (cpu : Cpu) (word : U32) (width : Nat) : BitVec width :=
  if N word then ~~~ shiftedSource cpu word width else shiftedSource cpu word width

def addSubImmediate (cpu : Cpu) (word : U32) : Cpu :=
  cpu.addSub word true (!S word) (immediateOperand word (datasize word))

def logicalImmediate (cpu : Cpu) (word : U32) : Cpu :=
  cpu.logical word (opc word ≠ 3) ((mask (immN word) (imms word) (immr word)).setWidth (datasize word))

def logicalShifted (cpu : Cpu) (word : U32) : Cpu :=
  cpu.logical word false (invertedSource cpu word (datasize word))

def addSubShifted (cpu : Cpu) (word : U32) : Cpu :=
  cpu.addSub word false false (shiftedSource cpu word (datasize word))

inductive DataClass where
  | addSubImmediate
  | logicalImmediate
  | logicalShifted
  | addSubShifted
deriving Repr, DecidableEq

def dataClass (word : U32) : Option DataClass :=
  if AddSubImmediate word then some .addSubImmediate
  else if LogicalImmediate word then some .logicalImmediate
  else if LogicalShifted word then some .logicalShifted
  else if AddSubShifted word then some .addSubShifted
  else none

def DataClass.Member (word : U32) : DataClass → Prop
  | .addSubImmediate => AddSubImmediate word
  | .logicalImmediate => LogicalImmediate word
  | .logicalShifted => LogicalShifted word
  | .addSubShifted => AddSubShifted word

/-- No word is of two classes. -/
theorem dataClass_eq_some {word : U32} {kind : DataClass} :
    dataClass word = some kind ↔ kind.Member word := by
  have immediate := @addSubImmediate_iff word
  have logicalImmediate := @logicalImmediate_iff word
  have logical := @logicalShifted_iff word
  have shifted := @addSubShifted_iff word
  unfold dataClass
  cases kind <;> simp only [DataClass.Member] <;> grind

/-- The words of the four classes that the architecture defines. -/
def Allocated (word : U32) : Prop :=
  (dataClass word = some .addSubImmediate ∧ (shift word = 0 ∨ shift word = 1)) ∨
  (dataClass word = some .logicalImmediate ∧
    (sf word = false → immN word = false) ∧ ¬ MaskReserved (immN word) (imms word)) ∨
  (dataClass word = some .logicalShifted ∧ (sf word = false → (imm6 word).getLsbD 5 = false)) ∨
  (dataClass word = some .addSubShifted ∧ shift word ≠ 3 ∧
    (sf word = false → (imm6 word).getLsbD 5 = false))

instance (word : U32) : Decidable (Allocated word) := inferInstanceAs (Decidable (_ ∨ _))

/-- Words of other classes are left out: they change nothing here. -/
def execute (word : U32) (cpu : Cpu) : Cpu :=
  match dataClass word with
  | some .addSubImmediate => addSubImmediate cpu word
  | some .logicalImmediate => logicalImmediate cpu word
  | some .logicalShifted => logicalShifted cpu word
  | some .addSubShifted => addSubShifted cpu word
  | none => cpu

def SameEffect (one two : U32) : Prop := ∀ cpu, execute one cpu = execute two cpu

end Koshka.Arm
