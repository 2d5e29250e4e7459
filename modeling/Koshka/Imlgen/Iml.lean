import Koshka.Boolset
import Koshka.Pool
import Koshka.Data.Command
import Koshka.Data.Objects

namespace Koshka.Iml

open Data

inductive MathOp where
  | add | sub | mul | div
  | lsl | lsr | asl | asr
  | rol | ror
  | and | or | xor | neg
  | bitfieldMov | bitfieldMovSigned | bitfieldMovUnsigned
deriving Repr, DecidableEq

def MathOp.value (op : MathOp) : Nat := op.ctorIdx

def shiftTypeTable (index : BitVec 2) : MathOp :=
  match index with
  | 0b00 => .lsl
  | 0b01 => .lsr
  | 0b10 => .asr
  | 0b11 => .ror

/-- Maps the `opc` field to an operation, for bitwise instructions. -/
def bitwiseOpTable (index : BitVec 2) : MathOp :=
  match index with
  | 0b00 => .and
  | 0b01 => .or
  | 0b10 => .xor
  | 0b11 => .and

inductive OperandType where
  | immediate
  | register
deriving Repr, DecidableEq

/-- A union holds the member that was written last. -/
inductive OperandUnion where
  | reg (id : U8)
  | imm (value : U64)
deriving Repr, DecidableEq

structure Operand where
  type : OperandType
  payload : OperandUnion
deriving Repr, DecidableEq

abbrev ExpressionHandle := PoolHandle

structure ExprOp where
  op : MathOp
  signedOp : Bool
  carry : Bool
  left : ExpressionHandle
  right : ExpressionHandle
deriving Repr, DecidableEq

inductive ExpressionUnion where
  | expr (node : ExprOp)
  | value (operand : Operand)
deriving Repr, DecidableEq

structure Expression where
  isValue : Bool
  payload : ExpressionUnion
deriving Repr, DecidableEq

/-- `expression()`: every byte is zero. -/
def Expression.blank : Expression where
  isValue := false
  payload := .expr { op := .add, signedOp := false, carry := false, left := 0, right := 0 }

structure InstrMath where
  destRegister : U8
  setFlags : Bool
  expr : Expression
deriving Repr, DecidableEq

inductive BranchHint where
  | call | exceptionReturn | debugExit | return | jump | exception | unknown
deriving Repr, DecidableEq

structure InstrBranch where
  conditional : Bool
  link : Bool
  dest : Operand
  hint : BranchHint
deriving Repr, DecidableEq

inductive Variant where
  | math
  | loadStore
  | branch
deriving Repr, DecidableEq

def registerZero : U64 := maxValForSize 5

inductive InstructionUnion where
  | math (math : InstrMath)
  | branch (branch : InstrBranch)
deriving Repr, DecidableEq

structure Instruction where
  var : Variant
  payload : InstructionUnion
  is64bit : Bool
  touchedNegativeFlag : Bool
  touchedZeroFlag : Bool
  touchedCarryFlag : Bool
  touchedOverflowFlag : Bool
  next : PoolHandle
deriving Repr, DecidableEq

/-- `(instruction){}`: every byte is zero, and the first variant is `VARIANT_MATH`. -/
def Instruction.blank : Instruction where
  var := .math
  payload := .math { destRegister := 0, setFlags := false, expr := .blank }
  is64bit := false
  touchedNegativeFlag := false
  touchedZeroFlag := false
  touchedCarryFlag := false
  touchedOverflowFlag := false
  next := 0

inductive Stored where
  | expression (expr : Expression)
  | instruction (instr : Instruction)
deriving Repr, DecidableEq

/-- `sizeof(expression)` and `sizeof(instruction)`. -/
def Stored.size : Stored → Nat
  | .expression _ => 24
  | .instruction _ => 48

abbrev ImlPool := Pool (Cell Stored)

def expressionAt (pool : ImlPool) (handle : PoolHandle) : Option Expression :=
  match readObject Stored.size (poolGetdata pool handle) with
  | some (.expression expr) => some expr
  | _ => none

def instructionAt (pool : ImlPool) (handle : PoolHandle) : Option Instruction :=
  match readObject Stored.size (poolGetdata pool handle) with
  | some (.instruction instr) => some instr
  | _ => none

structure Program where
  imlPool : ImlPool
  armPool : Pool U8
  entryPoint : PoolHandle
  decodedInstrs : Boolset
deriving Repr, DecidableEq

/-- What a run depends on beside its arguments: the answers of `calloc`, and the tag that a slot of the
stack had before an operator was made in it.  No other byte of the slot has a place in the model. -/
structure Environment where
  calloc : Nat → Bool
  stale : Nat → Bool

/-- Memory is never short, and the stack holds zeros. -/
def Environment.calm : Environment where
  calloc _ := true
  stale _ := false

inductive Event where
  | called (pos : PoolHandle)
  | returned (pos : PoolHandle) (handle : PoolHandle)
deriving Repr, DecidableEq

/-- A machine counts the answers and the slots that were used, and records the calls of the recursion. -/
structure Machine where
  program : Program
  callocs : Nat
  slots : Nat
  trace : List Event
deriving Repr, DecidableEq

abbrev Run := Command Machine Fault

def pushStored (env : Environment) (object : Stored) : Run PoolHandle := do
  let machine ← get
  let (handle, pool) ← poolPush (env.calloc machine.callocs) machine.program.imlPool
    (image Stored.size object) (BitVec.ofNat 32 object.size) 0
  set { machine with
    program := { machine.program with imlPool := pool }
    callocs := machine.callocs + 1 }
  return handle

def record (event : Event) : Run Unit :=
  modify fun machine => { machine with trace := machine.trace ++ [event] }

/-- The constructor for final values. -/
def valueExpression (type : OperandType) (val : U64) (forceRegister : Bool) : Expression where
  isValue := true
  payload := .value <|
    match type with
    | .register =>
        if val = registerZero ∧ forceRegister = false then { type := .immediate, payload := .imm 0 }
        else { type := .register, payload := .reg (val.setWidth 8) }
    | .immediate => { type := .immediate, payload := .imm val }

/-- The constructor for operations.  It never writes `is_value`, which keeps what the
slot of the new expression held. -/
def operatorExpression (env : Environment) (left : Expression) (op : MathOp) (right : Expression)
    (carry : Bool) : Run Expression := do
  let leftHandle ← pushStored env (.expression left)
  let rightHandle ← pushStored env (.expression right)
  let machine ← get
  set { machine with slots := machine.slots + 1 }
  return {
    isValue := env.stale machine.slots
    payload := .expr { op, signedOp := false, carry, left := leftHandle, right := rightHandle } }

end Koshka.Iml
