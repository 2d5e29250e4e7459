import Koshka.ArmAsl
import Koshka.Imlgen.ArmEncoding
import Koshka.Imlgen.Iml

namespace Koshka.Iml

open Data

structure DecodeResult where
  instr : Instruction
deriving Repr, DecidableEq

def DecodeResult.blank : DecodeResult := { instr := .blank }

/-- A branch with everything but its destination's type still zero. -/
def Instruction.blankBranch (type : OperandType) : Instruction :=
  { Instruction.blank with
    var := .branch
    payload := .branch {
      conditional := false
      link := false
      dest := { type, payload := .reg 0 }
      hint := .call } }

def decodeBranchUnconditional (instr : U32) (branchType : L2BranchPage) : DecodeResult :=
  let toRegister := branchType = .unconditionalReg
  if toRegister then
    let opc : U8 := (getBitRegion instr 21 24).setWidth 8
    if opc = 0b0100 then { instr := .blankBranch .register } -- Exception return
    else if opc = 0b0101 then { instr := .blankBranch .register } -- Debug restore process state
    else
      let dest : Operand := { type := .register, payload := .reg ((getBitRegion instr 5 9).setWidth 8) }
      let branch (link : Bool) (hint : BranchHint) : DecodeResult :=
        { instr := { Instruction.blankBranch .register with
          payload := .branch { conditional := false, link, dest, hint } } }
      if opc = 0b0000 then branch false .jump -- BR
      else if opc = 0b0001 then branch true .call -- BLR
      else if opc = 0b0010 then branch false .return -- RET
      else branch false .call
  else
    let link := asBool (getSingleBit instr 31)
    let hint := if link then BranchHint.call else BranchHint.jump
    let imm : U64 := (getBitRegion instr 0 25).setWidth 64
    let dest : Operand := { type := .immediate, payload := .imm imm }
    { instr := { Instruction.blankBranch .immediate with
      payload := .branch { conditional := false, link, dest, hint } } }

def decodeSystemExceptionBranch (instr : U32) : DecodeResult :=
  let branchType := branchGetGroup instr
  match branchType with
  | .unconditionalReg | .unconditionalImm => decodeBranchUnconditional instr branchType
  | .conditional | .compare | .test | .exception | .system | .unallocated => .blank

/-- Its fields reach log messages only. -/
def decodeMovw (_instr : U32) : DecodeResult := .blank

/-- The instruction record that the data-processing decoders share. -/
def Instruction.ofMath (destRegister : U8) (setFlags : Bool) (expr : Expression) (is64bit : Bool)
    (touchedFlags : Bool) : Instruction where
  var := .math
  payload := .math { destRegister, setFlags, expr }
  is64bit
  touchedNegativeFlag := touchedFlags
  touchedZeroFlag := touchedFlags
  touchedCarryFlag := touchedFlags
  touchedOverflowFlag := touchedFlags
  next := 0

section Decoders

variable (env : Environment)

/-- It leaves the four `touched_` flags out of its instruction. -/
def decodeAddsubImm (instr : U32) : Run DecodeResult := do
  let is64bit := asBool (getSingleBit instr 31)
  let op : U8 := (getSingleBit instr 30).setWidth 8
  let setFlags := asBool (getSingleBit instr 29)
  let shift : U8 := (getBitRegion instr 22 23).setWidth 8
  let imm : U32 := getBitRegion instr 10 21
  let Rn : U8 := (getBitRegion instr 5 9).setWidth 8
  let Rd : U8 := (getBitRegion instr 0 4).setWidth 8
  let exprReg := valueExpression .register (Rn.setWidth 64) false
  let exprImm := valueExpression .immediate (imm.setWidth 64) false
  let exprImm ←
    if shift = 0b01 then
      let exprShift := valueExpression .immediate 12 false
      operatorExpression env exprImm .lsl exprShift false
    else pure exprImm
  let operation := if op ≠ 0 then MathOp.add else MathOp.sub
  let expr ← operatorExpression env exprReg operation exprImm false
  return { instr := .ofMath Rd setFlags expr is64bit false }

def decodeLogicalImm (instr : U32) : Run DecodeResult := do
  let is64bit := asBool (getSingleBit instr 31)
  let op : U8 := (getBitRegion instr 29 30).setWidth 8
  let N : U8 := (getSingleBit instr 22).setWidth 8
  let immr : U32 := getBitRegion instr 16 21
  let imms : U32 := getBitRegion instr 10 15
  let Rn : U8 := (getBitRegion instr 5 9).setWidth 8
  let Rd : U8 := (getBitRegion instr 0 4).setWidth 8
  if !is64bit then
    assert (N = 0)
  let decoded ← decodeBitMasks (asBool N) (imms.setWidth 8) (immr.setWidth 8) true
  -- `imm_val` is a `u32`
  let immVal : U32 := decoded.setWidth 32
  let operation := bitwiseOpTable (op.setWidth 2)
  let setFlags := decide (op = 0b11)
  let exprReg := valueExpression .register (Rn.setWidth 64) false
  let exprImm := valueExpression .immediate (immVal.setWidth 64) false
  let expr ← operatorExpression env exprReg operation exprImm false
  return { instr := .ofMath Rd setFlags expr is64bit setFlags }

def decodeDataImm (instr : U32) : Run DecodeResult :=
  match dataImmGetGroup instr with
  | .movWide => pure (decodeMovw instr)
  | .addsubImm => decodeAddsubImm env instr
  | .logicalImm => decodeLogicalImm env instr
  | .pcRelAddr | .bitfield | .extract | .unallocated => pure .blank

def decodeDataRegLogicalShift (instr : U32) : Run DecodeResult := do
  let Rd : U8 := (getBitRegion instr 0 4).setWidth 8
  let Rn : U8 := (getBitRegion instr 5 9).setWidth 8
  let shiftLen : U8 := (getBitRegion instr 10 15).setWidth 8
  let Rm : U8 := (getBitRegion instr 16 20).setWidth 8
  let negate := asBool (getSingleBit instr 21)
  let shiftType := shiftTypeTable ((getBitRegion instr 22 23).setWidth 2)
  let bitwiseOp := bitwiseOpTable ((getBitRegion instr 29 30).setWidth 2)
  let is64bit := asBool (getSingleBit instr 31)
  let setFlags := decide (getBitRegion instr 29 30 = 0b11)
  if !is64bit then
    assert (getSingleBit shiftLen 5 = 0)
  let exprRn := valueExpression .register (Rn.setWidth 64) false
  let exprRm := valueExpression .register (Rm.setWidth 64) false
  let exprRm ←
    if 0 < shiftLen then
      operatorExpression env exprRm shiftType (valueExpression .immediate (shiftLen.setWidth 64) false) false
    else pure exprRm
  let exprRm ← if negate then operatorExpression env exprRm .neg .blank false else pure exprRm
  let expr ← operatorExpression env exprRn bitwiseOp exprRm false
  return { instr := .ofMath Rd setFlags expr is64bit setFlags }

def decodeDataRegAddsubShift (instr : U32) : Run DecodeResult := do
  let Rd : U8 := (getBitRegion instr 0 4).setWidth 8
  let Rn : U8 := (getBitRegion instr 5 9).setWidth 8
  let shiftLen : U8 := (getBitRegion instr 10 15).setWidth 8
  let Rm : U8 := (getBitRegion instr 16 20).setWidth 8
  let shiftType := shiftTypeTable ((getBitRegion instr 22 23).setWidth 2)
  let setFlags := asBool (getSingleBit instr 29)
  let op := asBool (getSingleBit instr 30)
  let is64bit := asBool (getSingleBit instr 31)
  -- the operation is compared, not the field it was looked up with
  assert (shiftType.value ≠ 0b11)
  if !is64bit then
    assert (getSingleBit shiftLen 5 = 0)
  let exprRn := valueExpression .register (Rn.setWidth 64) false
  let exprRm := valueExpression .register (Rm.setWidth 64) false
  let exprRm ←
    if 0 < shiftLen then
      operatorExpression env exprRm shiftType (valueExpression .immediate (shiftLen.setWidth 64) false) false
    else pure exprRm
  let expr ← operatorExpression env exprRn (if op then .add else .sub) exprRm false
  return { instr := .ofMath Rd setFlags expr is64bit setFlags }

def decodeDataReg (instr : U32) : Run DecodeResult :=
  match dataRegGetGroup instr with
  | .logicalShift => decodeDataRegLogicalShift env instr
  | .addsubShift => decodeDataRegAddsubShift env instr
  | .threeSources | .twoSources | .oneSource | .addsubExtend | .addsubCarry | .condCompReg
  | .condCompImm | .condSel | .unallocated => pure .blank

def decodeLoadStore (_instr : U32) : DecodeResult := .blank

def decode (instr : U32) : Run DecodeResult := do
  assert (instr ≠ 0)
  match instrGetGroup instr with
  | .branch => pure (decodeSystemExceptionBranch instr)
  | .dataImm => decodeDataImm env instr
  | .dataReg => decodeDataReg env instr
  | .ldStr => pure (decodeLoadStore instr)
  | .dataSimd | .unallocated => pure .blank

end Decoders

end Koshka.Iml
