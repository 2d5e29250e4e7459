import Koshka.Bitmanip

namespace Koshka.Iml

inductive L1Page where
  | unallocated | dataImm | branch | ldStr | dataReg | dataSimd
deriving Repr, DecidableEq

inductive L2DataImmPage where
  | unallocated | pcRelAddr | addsubImm | logicalImm | movWide | bitfield | extract
deriving Repr, DecidableEq

inductive L2BranchPage where
  | conditional | exception | system | unconditionalReg | unconditionalImm | compare | test | unallocated
deriving Repr, DecidableEq

inductive L2DataRegPage where
  | threeSources | twoSources | oneSource
  | logicalShift
  | addsubShift | addsubExtend | addsubCarry
  | condCompReg | condCompImm
  | condSel
  | unallocated
deriving Repr, DecidableEq

structure ArmPageEntry (page : Type) where
  mask : U32
  pattern : U32
  group : page

structure ArmDoublePageEntry (page : Type) where
  mask1 : U32
  pattern1 : U32
  mask2 : U32
  pattern2 : U32
  group : page

/-- The lookup loop that the tables share; a field is a `u8` that is widened to be masked. -/
def findPage {page : Type} (table : List (ArmPageEntry page)) (op0 : U8) (otherwise : page) : page :=
  match table.find? fun entry => op0.setWidth 32 &&& entry.mask = entry.pattern with
  | some entry => entry.group
  | none => otherwise

def findDoublePage {page : Type} (table : List (ArmDoublePageEntry page)) (op0 op1 : U8)
    (otherwise : page) : page :=
  match table.find? fun entry =>
    op0.setWidth 32 &&& entry.mask1 = entry.pattern1 ∧
      op1.setWidth 32 &&& entry.mask2 = entry.pattern2 with
  | some entry => entry.group
  | none => otherwise

def topInstrPagetable : List (ArmPageEntry L1Page) := [
  ⟨0b1110, 0b1000, .dataImm⟩,
  ⟨0b1110, 0b1010, .branch⟩,
  ⟨0b0101, 0b0100, .ldStr⟩,
  ⟨0b0111, 0b0101, .dataReg⟩,
  ⟨0b1111, 0b0111, .dataSimd⟩,
  ⟨0b1111, 0b1111, .dataSimd⟩]

def instrGetGroup (instr : U32) : L1Page :=
  findPage topInstrPagetable ((getBitRegion instr 25 29).setWidth 8) .unallocated

def dataImmPagetable : List (ArmPageEntry L2DataImmPage) := [
  ⟨0b110, 0b000, .pcRelAddr⟩,
  ⟨0b110, 0b010, .addsubImm⟩,
  ⟨0b111, 0b100, .logicalImm⟩,
  ⟨0b111, 0b101, .movWide⟩,
  ⟨0b111, 0b110, .bitfield⟩,
  ⟨0b111, 0b111, .extract⟩]

def dataImmGetGroup (instr : U32) : L2DataImmPage :=
  findPage dataImmPagetable ((getBitRegion instr 23 25).setWidth 8) .unallocated

def branchPagetable : List (ArmDoublePageEntry L2BranchPage) := [
  ⟨0b111, 0b010, 0b1000, 0b0000, .conditional⟩,
  ⟨0b111, 0b110, 0b1100, 0b0000, .exception⟩,
  ⟨0b111, 0b110, 0b1111, 0b0100, .system⟩,
  ⟨0b111, 0b110, 0b1000, 0b1000, .unconditionalReg⟩,
  ⟨0b011, 0b000, 0b0000, 0b0000, .unconditionalImm⟩,
  ⟨0b011, 0b001, 0b1000, 0b0000, .compare⟩,
  ⟨0b011, 0b001, 0b1000, 0b1000, .test⟩]

def branchGetGroup (instr : U32) : L2BranchPage :=
  findDoublePage branchPagetable ((getBitRegion instr 29 31).setWidth 8)
    ((getBitRegion instr 22 25).setWidth 8) .unallocated

def dataRegGetGroup (instr : U32) : L2DataRegPage :=
  let op0 : U8 := (getSingleBit instr 30).setWidth 8
  let op1 : U8 := (getSingleBit instr 28).setWidth 8
  let op2 : U8 := (getBitRegion instr 21 24).setWidth 8
  let op3 : U8 := (getSingleBit instr 11).setWidth 8
  if op1 = 0 ∧ getSingleBit op2 3 = 0 then .logicalShift
  else if op1 = 0 ∧ op2 &&& 0b1001 = 0b1000 then .addsubShift
  else if op1 = 0 ∧ op2 &&& 0b1001 = 0b1001 then .addsubExtend
  else if op1 = 1 ∧ op2 = 0b0000 then .addsubCarry
  else if op1 = 1 ∧ op2 = 0b0010 then if op3 ≠ 0 then .condCompImm else .condCompReg
  else if op1 = 1 ∧ op2 = 0b0100 then .condSel
  else if op1 = 1 ∧ op2 = 0b0110 then if op0 = 0 then .twoSources else .oneSource
  else if op1 = 1 ∧ op2 &&& 0b1000 = 0b1000 then .threeSources
  else .unallocated

end Koshka.Iml
