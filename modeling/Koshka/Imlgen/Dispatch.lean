import Koshka.Arm.Encoding
import Koshka.Imlgen.Decode
import Mathlib.Tactic.Tauto

namespace Koshka.Iml

open Data Arm

section Fields

variable (instr : U32)

theorem getBitRegion_field {low high : Nat} (ordered : low ≤ high) (within : high < 32) :
    getBitRegion instr low high = (instr.extractLsb' low (high - low + 1)).setWidth 32 :=
  getBitRegion_eq instr ordered within

theorem asBool_bit (bit : Nat) : asBool (getSingleBit instr bit) = instr.getLsbD bit :=
  asBool_getSingleBit instr bit (by decide)

end Fields

section Pages

variable {instr : U32}

theorem instrGetGroup_dataImm : instrGetGroup instr = .dataImm ↔
    instr.getLsbD 28 = true ∧ instr.getLsbD 27 = false ∧ instr.getLsbD 26 = false := by
  have rows : ∀ op0 : BitVec 5,
      findPage topInstrPagetable ((op0.setWidth 32).setWidth 8) .unallocated = .dataImm ↔
        op0.getLsbD 3 = true ∧ op0.getLsbD 2 = false ∧ op0.getLsbD 1 = false := by decide
  rw [instrGetGroup, getBitRegion_field instr (by omega) (by omega)]
  simpa using rows (instr.extractLsb' 25 5)

theorem instrGetGroup_branch : instrGetGroup instr = .branch ↔
    instr.getLsbD 28 = true ∧ instr.getLsbD 27 = false ∧ instr.getLsbD 26 = true := by
  have rows : ∀ op0 : BitVec 5,
      findPage topInstrPagetable ((op0.setWidth 32).setWidth 8) .unallocated = .branch ↔
        op0.getLsbD 3 = true ∧ op0.getLsbD 2 = false ∧ op0.getLsbD 1 = true := by decide
  rw [instrGetGroup, getBitRegion_field instr (by omega) (by omega)]
  simpa using rows (instr.extractLsb' 25 5)

theorem instrGetGroup_dataReg : instrGetGroup instr = .dataReg ↔
    instr.getLsbD 27 = true ∧ instr.getLsbD 26 = false ∧ instr.getLsbD 25 = true := by
  have rows : ∀ op0 : BitVec 5,
      findPage topInstrPagetable ((op0.setWidth 32).setWidth 8) .unallocated = .dataReg ↔
        op0.getLsbD 2 = true ∧ op0.getLsbD 1 = false ∧ op0.getLsbD 0 = true := by decide
  rw [instrGetGroup, getBitRegion_field instr (by omega) (by omega)]
  simpa using rows (instr.extractLsb' 25 5)

theorem dataImmGetGroup_addsubImm : dataImmGetGroup instr = .addsubImm ↔
    instr.getLsbD 25 = false ∧ instr.getLsbD 24 = true := by
  have rows : ∀ op0 : BitVec 3,
      findPage dataImmPagetable ((op0.setWidth 32).setWidth 8) .unallocated = .addsubImm ↔
        op0.getLsbD 2 = false ∧ op0.getLsbD 1 = true := by decide
  rw [dataImmGetGroup, getBitRegion_field instr (by omega) (by omega)]
  simpa using rows (instr.extractLsb' 23 3)

theorem dataImmGetGroup_logicalImm : dataImmGetGroup instr = .logicalImm ↔
    instr.getLsbD 25 = true ∧ instr.getLsbD 24 = false ∧ instr.getLsbD 23 = false := by
  have rows : ∀ op0 : BitVec 3,
      findPage dataImmPagetable ((op0.setWidth 32).setWidth 8) .unallocated = .logicalImm ↔
        op0.getLsbD 2 = true ∧ op0.getLsbD 1 = false ∧ op0.getLsbD 0 = false := by decide
  rw [dataImmGetGroup, getBitRegion_field instr (by omega) (by omega)]
  simpa using rows (instr.extractLsb' 23 3)

theorem dataImmGetGroup_movWide : dataImmGetGroup instr = .movWide ↔
    instr.getLsbD 25 = true ∧ instr.getLsbD 24 = false ∧ instr.getLsbD 23 = true := by
  have rows : ∀ op0 : BitVec 3,
      findPage dataImmPagetable ((op0.setWidth 32).setWidth 8) .unallocated = .movWide ↔
        op0.getLsbD 2 = true ∧ op0.getLsbD 1 = false ∧ op0.getLsbD 0 = true := by decide
  rw [dataImmGetGroup, getBitRegion_field instr (by omega) (by omega)]
  simpa using rows (instr.extractLsb' 23 3)

theorem branchGetGroup_unconditionalImm : branchGetGroup instr = .unconditionalImm ↔
    instr.getLsbD 30 = false ∧ instr.getLsbD 29 = false := by
  have rows : ∀ (op0 : BitVec 3) (op1 : BitVec 4),
      findDoublePage branchPagetable ((op0.setWidth 32).setWidth 8) ((op1.setWidth 32).setWidth 8)
          .unallocated = .unconditionalImm ↔
        op0.getLsbD 1 = false ∧ op0.getLsbD 0 = false := by decide
  rw [branchGetGroup, getBitRegion_field instr (by omega) (by omega),
    getBitRegion_field instr (by omega) (by omega)]
  simpa using rows (instr.extractLsb' 29 3) (instr.extractLsb' 22 4)

theorem branchGetGroup_unconditionalReg : branchGetGroup instr = .unconditionalReg ↔
    instr.getLsbD 31 = true ∧ instr.getLsbD 30 = true ∧ instr.getLsbD 29 = false ∧
      instr.getLsbD 25 = true := by
  have rows : ∀ (op0 : BitVec 3) (op1 : BitVec 4),
      findDoublePage branchPagetable ((op0.setWidth 32).setWidth 8) ((op1.setWidth 32).setWidth 8)
          .unallocated = .unconditionalReg ↔
        op0.getLsbD 2 = true ∧ op0.getLsbD 1 = true ∧ op0.getLsbD 0 = false ∧ op1.getLsbD 3 = true := by
    decide
  rw [branchGetGroup, getBitRegion_field instr (by omega) (by omega),
    getBitRegion_field instr (by omega) (by omega)]
  simpa using rows (instr.extractLsb' 29 3) (instr.extractLsb' 22 4)

theorem singleBit_eq_zero (bit : Nat) :
    (getSingleBit instr bit).setWidth 8 = (0 : U8) ↔ instr.getLsbD bit = false := by
  rw [getSingleBit_eq]
  cases instr.getLsbD bit <;> decide

theorem dataRegGetGroup_logicalShift : dataRegGetGroup instr = .logicalShift ↔
    instr.getLsbD 28 = false ∧ instr.getLsbD 24 = false := by
  have top : ∀ op2 : BitVec 4, getSingleBit ((op2.setWidth 32).setWidth 8 : U8) 3 = 0 ↔
      op2.getLsbD 3 = false := by decide
  have page : dataRegGetGroup instr = .logicalShift ↔ (getSingleBit instr 28).setWidth 8 = (0 : U8) ∧
      getSingleBit ((getBitRegion instr 21 24).setWidth 8 : U8) 3 = 0 := by
    simp only [dataRegGetGroup]
    grind
  rw [page, singleBit_eq_zero, getBitRegion_field instr (by omega) (by omega), top]
  simp

theorem dataRegGetGroup_addsubShift : dataRegGetGroup instr = .addsubShift ↔
    instr.getLsbD 28 = false ∧ instr.getLsbD 24 = true ∧ instr.getLsbD 21 = false := by
  have ends : ∀ op2 : BitVec 4, ¬ getSingleBit ((op2.setWidth 32).setWidth 8 : U8) 3 = 0 ∧
      ((op2.setWidth 32).setWidth 8 : U8) &&& 0b1001 = 0b1000 ↔
      op2.getLsbD 3 = true ∧ op2.getLsbD 0 = false := by decide
  have page : dataRegGetGroup instr = .addsubShift ↔ (getSingleBit instr 28).setWidth 8 = (0 : U8) ∧
      ¬ getSingleBit ((getBitRegion instr 21 24).setWidth 8 : U8) 3 = 0 ∧
      (getBitRegion instr 21 24).setWidth 8 &&& (0b1001 : U8) = 0b1000 := by
    simp only [dataRegGetGroup]
    grind
  rw [page, singleBit_eq_zero, getBitRegion_field instr (by omega) (by omega), ends]
  simp

end Pages

section Classes

variable {instr : U32}

theorem addSubImmediate_dispatch : AddSubImmediate instr ↔
    instrGetGroup instr = .dataImm ∧ dataImmGetGroup instr = .addsubImm := by
  rw [addSubImmediate_iff, instrGetGroup_dataImm, dataImmGetGroup_addsubImm]
  simp only [and_assoc]

theorem logicalImmediate_dispatch : LogicalImmediate instr ↔
    instrGetGroup instr = .dataImm ∧ dataImmGetGroup instr = .logicalImm := by
  rw [logicalImmediate_iff, instrGetGroup_dataImm, dataImmGetGroup_logicalImm]
  simp only [and_assoc]

theorem moveWide_dispatch : MoveWide instr ↔
    instrGetGroup instr = .dataImm ∧ dataImmGetGroup instr = .movWide := by
  rw [moveWide_iff, instrGetGroup_dataImm, dataImmGetGroup_movWide]
  simp only [and_assoc]

theorem logicalShifted_dispatch : LogicalShifted instr ↔
    instrGetGroup instr = .dataReg ∧ dataRegGetGroup instr = .logicalShift := by
  rw [logicalShifted_iff, instrGetGroup_dataReg, dataRegGetGroup_logicalShift]
  tauto

theorem addSubShifted_dispatch : AddSubShifted instr ↔
    instrGetGroup instr = .dataReg ∧ dataRegGetGroup instr = .addsubShift := by
  rw [addSubShifted_iff, instrGetGroup_dataReg, dataRegGetGroup_addsubShift]
  tauto

theorem branchImmediate_dispatch : BranchImmediate instr ↔
    instrGetGroup instr = .branch ∧ branchGetGroup instr = .unconditionalImm := by
  rw [branchImmediate_iff, instrGetGroup_branch, branchGetGroup_unconditionalImm]
  tauto

theorem branchRegister_dispatch : BranchRegister instr ↔
    instrGetGroup instr = .branch ∧ branchGetGroup instr = .unconditionalReg := by
  rw [branchRegister_iff, instrGetGroup_branch, branchGetGroup_unconditionalReg]
  tauto

end Classes

end Koshka.Iml
