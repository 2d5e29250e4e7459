import Koshka.Bitmanip

namespace Koshka.Arm

section Fields

variable (word : U32)

def AddSubImmediate : Prop := word.extractLsb' 24 5 = 0b10001
def LogicalImmediate : Prop := word.extractLsb' 23 6 = 0b100100
def MoveWide : Prop := word.extractLsb' 23 6 = 0b100101
def LogicalShifted : Prop := word.extractLsb' 24 5 = 0b01010
def AddSubShifted : Prop := word.extractLsb' 24 5 = 0b01011 ∧ word.getLsbD 21 = false
def BranchImmediate : Prop := word.extractLsb' 26 5 = 0b00101
def BranchRegister : Prop := word.extractLsb' 25 7 = 0b1101011

instance : Decidable (AddSubImmediate word) := inferInstanceAs (Decidable (_ = _))
instance : Decidable (LogicalImmediate word) := inferInstanceAs (Decidable (_ = _))
instance : Decidable (MoveWide word) := inferInstanceAs (Decidable (_ = _))
instance : Decidable (LogicalShifted word) := inferInstanceAs (Decidable (_ = _))
instance : Decidable (AddSubShifted word) := inferInstanceAs (Decidable (_ ∧ _))
instance : Decidable (BranchImmediate word) := inferInstanceAs (Decidable (_ = _))
instance : Decidable (BranchRegister word) := inferInstanceAs (Decidable (_ = _))

def DataProcessing : Prop :=
  AddSubImmediate word ∨ LogicalImmediate word ∨ LogicalShifted word ∨ AddSubShifted word

def UnconditionalBranch : Prop := BranchImmediate word ∨ BranchRegister word

instance : Decidable (DataProcessing word) := inferInstanceAs (Decidable (_ ∨ _))
instance : Decidable (UnconditionalBranch word) := inferInstanceAs (Decidable (_ ∨ _))

def sf : Bool := word.getLsbD 31
def opc : BitVec 2 := word.extractLsb' 29 2
/-- Bit 30, which tells subtraction from addition. -/
def op : Bool := word.getLsbD 30
/-- Bit 29, which tells whether the flags are set. -/
def S : Bool := word.getLsbD 29
def shift : BitVec 2 := word.extractLsb' 22 2
/-- Bit 22 of a logical immediate. -/
def immN : Bool := word.getLsbD 22
/-- Bit 21 of a logical shifted register. -/
def N : Bool := word.getLsbD 21
def immr : BitVec 6 := word.extractLsb' 16 6
def imms : BitVec 6 := word.extractLsb' 10 6
def imm12 : BitVec 12 := word.extractLsb' 10 12
def imm6 : BitVec 6 := word.extractLsb' 10 6
def Rm : BitVec 5 := word.extractLsb' 16 5
def Rn : BitVec 5 := word.extractLsb' 5 5
def Rd : BitVec 5 := word.extractLsb' 0 5
def imm26 : BitVec 26 := word.extractLsb' 0 26
/-- The operation of a branch to a register. -/
def branchOpc : BitVec 4 := word.extractLsb' 21 4

/-- What `B` and `BL` add to the address of the instruction. -/
def branchOffset : U64 := (imm26 word).signExtend 64 * 4

end Fields

section Bits

variable {word : U32}

theorem addSubImmediate_iff : AddSubImmediate word ↔
    word.getLsbD 28 = true ∧ word.getLsbD 27 = false ∧ word.getLsbD 26 = false ∧
      word.getLsbD 25 = false ∧ word.getLsbD 24 = true := by
  have bits : ∀ field : BitVec 5, field = 0b10001 ↔ field.getLsbD 4 = true ∧ field.getLsbD 3 = false ∧
      field.getLsbD 2 = false ∧ field.getLsbD 1 = false ∧ field.getLsbD 0 = true := by decide
  simpa [AddSubImmediate] using bits (word.extractLsb' 24 5)

theorem logicalImmediate_iff : LogicalImmediate word ↔
    word.getLsbD 28 = true ∧ word.getLsbD 27 = false ∧ word.getLsbD 26 = false ∧
      word.getLsbD 25 = true ∧ word.getLsbD 24 = false ∧ word.getLsbD 23 = false := by
  have bits : ∀ field : BitVec 6, field = 0b100100 ↔ field.getLsbD 5 = true ∧ field.getLsbD 4 = false ∧
      field.getLsbD 3 = false ∧ field.getLsbD 2 = true ∧ field.getLsbD 1 = false ∧
      field.getLsbD 0 = false := by decide
  simpa [LogicalImmediate] using bits (word.extractLsb' 23 6)

theorem moveWide_iff : MoveWide word ↔
    word.getLsbD 28 = true ∧ word.getLsbD 27 = false ∧ word.getLsbD 26 = false ∧
      word.getLsbD 25 = true ∧ word.getLsbD 24 = false ∧ word.getLsbD 23 = true := by
  have bits : ∀ field : BitVec 6, field = 0b100101 ↔ field.getLsbD 5 = true ∧ field.getLsbD 4 = false ∧
      field.getLsbD 3 = false ∧ field.getLsbD 2 = true ∧ field.getLsbD 1 = false ∧
      field.getLsbD 0 = true := by decide
  simpa [MoveWide] using bits (word.extractLsb' 23 6)

theorem logicalShifted_iff : LogicalShifted word ↔
    word.getLsbD 28 = false ∧ word.getLsbD 27 = true ∧ word.getLsbD 26 = false ∧
      word.getLsbD 25 = true ∧ word.getLsbD 24 = false := by
  have bits : ∀ field : BitVec 5, field = 0b01010 ↔ field.getLsbD 4 = false ∧ field.getLsbD 3 = true ∧
      field.getLsbD 2 = false ∧ field.getLsbD 1 = true ∧ field.getLsbD 0 = false := by decide
  simpa [LogicalShifted] using bits (word.extractLsb' 24 5)

theorem addSubShifted_iff : AddSubShifted word ↔
    word.getLsbD 28 = false ∧ word.getLsbD 27 = true ∧ word.getLsbD 26 = false ∧
      word.getLsbD 25 = true ∧ word.getLsbD 24 = true ∧ word.getLsbD 21 = false := by
  have bits : ∀ field : BitVec 5, field = 0b01011 ↔ field.getLsbD 4 = false ∧ field.getLsbD 3 = true ∧
      field.getLsbD 2 = false ∧ field.getLsbD 1 = true ∧ field.getLsbD 0 = true := by decide
  simpa [AddSubShifted, and_assoc] using and_congr_left (c := word.getLsbD 21 = false)
    fun _ => bits (word.extractLsb' 24 5)

theorem branchImmediate_iff : BranchImmediate word ↔
    word.getLsbD 30 = false ∧ word.getLsbD 29 = false ∧ word.getLsbD 28 = true ∧
      word.getLsbD 27 = false ∧ word.getLsbD 26 = true := by
  have bits : ∀ field : BitVec 5, field = 0b00101 ↔ field.getLsbD 4 = false ∧ field.getLsbD 3 = false ∧
      field.getLsbD 2 = true ∧ field.getLsbD 1 = false ∧ field.getLsbD 0 = true := by decide
  simpa [BranchImmediate] using bits (word.extractLsb' 26 5)

theorem branchRegister_iff : BranchRegister word ↔
    word.getLsbD 31 = true ∧ word.getLsbD 30 = true ∧ word.getLsbD 29 = false ∧
      word.getLsbD 28 = true ∧ word.getLsbD 27 = false ∧ word.getLsbD 26 = true ∧
      word.getLsbD 25 = true := by
  have bits : ∀ field : BitVec 7, field = 0b1101011 ↔ field.getLsbD 6 = true ∧ field.getLsbD 5 = true ∧
      field.getLsbD 4 = false ∧ field.getLsbD 3 = true ∧ field.getLsbD 2 = false ∧
      field.getLsbD 1 = true ∧ field.getLsbD 0 = true := by decide
  simpa [BranchRegister] using bits (word.extractLsb' 25 7)

/-- Bit 26 tells branches from data processing. -/
theorem UnconditionalBranch.not_data (branch : UnconditionalBranch word) : ¬ DataProcessing word := by
  have set : word.getLsbD 26 = true := by
    rcases branch with immediate | register
    · exact (branchImmediate_iff.mp immediate).2.2.2.2
    · exact (branchRegister_iff.mp register).2.2.2.2.2.1
  intro data
  have clear : word.getLsbD 26 = false := by
    rcases data with member | member | member | member
    · exact (addSubImmediate_iff.mp member).2.2.1
    · exact (logicalImmediate_iff.mp member).2.2.1
    · exact (logicalShifted_iff.mp member).2.2.1
    · exact (addSubShifted_iff.mp member).2.2.1
  exact absurd (set.symm.trans clear) (by decide)

theorem BranchRegister.not_immediate (register : BranchRegister word) : ¬ BranchImmediate word := by
  intro immediate
  have clear := (branchImmediate_iff.mp immediate).1
  have set := (branchRegister_iff.mp register).2.1
  exact absurd (set.symm.trans clear) (by decide)

theorem UnconditionalBranch.nonzero (branch : UnconditionalBranch word) : word ≠ 0 := by
  intro zero
  subst zero
  exact absurd branch (by decide)

end Bits

end Koshka.Arm
