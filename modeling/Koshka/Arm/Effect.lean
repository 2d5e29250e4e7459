import Koshka.Arm.Execute

namespace Koshka.Arm

def Cpu.filled (value : U64) : Cpu where
  registers _ := value
  flags := { n := false, z := false, c := false, v := false }

section Operations

variable {width : Nat} {one two : U32} {cpu : Cpu} {sp sourceSp destSp : Bool} {number : BitVec 5} {value : U64}

theorem Cpu.read_sp : cpu.read true number = cpu.registers number := if_neg (by simp)

theorem Cpu.read_zero : cpu.read false 31 = 0 := if_pos ⟨rfl, rfl⟩

theorem Cpu.read_named (named : number ≠ 31) : cpu.read sp number = cpu.registers number :=
  if_neg fun both => named both.1

theorem Cpu.write_named (named : number ≠ 31 ∨ sp = true) :
    (cpu.write sp number value).registers number = value := by
  have open_ : ¬ (number = 31 ∧ sp = false) := by
    intro both
    obtain ⟨rfl, rfl⟩ := both
    simp at named
  rw [write, if_neg open_]
  exact if_pos rfl

theorem Cpu.write_zero : cpu.write false 31 value = cpu := if_pos ⟨rfl, rfl⟩

theorem Cpu.write_flags : (cpu.write sp number value).flags = cpu.flags := by
  unfold write
  split <;> rfl

theorem shiftReg_none (operand : BitVec width) (type : BitVec 2) : shiftReg operand type 0 = operand := by
  unfold shiftReg
  split <;> simp [BitVec.rotateRight, BitVec.rotateRightAux]

theorem shiftReg_zero (type : BitVec 2) (amount : Nat) : shiftReg (0 : BitVec width) type amount = 0 := by
  unfold shiftReg
  split <;> simp [BitVec.rotateRight, BitVec.rotateRightAux]

theorem shiftedSource_congr (sameAmount : imm6 one = imm6 two) (sameRegister : Rm one = Rm two)
    (sameType : imm6 one = 0 ∨ shift one = shift two) :
    shiftedSource cpu one width = shiftedSource cpu two width := by
  rw [shiftedSource, shiftedSource, ← sameAmount, sameRegister]
  rcases sameType with none | same
  · have zero : (imm6 one).toNat = 0 := by rw [none]; rfl
    rw [zero, shiftReg_none, shiftReg_none]
  · rw [same]

theorem Cpu.addSub_congr {operand2 : BitVec width} (sameRd : Rd one = Rd two) (sameRn : Rn one = Rn two)
    (sameOp : op one = op two) (sameS : S one = S two) :
    cpu.addSub one sourceSp destSp operand2 = cpu.addSub two sourceSp destSp operand2 := by
  simp only [addSub, sameRd, sameRn, sameOp, sameS]

theorem Cpu.logical_congr {operand2 : BitVec width} (sameRd : Rd one = Rd two) (sameRn : Rn one = Rn two)
    (sameOpc : opc one = opc two) :
    cpu.logical one destSp operand2 = cpu.logical two destSp operand2 := by
  simp only [logical, sameRd, sameRn, sameOpc]

theorem addWithCarry_none (x : BitVec width) : (addWithCarry x 0 false).1 = x := by
  simp [addWithCarry]

theorem addWithCarry_all (x : BitVec width) : (addWithCarry x (~~~0) true).1 = x := by
  apply BitVec.eq_of_toNat_eq
  have positive := Nat.two_pow_pos width
  have bound := x.isLt
  have sum : x.toNat + (2 ^ width - 1) + 1 = x.toNat + 2 ^ width := by omega
  simp [addWithCarry, sum, Nat.mod_eq_of_lt bound]

theorem Cpu.addSub_none (unflagged : S one = false) :
    cpu.addSub one sourceSp destSp (0 : BitVec width) =
      cpu.write destSp (Rd one) (((cpu.read sourceSp (Rn one)).setWidth width).setWidth 64) := by
  cases subtracts : op one <;>
    simp only [addSub, subtracts, unflagged, Bool.false_eq_true, if_false, if_true,
      addWithCarry_none, addWithCarry_all]

end Operations

section Moves

variable {one : U32}

/-- A CPU that tells SP from the other registers, also by its lower half. -/
def Cpu.probe : Cpu where
  registers number := if number = 31 then 0x100000002 else 1
  flags := { n := false, z := false, c := false, v := false }

theorem Cpu.write_same {cpu : Cpu} {number : BitVec 5} {value : U64}
    (same : cpu.registers number = value) (sp : Bool) :
    cpu.write sp number value = cpu := by
  unfold write
  split
  · rfl
  · have kept : (fun other => if other = number then value else cpu.registers other) = cpu.registers := by
      funext other
      split
      · rename_i named
        rw [named, same]
      · rfl
    rw [kept]

theorem datasize_cases (word : U32) : datasize word = 64 ∨ datasize word = 32 := by
  unfold datasize
  split
  · exact Or.inl rfl
  · exact Or.inr rfl

/-- The same move with number 31 as SP and as the zero register. -/
theorem move_same_iff :
    (∀ cpu : Cpu, cpu.write true (Rd one) (((cpu.read true (Rn one)).setWidth (datasize one)).setWidth 64) =
      cpu.write false (Rd one) (((cpu.read false (Rn one)).setWidth (datasize one)).setWidth 64)) ↔
    (Rn one ≠ 31 ∧ Rd one ≠ 31) ∨ (sf one = true ∧ Rn one = 31 ∧ Rd one = 31) := by
  constructor
  · intro same
    have probed := congrArg (fun cpu : Cpu => cpu.registers (Rd one)) (same .probe)
    simp only [Cpu.write_named (Or.inr rfl)] at probed
    by_cases dest : Rd one = 31
    · rw [dest, Cpu.write_zero, Cpu.read_sp] at probed
      by_cases source : Rn one = 31
      · refine Or.inr ⟨?_, source, dest⟩
        by_contra narrow
        have size : datasize one = 32 := if_neg narrow
        rw [source, size] at probed
        exact absurd probed (by decide)
      · have value : Cpu.probe.registers (Rn one) = 1 := if_neg source
        rw [value] at probed
        rcases datasize_cases one with size | size <;> rw [size] at probed
          <;> exact absurd probed (by decide)
    · refine Or.inl ⟨fun source => ?_, dest⟩
      rw [Cpu.write_named (Or.inl dest), source, Cpu.read_sp, Cpu.read_zero] at probed
      rcases datasize_cases one with size | size <;> rw [size] at probed
        <;> exact absurd probed (by decide)
  · intro either cpu
    rcases either with ⟨source, dest⟩ | ⟨wide, source, dest⟩
    · rw [Cpu.read_named source, Cpu.read_named source]
      simp only [Cpu.write, dest, false_and]
    · have size : datasize one = 64 := if_pos wide
      rw [source, dest, size, Cpu.write_zero, Cpu.read_sp, BitVec.setWidth_eq, BitVec.setWidth_eq]
      exact Cpu.write_same rfl true

end Moves

section Logical

variable {width : Nat} {a b : BitVec width}

/-- Different masks are told apart by a value that they clear differently. -/
theorem exists_and_ne (differ : a ≠ b) : ∃ x : BitVec width, ¬ (x &&& a = 0 ↔ x &&& b = 0) := by
  by_contra same
  simp only [not_exists, not_not] at same
  have inB := (same (~~~a)).mp (by simp)
  have inA := (same (~~~b)).mpr (by simp)
  refine differ (BitVec.eq_of_getLsbD_eq fun bit inside => ?_)
  have atA := congrArg (·.getLsbD bit) inA
  have atB := congrArg (·.getLsbD bit) inB
  simp only [BitVec.getLsbD_and, BitVec.getLsbD_not, inside, decide_true, Bool.true_and,
    BitVec.ofNat_eq_ofNat, BitVec.getLsbD_zero] at atA atB
  cases one : a.getLsbD bit <;> cases two : b.getLsbD bit <;> simp_all

variable {word : U32} {cpu : Cpu} {sp : Bool} {mask other : U64}

theorem Cpu.logical_dest (named : Rd word ≠ 31 ∨ sp = true) :
    (cpu.logical word sp mask).registers (Rd word) =
    bitwise (opc word) (cpu.read false (Rn word)) mask := by
  rw [logical, Cpu.write_named named, BitVec.setWidth_eq, BitVec.setWidth_eq]

theorem Cpu.logical_zero (flagged : opc word = 3) :
    (cpu.logical word sp mask).flags.z = decide (cpu.read false (Rn word) &&& mask = 0) := by
  simp only [logical, Cpu.write_flags, flagged, if_true, BitVec.setWidth_eq]
  rfl

theorem Cpu.read_filled (value : U64) (named : Rn word ≠ 31) :
    (Cpu.filled value).read false (Rn word) = value :=
  Cpu.read_named named

theorem Cpu.read_filled_zero : (Cpu.filled 0).read false (Rn word) = 0 := by
  unfold read
  split <;> rfl

theorem opc_cases (word : U32) : opc word = 0 ∨ opc word = 1 ∨ opc word = 2 ∨ opc word = 3 := by
  generalize opc word = field
  revert field
  decide

theorem bitwise_all (operand : U64) :
    bitwise 0 (BitVec.allOnes 64) operand = operand := BitVec.allOnes_and

theorem bitwise_none (source : Rn word = 31) (op : opc word = 0 ∨ opc word = 3) (operand : U64) :
    bitwise (opc word) ((cpu.read false (Rn word)).setWidth 64) operand = 0 := by
  rw [source, Cpu.read_zero]
  rcases op with op | op <;> rw [op] <;> simp [bitwise]

/-- Different masks give different results, but for a mask of nothing. -/
theorem bitwise_same_iff (differ : mask ≠ other) :
    (∀ cpu : Cpu, bitwise (opc word) (cpu.read false (Rn word)) mask =
      bitwise (opc word) (cpu.read false (Rn word)) other) ↔
      Rn word = 31 ∧ (opc word = 0 ∨ opc word = 3) := by
  constructor
  · intro same
    have full (cleared : bitwise (opc word) (BitVec.allOnes 64) mask ≠
        bitwise (opc word) (BitVec.allOnes 64) other) : Rn word = 31 := by
      by_contra named
      have value := same (.filled (BitVec.allOnes 64))
      rw [Cpu.read_filled _ named] at value
      exact cleared value
    have empty := same (.filled 0)
    rw [Cpu.read_filled_zero] at empty
    rcases opc_cases word with op | op | op | op
    · exact ⟨full (by rwa [op, bitwise_all, bitwise_all]), Or.inl op⟩
    · rw [op] at empty
      exact absurd (by simpa [bitwise] using empty) differ
    · rw [op] at empty
      exact absurd (by simpa [bitwise] using empty) differ
    · refine ⟨full ?_, Or.inr op⟩
      rw [op]
      simp only [bitwise, BitVec.allOnes_and]
      exact differ
  · intro both cpu
    have nothing (operand : U64) : bitwise (opc word) (cpu.read false (Rn word)) operand = 0 := by
      rw [← bitwise_none both.1 both.2 operand, BitVec.setWidth_eq]
    rw [nothing, nothing]

theorem logical_same_iff (differ : mask ≠ other) :
    (∀ cpu : Cpu, cpu.logical word (opc word ≠ 3) mask = cpu.logical word (opc word ≠ 3) other) ↔
      Rn word = 31 ∧ (opc word = 0 ∨ opc word = 3) := by
  constructor
  · intro same
    by_cases op : opc word = 3
    · refine ⟨?_, Or.inr op⟩
      by_contra named
      obtain ⟨x, apart⟩ := exists_and_ne differ
      have flag := congrArg (fun cpu : Cpu => cpu.flags.z) (same (.filled x))
      simp only [Cpu.logical_zero op, Cpu.read_filled x named, decide_eq_decide] at flag
      exact apart flag
    · refine (bitwise_same_iff differ).mp fun cpu => ?_
      have value := congrArg (fun cpu : Cpu => cpu.registers (Rd word)) (same cpu)
      have open_ : decide (opc word ≠ 3) = true := decide_eq_true op
      simpa only [Cpu.logical_dest (Or.inr open_)] using value
  · intro both cpu
    obtain ⟨source, op⟩ := both
    simp only [Cpu.logical, bitwise_none source op]

theorem Cpu.logical_nothing : (cpu.logical word false (0 : U64)).registers (Rd word) =
    if Rd word = 31 then cpu.registers 31 else bitwise (opc word) (cpu.read false (Rn word)) 0 := by
  split
  · rename_i zero
    rw [logical, zero, Cpu.write_zero]
    split <;> rfl
  · rename_i named
    exact Cpu.logical_dest (Or.inl named)

/-- A mask and nothing, in the class that can name SP and the one that cannot. -/
theorem logical_none_iff (nonzero : mask ≠ 0) (partial_ : mask ≠ BitVec.allOnes 64) :
    (∀ cpu : Cpu, cpu.logical word (opc word ≠ 3) mask = cpu.logical word false (0 : U64)) ↔
      Rn word = 31 ∧ ((opc word = 0 ∧ Rd word ≠ 31) ∨ opc word = 3) := by
  constructor
  · intro same
    have dest (named : opc word ≠ 3) (cpu : Cpu) : bitwise (opc word) (cpu.read false (Rn word)) mask =
        if Rd word = 31 then cpu.registers 31 else bitwise (opc word) (cpu.read false (Rn word)) 0 := by
      have value := congrArg (fun cpu : Cpu => cpu.registers (Rd word)) (same cpu)
      have open_ : decide (opc word ≠ 3) = true := decide_eq_true named
      simpa only [Cpu.logical_dest (Or.inr open_), Cpu.logical_nothing] using value
    rcases opc_cases word with op | op | op | op
    · have value := dest (by rw [op]; decide) (.filled (BitVec.allOnes 64))
      rw [op] at value
      by_cases source : Rn word = 31
      · refine ⟨source, Or.inl ⟨op, fun dest => ?_⟩⟩
        rw [source, Cpu.read_zero, if_pos dest] at value
        exact absurd value (by simp [bitwise, Cpu.filled])
      · rw [Cpu.read_filled _ source, bitwise_all, bitwise_all] at value
        split at value
        · exact absurd value partial_
        · exact absurd value nonzero
    · have value := dest (by rw [op]; decide) (.filled 0)
      rw [Cpu.read_filled_zero, op] at value
      exact absurd (by simpa [bitwise, Cpu.filled] using value) nonzero
    · have value := dest (by rw [op]; decide) (.filled 0)
      rw [Cpu.read_filled_zero, op] at value
      exact absurd (by simpa [bitwise, Cpu.filled] using value) nonzero
    · refine ⟨?_, Or.inr op⟩
      by_contra named
      have flag := congrArg (fun cpu : Cpu => cpu.flags.z) (same (.filled (BitVec.allOnes 64)))
      simp only [Cpu.logical_zero op, Cpu.read_filled _ named, decide_eq_decide,
        BitVec.allOnes_and] at flag
      exact nonzero (flag.mpr trivial)
  · intro both cpu
    rcases both with ⟨source, ⟨op, dest⟩ | op⟩
    · simp only [Cpu.logical, bitwise_none source (Or.inl op)]
      simp only [Cpu.write, dest, false_and]
    · simp only [Cpu.logical, bitwise_none source (Or.inr op)]
      rw [op]
      rfl

end Logical

section Instructions

variable {word one two : U32} {cpu : Cpu}

theorem datasize_wide (wide : sf word = true) : datasize word = 64 := if_pos wide

theorem datasize_narrow (narrow : sf word = false) : datasize word = 32 := by
  rw [datasize, narrow]
  rfl

theorem datasize_congr (same : sf one = sf two) : datasize one = datasize two := by
  rw [datasize, same, datasize]

theorem addSubImmediate_congr (sameRd : Rd one = Rd two) (sameRn : Rn one = Rn two)
    (sameOp : op one = op two)
    (sameS : S one = S two) (sameSize : sf one = sf two) (sameShift : shift one = 1 ↔ shift two = 1)
    (sameImm : imm12 one = imm12 two) : addSubImmediate cpu one = addSubImmediate cpu two := by
  have sameOperand (width : Nat) : immediateOperand one width = immediateOperand two width := by
    simp only [immediateOperand, sameShift, sameImm]
  rw [addSubImmediate, Cpu.addSub_congr sameRd sameRn sameOp sameS, sameOperand,
    datasize_congr sameSize, sameS, addSubImmediate]

theorem addSubShifted_congr (sameRd : Rd one = Rd two) (sameRn : Rn one = Rn two)
    (sameOp : op one = op two)
    (sameS : S one = S two) (sameSize : sf one = sf two) (sameAmount : imm6 one = imm6 two)
    (sameRm : Rm one = Rm two) (sameType : imm6 one = 0 ∨ shift one = shift two) :
    addSubShifted cpu one = addSubShifted cpu two := by
  rw [addSubShifted, Cpu.addSub_congr sameRd sameRn sameOp sameS,
    shiftedSource_congr sameAmount sameRm sameType, datasize_congr sameSize, addSubShifted]

theorem logicalShifted_congr (sameRd : Rd one = Rd two) (sameRn : Rn one = Rn two)
    (sameOpc : opc one = opc two)
    (sameSize : sf one = sf two) (sameN : N one = N two) (sameAmount : imm6 one = imm6 two)
    (sameRm : Rm one = Rm two) (sameType : imm6 one = 0 ∨ shift one = shift two) :
    logicalShifted cpu one = logicalShifted cpu two := by
  have sameSource (width : Nat) : invertedSource cpu one width = invertedSource cpu two width := by
    rw [invertedSource, sameN, shiftedSource_congr sameAmount sameRm sameType, invertedSource]
  rw [logicalShifted, Cpu.logical_congr sameRd sameRn sameOpc, sameSource, datasize_congr sameSize,
    logicalShifted]

theorem logicalImmediate_congr (sameRd : Rd one = Rd two) (sameRn : Rn one = Rn two)
    (sameOpc : opc one = opc two)
    (sameSize : sf one = sf two)
    (sameMask : (mask (immN one) (imms one) (immr one)).setWidth (datasize two) =
      (mask (immN two) (imms two) (immr two)).setWidth (datasize two)) :
    logicalImmediate cpu one = logicalImmediate cpu two := by
  rw [logicalImmediate, Cpu.logical_congr sameRd sameRn sameOpc, datasize_congr sameSize, sameMask,
    sameOpc, logicalImmediate]

theorem logicalImmediate_wide (wide : sf word = true) : logicalImmediate cpu word =
    cpu.logical word (opc word ≠ 3) (mask (immN word) (imms word) (immr word)) := by
  rw [logicalImmediate, datasize_wide wide, BitVec.setWidth_eq]

theorem shiftedSource_zero {width : Nat} (zero : Rm word = 31) : shiftedSource cpu word width = 0 := by
  rw [shiftedSource, zero, Cpu.read_zero]
  have nothing : (0 : U64).setWidth width = 0 := BitVec.setWidth_zero ..
  rw [nothing, shiftReg_zero]

theorem immediateOperand_zero {width : Nat} (zero : imm12 word = 0) :
    immediateOperand word width = 0 := by
  have nothing : (0 : BitVec 12).setWidth width = 0 := BitVec.setWidth_zero ..
  rw [immediateOperand, zero, nothing]
  split
  · exact BitVec.zero_shiftLeft _
  · rfl

theorem logicalImmediate_same_iff (sameRd : Rd one = Rd two) (sameRn : Rn one = Rn two)
    (sameOpc : opc one = opc two)
    (wideOne : sf one = true) (wideTwo : sf two = true)
    (differ : mask (immN one) (imms one) (immr one) ≠ mask (immN two) (imms two) (immr two)) :
    (∀ cpu, logicalImmediate cpu one = logicalImmediate cpu two) ↔
      Rn one = 31 ∧ (opc one = 0 ∨ opc one = 3) := by
  rw [← logical_same_iff differ]
  refine forall_congr' fun cpu => ?_
  rw [logicalImmediate_wide wideOne, logicalImmediate_wide wideTwo,
    ← Cpu.logical_congr sameRd sameRn sameOpc, sameOpc]

/-- A logical immediate, and the zero register in its place. -/
theorem logicalImmediate_logicalShifted_same_iff (sameRd : Rd one = Rd two) (sameRn : Rn one = Rn two)
    (sameOpc : opc one = opc two) (wideOne : sf one = true) (wideTwo : sf two = true) (zero : Rm two = 31)
    (plain : N two = false) (partial_ : mask (immN one) (imms one) (immr one) ≠ BitVec.allOnes 64) :
    (∀ cpu, logicalImmediate cpu one = logicalShifted cpu two) ↔
      Rn one = 31 ∧ ((opc one = 0 ∧ Rd one ≠ 31) ∨ opc one = 3) := by
  rw [← logical_none_iff mask_ne_zero partial_]
  refine forall_congr' fun cpu => ?_
  have source : invertedSource cpu two 64 = 0 := by
    rw [invertedSource, plain, shiftedSource_zero zero]
    rfl
  rw [logicalImmediate_wide wideOne, logicalShifted, datasize_wide wideTwo, source,
    Cpu.logical_congr sameRd sameRn sameOpc, Cpu.logical_congr sameRd sameRn sameOpc]

/-- Adding the immediate 0, and the zero register in its place. -/
theorem addSubImmediate_addSubShifted_same_iff (sameRd : Rd one = Rd two) (sameRn : Rn one = Rn two)
    (sameSize : sf one = sf two) (plainOne : S one = false) (plainTwo : S two = false)
    (zeroImm : imm12 one = 0) (zero : Rm two = 31) :
    (∀ cpu, addSubImmediate cpu one = addSubShifted cpu two) ↔
      (Rn one ≠ 31 ∧ Rd one ≠ 31) ∨ (sf one = true ∧ Rn one = 31 ∧ Rd one = 31) := by
  rw [← move_same_iff]
  refine forall_congr' fun cpu => ?_
  rw [addSubImmediate, immediateOperand_zero zeroImm, Cpu.addSub_none plainOne, addSubShifted,
    shiftedSource_zero zero,
    Cpu.addSub_none plainTwo, plainOne, ← sameRd, ← sameRn, datasize_congr sameSize]
  rfl

end Instructions

end Koshka.Arm
