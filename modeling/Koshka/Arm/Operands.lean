import Koshka.Arm.Effect

namespace Koshka.Arm

section Doubling

variable {width : Nat} {x y : BitVec width}

theorem add_eq_sub_iff : x + y = x - y ↔ y + y = 0 := by
  constructor
  · intro same
    have doubled : y + y = x + y - (x - y) := by grind
    rw [doubled, same]
    exact BitVec.sub_self _
  · intro nothing
    have opposite : y = -y := by grind
    rw [BitVec.sub_eq_add_neg, ← opposite]

theorem double_eq_shiftLeft : y + y = y <<< 1 := by
  apply BitVec.eq_of_toNat_eq
  rw [BitVec.toNat_add, BitVec.toNat_shiftLeft, Nat.shiftLeft_eq, Nat.pow_one, Nat.mul_two]

/-- Doubling loses the top bit only. -/
theorem double_eq_zero_bit (nothing : y + y = 0) {bit : Nat} (inside : bit + 1 < width) :
    y.getLsbD bit = false := by
  have moved := congrArg (·.getLsbD (bit + 1)) (double_eq_shiftLeft.symm.trans nothing)
  have below : bit < width := by omega
  simpa [inside, below] using moved

theorem double_eq_zero_small (nothing : y + y = 0) (small : 2 * y.toNat < 2 ^ width) : y = 0 := by
  have sum := congrArg BitVec.toNat nothing
  rw [BitVec.toNat_add, Nat.mod_eq_of_lt (by omega)] at sum
  have zero : y.toNat = 0 := by simp at sum; omega
  exact BitVec.eq_of_toNat_eq (by simpa using zero)

end Doubling

section Operands

variable {word : U32} {width : Nat}

theorem shiftReg_left (value : BitVec width) (amount : Nat) :
    shiftReg value 0 amount = value <<< amount := rfl

/-- Bits that every shift of ones keeps: a shift to the left moves the lowest bit up. -/
theorem shiftReg_ones {type : BitVec 2} {amount : Nat} (inside : amount < width) :
    (shiftReg (BitVec.allOnes width) type amount).getLsbD (if type = 0 then amount else 0) = true := by
  have positive : 0 < width := by omega
  have types : ∀ type : BitVec 2, type = 0 ∨ type = 1 ∨ type = 2 ∨ type = 3 := by decide
  rcases types type with same | same | same | same <;> rw [same]
  · simp [shiftReg, inside]
  · simp [shiftReg, inside]
  · change ((BitVec.allOnes width).sshiftRight amount).getLsbD 0 = true
    rw [BitVec.getLsbD_sshiftRight]
    simp [inside, Nat.ne_of_gt positive]
  · simp [shiftReg, positive]

theorem shiftedSource_double_iff (wide : 1 < width) (inside : (imm6 word).toNat < width)
    (short : width ≤ 64) :
    (∀ cpu : Cpu, shiftedSource cpu word width + shiftedSource cpu word width = 0) ↔
      Rm word = 31 ∨ (shift word = 0 ∧ (imm6 word).toNat = width - 1) := by
  constructor
  · intro nothing
    by_contra neither
    obtain ⟨named, notTop⟩ := not_or.mp neither
    have ones : shiftedSource (.filled (BitVec.allOnes 64)) word width =
        shiftReg (BitVec.allOnes width) (shift word) (imm6 word).toNat := by
      have cut : (BitVec.allOnes 64).setWidth width = BitVec.allOnes width := by
        apply BitVec.eq_of_getLsbD_eq
        intro bit below
        rw [BitVec.getLsbD_setWidth, BitVec.getLsbD_allOnes, BitVec.getLsbD_allOnes]
        simp [below, show bit < 64 by omega]
      rw [shiftedSource, Cpu.read_named named, ← cut]
      rfl
    have isSet : (shiftReg (BitVec.allOnes width) (shift word) (imm6 word).toNat).getLsbD
        (if shift word = 0 then (imm6 word).toNat else 0) = true := shiftReg_ones inside
    rw [← ones, double_eq_zero_bit (nothing _)] at isSet
    · cases isSet
    · split
      · rename_i left
        have low : (imm6 word).toNat ≠ width - 1 := fun top => notTop ⟨left, top⟩
        omega
      · omega
  · intro either cpu
    rcases either with zero | ⟨left, top⟩
    · rw [shiftedSource_zero zero]
      exact BitVec.add_zero 0
    · rw [double_eq_shiftLeft, shiftedSource, left, top, shiftReg_left, ← BitVec.shiftLeft_add,
        show width - 1 + 1 = width by omega]
      exact BitVec.shiftLeft_eq_zero (Nat.le_refl _)

theorem immediateOperand_toNat (wide : 32 ≤ width) : (immediateOperand word width).toNat =
    if shift word = 1 then (imm12 word).toNat * 4096 else (imm12 word).toNat := by
  have power : 2 ^ 32 ≤ 2 ^ width := Nat.pow_le_pow_right (by omega) wide
  have bound := (imm12 word).isLt
  have field : ((imm12 word).setWidth width).toNat = (imm12 word).toNat :=
    BitVec.toNat_setWidth_of_le (by omega)
  unfold immediateOperand
  split
  · rw [BitVec.toNat_shiftLeft, field, Nat.shiftLeft_eq]
    exact Nat.mod_eq_of_lt (by omega)
  · exact field

theorem immediateOperand_double_iff (wide : 32 ≤ width) :
    immediateOperand word width + immediateOperand word width = 0 ↔ imm12 word = 0 := by
  have power : 2 ^ 32 ≤ 2 ^ width := Nat.pow_le_pow_right (by omega) wide
  have value : (immediateOperand word width).toNat = _ := immediateOperand_toNat wide
  have bound := (imm12 word).isLt
  constructor
  · intro nothing
    have zero := double_eq_zero_small nothing (by rw [value]; split <;> omega)
    rw [zero] at value
    apply BitVec.eq_of_toNat_eq
    change 0 = _ at value
    split at value <;> simp <;> omega
  · intro zero
    rw [immediateOperand_zero zero]
    exact BitVec.add_zero 0

end Operands

end Koshka.Arm
