import Koshka.Bitmanip

namespace Koshka

inductive UnsignedType where
  | u8 | u16 | u32 | u64
deriving Repr, DecidableEq

namespace UnsignedType

def width : UnsignedType → Nat
  | .u8 => 8
  | .u16 => 16
  | .u32 => 32
  | .u64 => 64

/-- The narrow types become `int`, and the others stay as they are. -/
def promotedWidth : UnsignedType → Nat
  | .u8 | .u16 | .u32 => 32
  | .u64 => 64

def isInt : UnsignedType → Bool
  | .u8 | .u16 => true
  | .u32 | .u64 => false

def value (type : UnsignedType) (val : BitVec type.promotedWidth) : Int :=
  if type.isInt then val.toInt else val.toNat

/-- `>>` keeps the sign of an `int`. -/
def shiftRight (type : UnsignedType) (val : BitVec type.promotedWidth) (count : Nat) :
    BitVec type.promotedWidth :=
  if type.isInt then val.sshiftRight count else val >>> count

/-- The macro with its operand promoted.  `NUM_BITS` counts the bits of the operand as it was. -/
def getBitRegion (type : UnsignedType) (val : BitVec type.width) (low high : Nat) :
    BitVec type.promotedWidth :=
  let val : BitVec type.promotedWidth := val.setWidth type.promotedWidth
  type.shiftRight (val &&& type.shiftRight (setAll val) (type.width - high - 1)) low

end UnsignedType

/-- Bits `low` to `high` of the operand, and no others. -/
def RegionExact (type : UnsignedType) (val : BitVec type.width) (low high : Nat) : Prop :=
  type.value (type.getBitRegion val low high) =
    ((val.toNat / 2 ^ low % 2 ^ (high - low + 1) : Nat) : Int)

section Promotion

variable {low high : Nat}

theorem getBitRegion_toNat {width : Nat} (val : BitVec width) (ordered : low ≤ high)
    (within : high < width) :
    (getBitRegion val low high).toNat = val.toNat / 2 ^ low % 2 ^ (high - low + 1) := by
  rw [getBitRegion_eq val ordered within, BitVec.toNat_setWidth_of_le (by omega), BitVec.extractLsb,
    BitVec.extractLsb'_toNat, Nat.shiftRight_eq_div_pow]

/-- At the types that stay as they are, the macro is the one of unpromoted operands. -/
theorem getBitRegion_wide {type : UnsignedType} (val : BitVec type.width) (wide : 32 ≤ type.width) :
    type.value (type.getBitRegion val low high) = ((getBitRegion val low high).toNat : Int) := by
  cases type with
  | u8 | u16 => exact absurd wide (by decide)
  | u32 | u64 =>
      exact congrArg (fun same => ((getBitRegion same low high).toNat : Int)) (BitVec.setWidth_eq val)

/-- An `int` of all ones is -1, and shifting it right leaves it there. -/
theorem allOnes_sshiftRight (count : Nat) :
    (BitVec.allOnes 32).sshiftRight count = BitVec.allOnes 32 := by
  apply BitVec.eq_of_toInt_eq
  rw [BitVec.toInt_sshiftRight]
  change Int.negSucc 0 >>> count = Int.negSucc 0
  rw [Int.negSucc_shiftRight, Nat.zero_shiftRight]

theorem sshiftRight_toInt {val : BitVec 32} (small : val.toNat < 2 ^ 31) (count : Nat) :
    (val.sshiftRight count).toInt = ((val.toNat / 2 ^ count : Nat) : Int) := by
  rw [BitVec.toInt_sshiftRight, BitVec.toInt_eq_toNat_of_lt (by omega), Int.shiftRight_eq_div_pow]
  exact Int.natCast_ediv _ _

/-- At the narrow types nothing is masked out above the region. -/
theorem getBitRegion_narrow {type : UnsignedType} (val : BitVec type.width) (narrow : type.width < 32) :
    type.value (type.getBitRegion val low high) = ((val.toNat / 2 ^ low : Nat) : Int) := by
  have unmasked {promoted : BitVec 32} (same : promoted.toNat = val.toNat) (count : Nat) :
      ((promoted &&& (setAll promoted).sshiftRight count).sshiftRight low).toInt =
        ((val.toNat / 2 ^ low : Nat) : Int) := by
    have range := val.isLt
    have bound : 2 ^ type.width ≤ 2 ^ 31 := Nat.pow_le_pow_right (by decide) (by omega)
    rw [setAll_eq, allOnes_sshiftRight, BitVec.and_allOnes, sshiftRight_toInt (by omega), same]
  cases type with
  | u32 | u64 => exact absurd narrow (by decide)
  | u8 | u16 => exact unmasked (BitVec.toNat_setWidth_of_le (by decide)) _

/-- Cutting a number off above the region changes nothing if it ends there. -/
theorem region_eq_iff {val : Nat} (ordered : low ≤ high) :
    val / 2 ^ low = val / 2 ^ low % 2 ^ (high - low + 1) ↔ val < 2 ^ (high + 1) := by
  have split : 2 ^ (high + 1) = 2 ^ (high - low + 1) * 2 ^ low := by
    rw [← Nat.pow_add]
    congr 1
    omega
  rw [split, ← Nat.div_lt_iff_lt_mul (Nat.two_pow_pos low), eq_comm]
  exact Nat.mod_eq_iff_lt (Nat.ne_of_gt (Nat.two_pow_pos _))

end Promotion

/-- The region macro is exact at the types of 32 and 64 bits, and at the narrow ones for operands
that end with the region: there the mask is a negative `int`, which shifting right leaves full. -/
theorem regionExact_iff (type : UnsignedType) (val : BitVec type.width) (low high : Nat)
    (ordered : low ≤ high) (within : high < type.width) :
    RegionExact type val low high ↔ 32 ≤ type.width ∨ val.toNat < 2 ^ (high + 1) := by
  by_cases wide : 32 ≤ type.width
  · refine iff_of_true ?_ (Or.inl wide)
    rw [RegionExact, getBitRegion_wide val wide, getBitRegion_toNat val ordered within]
  · rw [RegionExact, getBitRegion_narrow val (Nat.not_le.mp wide), Int.natCast_inj, region_eq_iff ordered]
    exact (or_iff_right wide).symm

theorem regionExact_iff_nibble : RegionExact .u8 0x14 2 4 ↔
    32 ≤ UnsignedType.u8.width ∨ (0x14 : BitVec UnsignedType.u8.width).toNat < 2 ^ (4 + 1) :=
  regionExact_iff .u8 0x14 2 4 (by decide) (by decide)

/-- The lowest bit of a byte of ones comes out as 255. -/
theorem regionExact_fails_byte : UnsignedType.u8.value (UnsignedType.u8.getBitRegion 0xFF 0 0) = 255 ∧
    ¬ RegionExact .u8 0xFF 0 0 := by
  have all : UnsignedType.u8.value (UnsignedType.u8.getBitRegion 0xFF 0 0) = 255 := by decide
  refine ⟨all, fun exact_ => ?_⟩
  have byte : (255 : Int) = 1 := all.symm.trans exact_
  exact absurd byte (by decide)

end Koshka
