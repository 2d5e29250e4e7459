import Koshka.Bitmanip
import Koshka.Data.Command
import Koshka.Data.Spread
import Mathlib.Data.Nat.Bitwise
import Mathlib.Data.Nat.Log
import Mathlib.Tactic.IntervalCases

namespace Koshka

open Data

/-- `val << count`, which C leaves undefined from the width of `val` on. -/
def shiftLeft (val : U64) (count : Int) : Except Fault U64 :=
  if 0 ≤ count ∧ count < 64 then .ok (val <<< count.toNat) else .error .shiftOutOfRange

/-- The counter of the loop is a `u8`, for which `i >= 0` always holds: past bit 0 it
continues with `i = 255`, and the source's `return -1` is never reached. -/
def highestBitSetFrom (x : U64) : Nat → U8 → Except Fault Int
  | 0, _ => .error .outOfFuel
  | fuel + 1, i =>
      if i.toNat < 64 then
        if asBool (getSingleBit x i.toNat) then .ok i.toNat else highestBitSetFrom x fuel (i - 1)
      else .error .shiftOutOfRange

def highestBitSet (x : U64) : Except Fault Int := highestBitSetFrom x 65 63

def ror (x : U64) (bitSize : U8) : (shift : Nat) → Except Fault U64
  | 0 => .ok x
  | shift + 1 => do
      let high ← shiftLeft x (bitSize.toNat - 1)
      ror (high ||| x >>> 1) bitSize shift

def fillPattern : (fuel : Nat) → (pattern : U64) → (size : U8) → Except Fault U64
  | 0, _, _ => .error .outOfFuel
  | fuel + 1, pattern, size =>
      if size ≠ 64 then do
        let copied ← shiftLeft pattern size.toNat
        fillPattern fuel (pattern ||| copied) (size * 2)
      else .ok pattern

def decodeBitMasks (immN : Bool) (imms immr : U8) (_immediate : Bool) : Except Fault U64 := do
  assert (imms.setWidth 64 ≤ maxValForSize 6)
  assert (immr.setWidth 64 ≤ maxValForSize 6)
  let len ← highestBitSet
    ((BitVec.ofBool immN).setWidth 64 <<< 6 ||| (~~~imms).setWidth 64 &&& maxValForSize 6)
  assert (0 < len)
  assert (len ≤ 6)
  let size := (1 : U8) <<< len.toNat
  let S := imms &&& (size - 1)
  let R := immr &&& (size - 1)
  assert (S ≠ size - 1)
  let ones ← shiftLeft 1 (S.toNat + 1)
  let pattern ← ror (ones - 1) size R.toNat
  fillPattern 7 pattern size

theorem highestBitSetFrom_ok {x : U64} (nonzero : x ≠ 0) (i : Nat) (fuel : Nat) (enough : i < fuel)
    (low : x.toNat < 2 ^ (i + 1)) (small : i < 64) :
    highestBitSetFrom x fuel (BitVec.ofNat 8 i) = .ok (x.toNat.log2 : Int) := by
  have positive : x.toNat ≠ 0 := fun zero => nonzero (BitVec.eq_of_toNat_eq zero)
  induction i generalizing fuel with
  | zero =>
      obtain ⟨fuel, rfl⟩ := Nat.exists_eq_add_of_lt enough
      have one : x.toNat = 1 := by omega
      have bit : x.getLsbD 0 = true := by simp [BitVec.getLsbD, one]
      have counter : (BitVec.ofNat 8 0).toNat = 0 := rfl
      rw [highestBitSetFrom, counter, if_pos small, asBool_getSingleBit _ _ (by decide), if_pos bit, one]
      rfl
  | succ i ih =>
      obtain ⟨fuel, rfl⟩ := Nat.exists_eq_add_of_lt enough
      have counter : (BitVec.ofNat 8 (i + 1)).toNat = i + 1 := by
        rw [BitVec.toNat_ofNat]
        omega
      rw [highestBitSetFrom, counter, if_pos small, asBool_getSingleBit _ _ (by decide)]
      by_cases bit : x.getLsbD (i + 1) = true
      · rw [if_pos bit]
        have high : 2 ^ (i + 1) ≤ x.toNat := Nat.ge_two_pow_of_testBit bit
        rw [(Nat.log2_eq_iff positive).mpr ⟨high, low⟩]
      · rw [if_neg bit]
        have clear : x.toNat.testBit (i + 1) = false := by
          simpa [BitVec.getLsbD] using bit
        have less : x.toNat < 2 ^ (i + 1) := by
          by_contra high
          have quotient : x.toNat / 2 ^ (i + 1) = 1 := by
            rw [Nat.pow_succ] at low
            exact Nat.div_eq_of_lt_le (by omega) (by omega)
          rw [Nat.testBit_eq_decide_div_mod_eq, quotient] at clear
          simp at clear
        have previous : BitVec.ofNat 8 (i + 1) - 1 = BitVec.ofNat 8 i := by
          apply BitVec.eq_of_toNat_eq
          rw [BitVec.toNat_sub, counter, BitVec.toNat_ofNat]
          change (2 ^ 8 - 1 + (i + 1)) % 2 ^ 8 = i % 2 ^ 8
          omega
        rw [previous]
        exact ih _ (by omega) less (by omega)

theorem highestBitSet_ok {x : U64} (nonzero : x ≠ 0) : highestBitSet x = .ok (x.toNat.log2 : Int) :=
  highestBitSetFrom_ok nonzero 63 65 (by omega) x.isLt (by omega)

theorem highestBitSet_zero : highestBitSet 0 = .error .shiftOutOfRange := by decide

theorem ror_spreads {element : Nat → Bool} {turns : Nat} {x : U64} {bitSize : U8} (shift : Nat)
    (positive : 0 < bitSize.toNat) (room : bitSize.toNat ≤ 64)
    (spreads : Spreads element bitSize.toNat turns bitSize.toNat x) :
    ∃ rotated, ror x bitSize shift = .ok rotated ∧
      Spreads element bitSize.toNat (turns + shift) bitSize.toNat rotated := by
  induction shift generalizing x turns with
  | zero => exact ⟨x, rfl, spreads⟩
  | succ shift ih =>
      have count : ((bitSize.toNat : Int) - 1).toNat = bitSize.toNat - 1 := by omega
      have shifted : shiftLeft x (bitSize.toNat - 1) = .ok (x <<< (bitSize.toNat - 1)) := by
        rw [shiftLeft, if_pos (by omega), count]
      obtain ⟨rotated, run, spreads⟩ := ih (spreads.rotate positive room)
      refine ⟨rotated, ?_, by rwa [Nat.add_assoc, Nat.add_comm 1 shift] at spreads⟩
      rw [ror, shifted]
      exact run

theorem fillPattern_spreads {element : Nat → Bool} {period turns : Nat} {pattern : U64} {size : U8}
    (gap fuel : Nat) (reach : size.toNat * 2 ^ gap = 64) (enough : gap < fuel)
    (whole : period ∣ size.toNat) (spreads : Spreads element period turns size.toNat pattern) :
    ∃ filled, fillPattern fuel pattern size = .ok filled ∧ Spreads element period turns 64 filled := by
  induction gap generalizing fuel pattern size with
  | zero =>
      obtain ⟨fuel, rfl⟩ := Nat.exists_eq_add_of_lt enough
      have full : size.toNat = 64 := by simpa using reach
      have done : size = 64 := BitVec.eq_of_toNat_eq full
      rw [full] at spreads
      exact ⟨pattern, by rw [fillPattern, if_neg (not_not.mpr done)], spreads⟩
  | succ gap ih =>
      obtain ⟨fuel, rfl⟩ := Nat.exists_eq_add_of_lt enough
      rw [Nat.pow_succ, Nat.mul_comm (2 ^ gap), ← Nat.mul_assoc] at reach
      have half : size.toNat * 2 ≤ 64 := Nat.le_of_dvd (by omega) ⟨2 ^ gap, reach.symm⟩
      have more : size ≠ 64 := by
        intro equal
        subst equal
        exact absurd half (by decide)
      have doubled : (size * 2).toNat = size.toNat + size.toNat := by
        rw [BitVec.toNat_mul]
        change size.toNat * 2 % 2 ^ 8 = _
        omega
      have shifted : shiftLeft pattern size.toNat = .ok (pattern <<< size.toNat) := by
        rw [shiftLeft, if_pos (by omega), Int.toNat_natCast]
      obtain ⟨filled, run, spreads⟩ := ih (gap + 1 + fuel)
        (by rw [doubled, ← Nat.mul_two]; exact reach) (by omega)
        (by rw [doubled]; exact Nat.dvd_add whole whole)
        (by rw [doubled]; exact spreads.double whole (by omega))
      refine ⟨filled, ?_, spreads⟩
      rw [fillPattern, if_pos more, shifted]
      exact run

/-- Rotating an element that fits below `bitSize` and doubling it up to 64 bits: the stray bits that
`ROR` leaves above the element stand where the copies put the same bits later. -/
theorem rotateAndFill_ok {x : U64} {bitSize : U8} {gap : Nat} (shift : Nat)
    (reach : bitSize.toNat * 2 ^ gap = 64) (short : gap < 7) (fits : x.toNat < 2 ^ bitSize.toNat) :
    ∃ rotated filled, ror x bitSize shift = .ok rotated ∧ fillPattern 7 rotated bitSize = .ok filled ∧
      ∀ bit < 64, filled.getLsbD bit = x.getLsbD ((bit + shift) % bitSize.toNat) := by
  have positive : 0 < bitSize.toNat := by
    by_contra zero
    rw [Nat.eq_zero_of_not_pos zero, Nat.zero_mul] at reach
    omega
  have room : bitSize.toNat ≤ 64 := Nat.le_of_dvd (by omega) ⟨2 ^ gap, reach.symm⟩
  have start : Spreads x.getLsbD bitSize.toNat 0 bitSize.toNat x :=
    .start fun bit isSet => by
      by_contra above
      have clear : x.getLsbD bit = false :=
        Nat.testBit_lt_two_pow (Nat.lt_of_lt_of_le fits (Nat.pow_le_pow_right (by omega) (by omega)))
      simp [clear] at isSet
  obtain ⟨rotated, rotation, turned⟩ := ror_spreads shift positive room start
  obtain ⟨filled, copies, spread⟩ := fillPattern_spreads gap 7 reach short dvd_rfl turned
  refine ⟨rotated, filled, rotation, copies, fun bit inside => ?_⟩
  rw [spread.getLsbD inside, Nat.zero_add]

/-- The highest set bit of `N:NOT(imms)`; 0 also when no bit is set. -/
def maskLength (immN : Bool) (imms : BitVec 6) : Nat := (BitVec.ofBool immN ++ ~~~imms).toNat.log2

/-- The values of `N:imms` that name no mask: elements of less than two bits, or of ones only. -/
def MaskReserved (immN : Bool) (imms : BitVec 6) : Prop :=
  maskLength immN imms < 1 ∨ imms.toNat % 2 ^ maskLength immN imms = 2 ^ maskLength immN imms - 1

instance (immN : Bool) (imms : BitVec 6) : Decidable (MaskReserved immN imms) :=
  inferInstanceAs (Decidable (_ ∨ _))

/-- Bit `bit` of the mask: the element is a run of `imms + 1` ones, rotated right by `immr`. -/
def maskBit (immN : Bool) (imms immr : BitVec 6) (bit : Nat) : Bool :=
  decide ((bit + immr.toNat) % 2 ^ maskLength immN imms ≤ imms.toNat % 2 ^ maskLength immN imms)

def mask (immN : Bool) (imms immr : BitVec 6) : U64 :=
  BitVec.ofBoolListLE ((List.range 64).map (maskBit immN imms immr))

section Mask

variable {immN : Bool} {imms immr : BitVec 6}

theorem mask_getLsbD {bit : Nat} (inside : bit < 64) :
    (mask immN imms immr).getLsbD bit = maskBit immN imms immr bit := by
  have read : (mask immN imms immr).getLsbD bit =
      ((List.range 64).map (maskBit immN imms immr)).getD bit false := BitVec.getLsbD_ofBoolListLE
  rw [read]
  simp [inside]

theorem maskBit_start : ∃ bit, bit < 2 ^ maskLength immN imms ∧ maskBit immN imms immr bit = true := by
  have positive := Nat.two_pow_pos (maskLength immN imms)
  refine ⟨(2 ^ maskLength immN imms - immr.toNat % 2 ^ maskLength immN imms) % 2 ^ maskLength immN imms,
    Nat.mod_lt _ positive, ?_⟩
  have turned := Nat.mod_lt immr.toNat positive
  have whole : 2 ^ maskLength immN imms - immr.toNat % 2 ^ maskLength immN imms +
      immr.toNat % 2 ^ maskLength immN imms = 2 ^ maskLength immN imms := by omega
  rw [maskBit, decide_eq_true_eq, Nat.mod_add_mod, ← Nat.add_mod_mod, whole, Nat.mod_self]
  exact Nat.zero_le _

theorem maskLength_le : maskLength immN imms ≤ 6 := by
  have bound := (BitVec.ofBool immN ++ ~~~imms).isLt
  have less : (BitVec.ofBool immN ++ ~~~imms).toNat < 2 ^ 7 := bound
  by_cases zero : (BitVec.ofBool immN ++ ~~~imms).toNat = 0
  · simp [maskLength, zero]
  · exact Nat.le_of_lt_succ ((Nat.log2_lt zero).mpr less)

theorem maskLength_narrow : maskLength false imms ≤ 5 := by
  unfold maskLength
  revert imms
  decide

theorem mask_ne_zero : mask immN imms immr ≠ 0 := by
  intro zero
  obtain ⟨bit, below, isSet⟩ : ∃ bit, bit < 2 ^ maskLength immN imms ∧
    maskBit immN imms immr bit = true :=
    maskBit_start
  have power : 2 ^ maskLength immN imms ≤ 2 ^ 6 := Nat.pow_le_pow_right (by decide) maskLength_le
  rw [← mask_getLsbD (by omega), zero] at isSet
  simp at isSet

theorem mask_low_ne_zero : (mask false imms immr).setWidth 32 ≠ 0 := by
  intro zero
  obtain ⟨bit, below, isSet⟩ : ∃ bit, bit < 2 ^ maskLength false imms ∧
    maskBit false imms immr bit = true :=
    maskBit_start
  have power : 2 ^ maskLength false imms ≤ 2 ^ 5 := Nat.pow_le_pow_right (by decide) maskLength_narrow
  have low := congrArg (·.getLsbD bit) zero
  rw [← mask_getLsbD (by omega)] at isSet
  simp [isSet, show bit < 32 by omega] at low

theorem maskLength_wide : maskLength true imms = 6 := by
  unfold maskLength
  revert imms
  decide

/-- The masks of 64 bits that a `u32` holds: a single run of ones that stays in the lower half. -/
theorem mask_lowHalf_iff : ((mask immN imms immr).setWidth 32).setWidth 64 = mask immN imms immr ↔
    immN = true ∧ ((immr = 0 ∧ imms.toNat < 32) ∨ imms.toNat + 33 ≤ immr.toNat) := by
  have halves : ((mask immN imms immr).setWidth 32).setWidth 64 = mask immN imms immr ↔
      ∀ bit < 64, 32 ≤ bit → maskBit immN imms immr bit = false := by
    constructor
    · intro same bit inside high
      rw [← mask_getLsbD inside, ← same]
      simp [show ¬ bit < 32 by omega]
    · intro clear
      apply BitVec.eq_of_getLsbD_eq
      intro bit inside
      by_cases high : 32 ≤ bit
      · rw [mask_getLsbD inside, clear bit inside high]
        simp [show ¬ bit < 32 by omega]
      · simp [inside, show bit < 32 by omega]
  have first := imms.isLt
  have turned := immr.isLt
  have unturned : immr = 0 ↔ immr.toNat = 0 := BitVec.toNat_inj.symm
  rw [halves, unturned]
  cases immN with
  | false =>
      -- a shorter element comes again in the upper half
      obtain ⟨bit, below, isSet⟩ : ∃ bit, bit < 2 ^ maskLength false imms ∧
        maskBit false imms immr bit = true := maskBit_start
      have short : 2 ^ maskLength false imms ≤ 2 ^ 5 := Nat.pow_le_pow_right (by decide) maskLength_narrow
      obtain ⟨copies, whole⟩ : 2 ^ maskLength false imms ∣ 2 ^ 5 := Nat.pow_dvd_pow 2 maskLength_narrow
      have again : maskBit false imms immr (bit + 2 ^ 5) = true := by
        rw [maskBit, Nat.add_right_comm, whole, Nat.add_mul_mod_self_left]
        exact isSet
      refine iff_of_false (fun clear => ?_) (by simp)
      rw [clear (bit + 2 ^ 5) (by omega) (by omega)] at again
      cases again
  | true =>
      simp only [maskBit, maskLength_wide, decide_eq_false_iff_not, true_and]
      constructor
      · intro clear
        by_cases zero : immr.toNat = 0
        · have start := clear 32 (by omega) (by omega)
          omega
        by_cases low : immr.toNat ≤ 32
        · exact absurd (by omega) (clear (64 - immr.toNat) (by omega) (by omega))
        · have start := clear 32 (by omega) (by omega)
          omega
      · intro inside bit bound high
        omega

theorem lengthBits_eq :
    (BitVec.ofBool immN).setWidth 64 <<< 6 ||| (~~~imms.setWidth 8).setWidth 64 &&& maxValForSize 6 =
      (BitVec.ofBool immN ++ ~~~imms).setWidth 64 := by
  revert imms
  cases immN <;> decide

theorem ones_toNat {count : Nat} (small : count < 64) :
    ((1 : U64) <<< count - 1).toNat = 2 ^ count - 1 := by
  have bound : 2 ^ count < 2 ^ 64 := Nat.pow_lt_pow_right (by omega) small
  have positive := Nat.two_pow_pos count
  have shifted : ((1 : U64) <<< count).toNat = 2 ^ count := by
    rw [BitVec.toNat_shiftLeft, Nat.shiftLeft_eq]
    change 1 * 2 ^ count % 2 ^ 64 = _
    omega
  rw [BitVec.toNat_sub, shifted]
  change (2 ^ 64 - 1 + 2 ^ count) % 2 ^ 64 = _
  omega

theorem ones_getLsbD {count bit : Nat} (small : count < 64) :
    ((1 : U64) <<< count - 1).getLsbD bit = decide (bit < count) := by
  rw [BitVec.getLsbD, ones_toNat small, Nat.testBit_two_pow_sub_one]

theorem sixBits_le (field : BitVec 6) : (field.setWidth 8).setWidth 64 ≤ maxValForSize 6 := by
  revert field
  decide

theorem sixBits_setWidth {field : U8} (fits : field.toNat < 64) :
    (field.setWidth 6).setWidth 8 = field := by
  apply BitVec.eq_of_toNat_eq
  rw [BitVec.toNat_setWidth, BitVec.toNat_setWidth]
  omega

theorem elementSize_toNat {len : Nat} (short : len ≤ 6) : ((1 : U8) <<< len).toNat = 2 ^ len := by
  interval_cases len <;> rfl

theorem lowField_toNat (field : BitVec 6) {len : Nat} (short : len ≤ 6) :
    (field.setWidth 8 &&& ((1 : U8) <<< len - 1)).toNat = field.toNat % 2 ^ len := by
  revert field
  interval_cases len <;> decide

theorem lastField_eq (field : BitVec 6) {len : Nat} (short : len ≤ 6) :
    field.setWidth 8 &&& ((1 : U8) <<< len - 1) = (1 : U8) <<< len - 1 ↔
      field.toNat % 2 ^ len = 2 ^ len - 1 := by
  rw [← BitVec.toNat_inj, lowField_toNat field short]
  interval_cases len <;> rfl

theorem maskLoops_ok {len : Nat} (immr : BitVec 6) (length : maskLength immN imms = len)
    (positive : 1 ≤ len)
    (allocated : imms.toNat % 2 ^ len ≠ 2 ^ len - 1) :
    ∃ ones, shiftLeft 1 ((imms.toNat % 2 ^ len : Nat) + 1) = .ok ones ∧
      ∃ rotated, ror (ones - 1) ((1 : U8) <<< len) (immr.toNat % 2 ^ len) = .ok rotated ∧
        fillPattern 7 rotated ((1 : U8) <<< len) = .ok (mask immN imms immr) := by
  have short : len ≤ 6 := length ▸ maskLength_le
  have size := elementSize_toNat short
  have power : 2 ^ len ≤ 2 ^ 6 := Nat.pow_le_pow_right (by omega) short
  have elements : 0 < 2 ^ len := Nat.two_pow_pos len
  have below : imms.toNat % 2 ^ len < 2 ^ len := Nat.mod_lt _ elements
  have narrow : imms.toNat % 2 ^ len + 1 < 64 := by omega
  have fits : ((1 : U64) <<< (imms.toNat % 2 ^ len + 1) - 1).toNat < 2 ^ ((1 : U8) <<< len).toNat := by
    rw [ones_toNat narrow, size]
    have wider : 2 ^ (imms.toNat % 2 ^ len + 1) ≤ 2 ^ 2 ^ len :=
      Nat.pow_le_pow_right (by omega) (by omega)
    have least := Nat.two_pow_pos (imms.toNat % 2 ^ len + 1)
    omega
  have reach : ((1 : U8) <<< len).toNat * 2 ^ (6 - len) = 64 := by
    rw [size, ← Nat.pow_add, Nat.add_sub_of_le short]
  obtain ⟨rotated, filled, rotation, copies, bits⟩ :=
    rotateAndFill_ok (immr.toNat % 2 ^ len) reach (by omega) fits
  have shifted : shiftLeft 1 ((imms.toNat % 2 ^ len : Nat) + 1) =
      .ok ((1 : U64) <<< (imms.toNat % 2 ^ len + 1)) := by
    rw [shiftLeft, if_pos (by omega)]
    rfl
  refine ⟨_, shifted, rotated, rotation, copies.trans (congrArg Except.ok ?_)⟩
  apply BitVec.eq_of_getLsbD_eq
  intro bit inside
  rw [bits bit inside, ones_getLsbD narrow, mask_getLsbD inside, maskBit, length, size, Nat.add_mod_mod]
  exact decide_eq_decide.mpr Nat.lt_succ_iff

theorem lengthBits_zero_iff : (BitVec.ofBool immN ++ ~~~imms).toNat = 0 ↔ immN = false ∧ imms = 63 := by
  revert imms
  cases immN <;> decide

theorem highestBitSet_lengthBits : highestBitSet ((BitVec.ofBool immN ++ ~~~imms).setWidth 64) =
    if immN = false ∧ imms = 63 then .error .shiftOutOfRange else .ok (maskLength immN imms : Int) := by
  have value : ((BitVec.ofBool immN ++ ~~~imms).setWidth 64).toNat =
      (BitVec.ofBool immN ++ ~~~imms).toNat := by
    have bound := (BitVec.ofBool immN ++ ~~~imms).isLt
    rw [BitVec.toNat_setWidth]
    omega
  split
  · rename_i empty
    have zero : (BitVec.ofBool immN ++ ~~~imms).setWidth 64 = (0 : U64) :=
      BitVec.eq_of_toNat_eq (value.trans (lengthBits_zero_iff.mpr empty))
    rw [zero, highestBitSet_zero]
  · rename_i someBit
    have nonzero : (BitVec.ofBool immN ++ ~~~imms).setWidth 64 ≠ (0 : U64) := by
      intro zero
      rw [zero] at value
      exact someBit (lengthBits_zero_iff.mp value.symm)
    rw [highestBitSet_ok nonzero, value]
    rfl

/-- Decoding accepts what is not reserved, and gives the mask of the architecture.  The
reserved values stop it at an assert, but for the one that has no length at all. -/
theorem decodeBitMasks_run (immediate : Bool) :
    decodeBitMasks immN (imms.setWidth 8) (immr.setWidth 8) immediate =
      if MaskReserved immN imms then
        .error (if immN = false ∧ imms = 63 then .shiftOutOfRange else .assertFailed)
      else .ok (mask immN imms immr) := by
  have short : maskLength immN imms ≤ 6 := maskLength_le
  rw [decodeBitMasks, lengthBits_eq, highestBitSet_lengthBits, assert_true (sixBits_le imms),
    assert_true (sixBits_le immr)]
  by_cases empty : immN = false ∧ imms = 63
  · have reserved : MaskReserved immN imms := by
      left
      rw [maskLength, lengthBits_zero_iff.mpr empty]
      decide
    rw [if_pos empty, if_pos empty, if_pos reserved]
    rfl
  · rw [if_neg empty, if_neg empty]
    simp only [ok_bind]
    by_cases reserved : MaskReserved immN imms
    · rw [if_pos reserved]
      by_cases positive : 1 ≤ maskLength immN imms
      · have ones : imms.toNat % 2 ^ maskLength immN imms = 2 ^ maskLength immN imms - 1 :=
          reserved.resolve_left (by omega)
        rw [assert_true (by omega), assert_true (by omega), Int.toNat_natCast]
        simp only [ok_bind]
        rw [assert_false (not_not.mpr ((lastField_eq imms short).mpr ones))]
        rfl
      · rw [assert_false (by omega)]
        rfl
    · rw [if_neg reserved]
      obtain ⟨positive, allocated⟩ := not_or.mp reserved
      obtain ⟨ones, shifted, rotated, rotation, copies⟩ := maskLoops_ok immr rfl (by omega) allocated
      rw [assert_true (by omega), assert_true (by omega), Int.toNat_natCast]
      simp only [ok_bind]
      have notLast : imms.setWidth 8 &&& ((1 : U8) <<< maskLength immN imms - 1) ≠
          (1 : U8) <<< maskLength immN imms - 1 :=
            fun last => allocated ((lastField_eq imms short).mp last)
      rw [assert_true notLast, lowField_toNat _ short, lowField_toNat _ short, shifted]
      simp only [ok_bind]
      rw [rotation]
      exact copies

theorem decodeBitMasks_eq {immediate : Bool} {pattern : U64} :
    decodeBitMasks immN (imms.setWidth 8) (immr.setWidth 8) immediate = .ok pattern ↔
      ¬ MaskReserved immN imms ∧ mask immN imms immr = pattern := by
  rw [decodeBitMasks_run]
  split
  · rename_i reserved
    simp [reserved]
  · rename_i allocated
    simp [allocated]

end Mask

theorem ror_keeps_stray_bits : ror 2 2 1 = .ok 5 := by decide

/-- The element is repeated, rotated, all over the pattern, in both loops and in the whole function. -/
theorem decodeBitMasks_bits :
    (∀ k, 1 ≤ k → k ≤ 6 → ∀ (x : U64) (turns : Nat), x.toNat < 2 ^ 2 ^ k → turns < 2 ^ k →
      ∃ rotated filled, ror x (BitVec.ofNat 8 (2 ^ k)) turns = .ok rotated ∧
        fillPattern 7 rotated (BitVec.ofNat 8 (2 ^ k)) = .ok filled ∧
        ∀ bit < 64, filled.getLsbD bit = x.getLsbD ((bit + turns) % 2 ^ k)) ∧
    (∃ (k : Nat) (x rotated : U64) (turns : Nat), 1 ≤ k ∧ k ≤ 6 ∧ x.toNat < 2 ^ 2 ^ k ∧ turns < 2 ^ k ∧
      ror x (BitVec.ofNat 8 (2 ^ k)) turns = .ok rotated ∧ 2 ^ 2 ^ k ≤ rotated.toNat) ∧
    ∀ (immN immediate : Bool) (imms immr : U8), imms.toNat < 64 → immr.toNat < 64 →
      ((∃ pattern, decodeBitMasks immN imms immr immediate = .ok pattern) ↔
        ¬ MaskReserved immN (imms.setWidth 6)) ∧
      ∀ pattern, decodeBitMasks immN imms immr immediate = .ok pattern →
        ∀ bit < 64, pattern.getLsbD bit =
          decide ((bit + immr.toNat % 2 ^ maskLength immN (imms.setWidth 6)) %
              2 ^ maskLength immN (imms.setWidth 6) ≤
            imms.toNat % 2 ^ maskLength immN (imms.setWidth 6)) := by
  refine ⟨?loops, ⟨1, 2, 5, 1,
    by decide, by decide, by decide, by decide, ror_keeps_stray_bits, by decide⟩, ?masks⟩
  case loops =>
    intro k positive short x turns fits _
    have power : 2 ^ k ≤ 2 ^ 6 := Nat.pow_le_pow_right (by omega) short
    have size : (BitVec.ofNat 8 (2 ^ k)).toNat = 2 ^ k := by
      rw [BitVec.toNat_ofNat]
      omega
    have reach : (BitVec.ofNat 8 (2 ^ k)).toNat * 2 ^ (6 - k) = 64 := by
      rw [size, ← Nat.pow_add, Nat.add_sub_of_le short]
    obtain ⟨rotated, filled, rotation, copies, bits⟩ :=
      rotateAndFill_ok turns reach (by omega) (by rwa [size])
    exact ⟨rotated, filled, rotation, copies, by rwa [size] at bits⟩
  case masks =>
    intro immN immediate imms immr immsFits immrFits
    have immsField : (imms.setWidth 6).setWidth 8 = imms := sixBits_setWidth immsFits
    have immrField : (immr.setWidth 6).setWidth 8 = immr := sixBits_setWidth immrFits
    have value : (imms.setWidth 6).toNat = imms.toNat := by rw [BitVec.toNat_setWidth]; omega
    have turns : (immr.setWidth 6).toNat = immr.toNat := by rw [BitVec.toNat_setWidth]; omega
    have decoded : ∀ pattern, decodeBitMasks immN imms immr immediate = .ok pattern ↔
        ¬ MaskReserved immN (imms.setWidth 6) ∧
        mask immN (imms.setWidth 6) (immr.setWidth 6) = pattern := by
      intro pattern
      have run : decodeBitMasks immN ((imms.setWidth 6).setWidth 8) ((immr.setWidth 6).setWidth 8) immediate =
          .ok pattern ↔ _ := decodeBitMasks_eq
      rwa [immsField, immrField] at run
    refine ⟨by simp only [decoded, exists_and_left, exists_eq', and_true], ?_⟩
    intro pattern run bit inside
    obtain ⟨_, rfl⟩ := (decoded pattern).mp run
    rw [mask_getLsbD inside, maskBit, value, turns, Nat.add_mod_mod]

/-- The element of sixteen bits with its four low bits set, rotated by three. -/
theorem decodeBitMasks_bits_element :
    (∃ rotated filled, ror 15 (BitVec.ofNat 8 (2 ^ 4)) 3 = .ok rotated ∧
      fillPattern 7 rotated (BitVec.ofNat 8 (2 ^ 4)) = .ok filled ∧
      ∀ bit < 64, filled.getLsbD bit = (15 : U64).getLsbD ((bit + 3) % 2 ^ 4)) ∧
    ((∃ pattern, decodeBitMasks false 0x23 3 true = .ok pattern) ↔ ¬ MaskReserved false 0x23) ∧
    ∀ bit < 64, (0xE001E001E001E001 : U64).getLsbD bit = decide ((bit + 3 % 2 ^ 4) % 2 ^ 4 ≤ 3) :=
  ⟨decodeBitMasks_bits.1 4 (by decide) (by decide) 15 3 (by decide) (by decide),
    (decodeBitMasks_bits.2.2 false true 0x23 3 (by decide) (by decide)).1,
    (decodeBitMasks_bits.2.2 false true 0x23 3 (by decide) (by decide)).2 _ (by decide)⟩

end Koshka
