import Koshka.ArmAsl
import Koshka.Data.Cyclic
import Mathlib.Data.Set.Card

namespace Koshka

open Data

def repeated (value : U64) (bit : Nat) : Bool := value.getLsbD (bit % 64)

/-- The element that the fields describe: its length, its last bit that is set, and its rotation. -/
structure MaskElement where
  len : Nat
  last : Nat
  turns : Nat
deriving Repr, DecidableEq

def MaskElement.of (immN : Bool) (imms immr : BitVec 6) : MaskElement where
  len := maskLength immN imms
  last := imms.toNat % 2 ^ maskLength immN imms
  turns := immr.toNat % 2 ^ maskLength immN imms

/-- An element of at least two bits, not all of them set. -/
structure MaskElement.Valid (element : MaskElement) : Prop where
  long : 1 ≤ element.len
  short : element.len ≤ 6
  ones : element.last + 1 < 2 ^ element.len
  turned : element.turns < 2 ^ element.len

def MaskElement.bits (element : MaskElement) : Nat → Bool :=
  circularRun (2 ^ element.len) (element.last + 1) element.turns

/-- Fields of the element. -/
def MaskElement.immN (element : MaskElement) : Bool := decide (element.len = 6)

def MaskElement.imms (element : MaskElement) : BitVec 6 :=
  BitVec.ofNat 6 (64 - 2 ^ (element.len + 1) + element.last)

def MaskElement.immr (element : MaskElement) : BitVec 6 := BitVec.ofNat 6 element.turns

section Masks

variable {immN : Bool} {imms immr : BitVec 6} {value other : U64} {element another : MaskElement}

theorem repeated_inj : repeated value = repeated other ↔ value = other := by
  constructor
  · intro same
    apply BitVec.eq_of_getLsbD_eq
    intro bit inside
    have bits := congrFun same bit
    rwa [repeated, repeated, Nat.mod_eq_of_lt inside] at bits
  · rintro rfl
    rfl

theorem MaskElement.of_valid (allocated : ¬ MaskReserved immN imms) :
    (MaskElement.of immN imms immr).Valid := by
  obtain ⟨long, ones⟩ := not_or.mp allocated
  have positive := Nat.two_pow_pos (maskLength immN imms)
  have below := Nat.mod_lt imms.toNat positive
  have last : imms.toNat % 2 ^ maskLength immN imms + 1 < 2 ^ maskLength immN imms := by omega
  exact ⟨Nat.not_lt.mp long, maskLength_le, last, Nat.mod_lt _ positive⟩

/-- A mask repeats its element. -/
theorem repeated_mask : repeated (mask immN imms immr) = (MaskElement.of immN imms immr).bits := by
  funext bit
  have short : maskLength immN imms ≤ 6 := maskLength_le
  have whole : 2 ^ maskLength immN imms ∣ 64 := Nat.pow_dvd_pow 2 short
  have bits : (bit % 64 + immr.toNat) % 2 ^ maskLength immN imms =
      (bit + immr.toNat % 2 ^ maskLength immN imms) % 2 ^ maskLength immN imms := by
    rw [Nat.add_mod_mod, ← Nat.mod_add_mod, Nat.mod_mod_of_dvd _ whole, Nat.mod_add_mod]
  rw [repeated, mask_getLsbD (Nat.mod_lt _ (by decide)), maskBit, bits]
  exact decide_eq_decide.mpr Nat.lt_succ_iff.symm

theorem MaskElement.Valid.single (valid : element.Valid) : SingleRun element.bits (2 ^ element.len) :=
  circularRun_single (Nat.add_one_pos _) valid.ones

theorem MaskElement.bits_inj (valid : element.Valid) (validOther : another.Valid) :
    element.bits = another.bits ↔ element = another := by
  obtain ⟨len, last, turns⟩ := element
  obtain ⟨len', last', turns'⟩ := another
  rw [MaskElement.bits, MaskElement.bits, circularRun_inj (Nat.add_one_pos _) valid.ones valid.turned
    (Nat.add_one_pos _) validOther.ones validOther.turned, MaskElement.mk.injEq, Nat.add_right_cancel_iff,
    Nat.pow_right_inj (Nat.le_refl 2)]

theorem elementFields_last {len : Nat} (long : 1 ≤ len) (short : len ≤ 6) : ∀ last < 2 ^ len - 1,
    maskLength (decide (len = 6)) (BitVec.ofNat 6 (64 - 2 ^ (len + 1) + last)) = len ∧
      (BitVec.ofNat 6 (64 - 2 ^ (len + 1) + last)).toNat % 2 ^ len = last := by
  interval_cases len <;> decide +kernel

/-- Every element has fields. -/
theorem MaskElement.Valid.fields (valid : element.Valid) :
    MaskElement.of element.immN element.imms element.immr = element ∧
      ¬ MaskReserved element.immN element.imms := by
  obtain ⟨len, last, turns⟩ := element
  obtain ⟨long, short, ones, turned⟩ := valid
  change 1 ≤ len at long
  change len ≤ 6 at short
  change last + 1 < 2 ^ len at ones
  change turns < 2 ^ len at turned
  obtain ⟨length, low⟩ := elementFields_last long short last (by omega)
  have power : 2 ^ len ≤ 2 ^ 6 := Nat.pow_le_pow_right (by decide) short
  have rotation : (BitVec.ofNat 6 turns).toNat % 2 ^ len = turns := by
    rw [BitVec.toNat_ofNat, Nat.mod_eq_of_lt (show turns < 2 ^ 6 by omega), Nat.mod_eq_of_lt turned]
  simp only [MaskElement.of, MaskElement.immN, MaskElement.imms, MaskElement.immr, MaskReserved, length, low,
    rotation, not_or]
  exact ⟨trivial, by omega, by omega⟩

/-- What goes through the asserts is of six bits, and allocated. -/
theorem decodeBitMasks_ok_iff {imms immr : U8} {immediate : Bool} :
    decodeBitMasks immN imms immr immediate = .ok value ↔ imms.toNat < 64 ∧ immr.toNat < 64 ∧
      ¬ MaskReserved immN (imms.setWidth 6) ∧ mask immN (imms.setWidth 6) (immr.setWidth 6) = value := by
  have small {field : U8} : field.setWidth 64 ≤ maxValForSize 6 ↔ field.toNat < 64 := by
    have limit : (maxValForSize 6).toNat = 63 := rfl
    rw [BitVec.le_def, limit, BitVec.toNat_setWidth, Nat.mod_eq_of_lt (by have := field.isLt; omega)]
    omega
  constructor
  · intro run
    have checked := run
    simp only [decodeBitMasks, bind_eq_ok, assert_eq_ok] at checked
    obtain ⟨_, immsSmall, _, immrSmall, -⟩ := checked
    rw [small] at immsSmall immrSmall
    rw [← sixBits_setWidth immsSmall, ← sixBits_setWidth immrSmall] at run
    exact ⟨immsSmall, immrSmall, decodeBitMasks_eq.mp run⟩
  · intro fits
    obtain ⟨immsSmall, immrSmall, decoded⟩ := fits
    have run : decodeBitMasks immN ((imms.setWidth 6).setWidth 8) ((immr.setWidth 6).setWidth 8) immediate =
        .ok value := decodeBitMasks_eq.mpr decoded
    rwa [sixBits_setWidth immsSmall, sixBits_setWidth immrSmall] at run

theorem element_decoded (valid : element.Valid) (immediate : Bool) :
    ∃ value, decodeBitMasks element.immN (element.imms.setWidth 8) (element.immr.setWidth 8) immediate =
      .ok value ∧ repeated value = element.bits := by
  obtain ⟨same, allocated⟩ := valid.fields
  exact ⟨_, decodeBitMasks_eq.mpr ⟨allocated, rfl⟩, by rw [repeated_mask, same]⟩

theorem decoded_element {imms immr : U8} {immediate : Bool}
    (run : decodeBitMasks immN imms immr immediate = .ok value) :
    (MaskElement.of immN (imms.setWidth 6) (immr.setWidth 6)).Valid ∧
      repeated value = (MaskElement.of immN (imms.setWidth 6) (immr.setWidth 6)).bits := by
  obtain ⟨_, _, allocated, rfl⟩ := decodeBitMasks_ok_iff.mp run
  exact ⟨MaskElement.of_valid allocated, repeated_mask⟩

end Masks

/-- The values that decoding can return. -/
def BitmaskImmediate (value : U64) : Prop :=
  ∃ immN imms immr immediate, decodeBitMasks immN imms immr immediate = .ok value

theorem bitmaskImmediate_iff_element {value : U64} :
    BitmaskImmediate value ↔ ∃ element : MaskElement, element.Valid ∧ repeated value = element.bits := by
  constructor
  · rintro ⟨_, _, _, _, run⟩
    exact ⟨_, decoded_element run⟩
  · rintro ⟨element, valid, bits⟩
    obtain ⟨decoded, run, same⟩ := element_decoded valid true
    cases repeated_inj.mp (bits.trans same.symm)
    exact ⟨_, _, _, _, run⟩

/-- Decoding reaches exactly the values whose bits repeat a single run of ones. -/
theorem bitmaskImmediate_iff (value : U64) :
    BitmaskImmediate value ↔ ∃ len, 1 ≤ len ∧ len ≤ 6 ∧ SingleRun (repeated value) (2 ^ len) := by
  rw [bitmaskImmediate_iff_element]
  constructor
  · rintro ⟨element, valid, bits⟩
    exact ⟨element.len, valid.long, valid.short, bits ▸ valid.single⟩
  · rintro ⟨len, long, short, single⟩
    obtain ⟨width, turns, some', ones, turned, bits⟩ := single.eq_circularRun (Nat.two_pow_pos len)
    refine ⟨⟨len, width - 1, turns⟩, ⟨long, short, ?_, turned⟩, ?_⟩
    · change width - 1 + 1 < 2 ^ len
      omega
    · rw [bits, MaskElement.bits, Nat.sub_add_cancel some']

section Count

/-- The elements of these lengths. -/
def maskElements (lengths : Finset Nat) : Finset (Σ _ : Nat, Nat × Nat) :=
  lengths.sigma fun len => Finset.range (2 ^ len - 1) ×ˢ Finset.range (2 ^ len)

def tripleElement (triple : Σ _ : Nat, Nat × Nat) : MaskElement := ⟨triple.1, triple.2.1, triple.2.2⟩

def elementMask (element : MaskElement) : U64 := mask element.immN element.imms element.immr

variable {lengths : Finset Nat} {triple : Σ _ : Nat, Nat × Nat}

theorem tripleElement_injective : Function.Injective tripleElement := by
  intro triple other same
  obtain ⟨len, last, turns⟩ := triple
  obtain ⟨len', last', turns'⟩ := other
  cases same
  rfl

theorem mem_maskElements (inside : ∀ len, len ∈ lengths ↔ 1 ≤ len ∧ len ≤ 6) :
    triple ∈ maskElements lengths ↔ (tripleElement triple).Valid := by
  rw [maskElements, Finset.mem_sigma, Finset.mem_product, Finset.mem_range, Finset.mem_range, inside]
  constructor
  · rintro ⟨⟨long, short⟩, last, turned⟩
    exact ⟨long, short, Nat.add_lt_of_lt_sub last, turned⟩
  · intro valid
    exact ⟨⟨valid.long, valid.short⟩, Nat.lt_sub_of_add_lt valid.ones, valid.turned⟩

theorem MaskElement.Valid.repeated {element : MaskElement} (valid : element.Valid) :
    Koshka.repeated (elementMask element) = element.bits := by
  rw [elementMask, repeated_mask, valid.fields.1]

theorem maskElements_card : (maskElements (Finset.Icc 1 6)).card = 5334 := by
  simp only [maskElements, Finset.card_sigma, Finset.card_product, Finset.card_range]
  rfl

theorem bitmaskImmediate_ncard : {value | BitmaskImmediate value}.ncard = 5334 := by
  obtain ⟨lengths, inside, count⟩ : ∃ lengths : Finset Nat, (∀ len, len ∈ lengths ↔ 1 ≤ len ∧ len ≤ 6) ∧
      (maskElements lengths).card = 5334 := ⟨Finset.Icc 1 6, fun _ => Finset.mem_Icc, maskElements_card⟩
  have image : {value | BitmaskImmediate value} =
      (fun triple => elementMask (tripleElement triple)) '' maskElements lengths := by
    ext value
    rw [Set.mem_ofPred_eq, bitmaskImmediate_iff_element, Set.mem_image]
    constructor
    · rintro ⟨element, valid, bits⟩
      have member : ⟨element.len, element.last, element.turns⟩ ∈ maskElements lengths :=
        (mem_maskElements inside).mpr valid
      exact ⟨_, member, repeated_inj.mp (valid.repeated.trans bits.symm)⟩
    · rintro ⟨triple, member, rfl⟩
      have valid := (mem_maskElements inside).mp member
      exact ⟨_, valid, valid.repeated⟩
  have injective : Set.InjOn (fun triple => elementMask (tripleElement triple)) (maskElements lengths) := by
    intro triple member other memberOther same
    have valid := (mem_maskElements inside).mp member
    have validOther := (mem_maskElements inside).mp memberOther
    have bits := congrArg repeated same
    dsimp only at bits
    rw [valid.repeated, validOther.repeated, MaskElement.bits_inj valid validOther] at bits
    exact tripleElement_injective bits
  rw [image, injective.ncard_image, Set.ncard_coe_finset, count]

end Count

/-- Decoding reaches exactly the values that repeat a single run of ones, of which there are 5334. -/
theorem bitmaskImmediates_exact :
    (∀ value, BitmaskImmediate value ↔ ∃ len, 1 ≤ len ∧ len ≤ 6 ∧ SingleRun (repeated value) (2 ^ len)) ∧
      {value | BitmaskImmediate value}.ncard = 5334 :=
  ⟨bitmaskImmediate_iff, bitmaskImmediate_ncard⟩

/-- Two decodings agree exactly if the fields describe the same element. -/
theorem decodeBitMasks_same_iff (immN immN' immediate immediate' : Bool) (imms immr imms' immr' : U8)
    (value other : U64) (run : decodeBitMasks immN imms immr immediate = .ok value)
    (again : decodeBitMasks immN' imms' immr' immediate' = .ok other) :
    value = other ↔ MaskElement.of immN (imms.setWidth 6) (immr.setWidth 6) =
      MaskElement.of immN' (imms'.setWidth 6) (immr'.setWidth 6) := by
  obtain ⟨valid, bits⟩ := decoded_element run
  obtain ⟨validOther, bitsOther⟩ := decoded_element again
  rw [← repeated_inj, bits, bitsOther, MaskElement.bits_inj valid validOther]

/-- An element of two bits looks at one bit of `immr`. -/
theorem decodeBitMasks_same_iff_two :
    MaskElement.of false ((0x3C : U8).setWidth 6) ((0 : U8).setWidth 6) =
      MaskElement.of false ((0x3C : U8).setWidth 6) ((2 : U8).setWidth 6) :=
  (decodeBitMasks_same_iff false false true true 0x3C 0 0x3C 2 0x5555555555555555 0x5555555555555555
    (by decide +kernel) (by decide +kernel)).mp rfl

end Koshka
