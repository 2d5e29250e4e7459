import Mathlib.Tactic.Common

namespace Koshka.Data

/-! Bit patterns that repeat an element.

A pattern is built up in place: every bit that is set already belongs to the final,
periodic pattern, and the bits below some bound are known to be complete.  Bits above
the bound may still be missing, or be there early.
-/

section Spread

variable {width : Nat} {element : Nat → Bool} {period turns known : Nat} {pattern : BitVec width}

structure Spreads (element : Nat → Bool) (period turns known : Nat) (pattern : BitVec width) : Prop where
  sound : ∀ bit, pattern.getLsbD bit = true → element ((bit + turns) % period) = true
  complete : ∀ bit < known, element ((bit + turns) % period) = true → pattern.getLsbD bit = true

/-- An element that fits below its period. -/
theorem Spreads.start (fits : ∀ bit, pattern.getLsbD bit = true → bit < period) :
    Spreads pattern.getLsbD period 0 period pattern where
  sound bit isSet := by
    rw [Nat.add_zero, Nat.mod_eq_of_lt (fits bit isSet)]
    exact isSet
  complete bit below isSet := by
    rw [Nat.add_zero, Nat.mod_eq_of_lt below] at isSet
    exact isSet

/-- One rotation to the right that does not clear the bits above the period. -/
theorem Spreads.rotate (spreads : Spreads element period turns period pattern) (positive : 0 < period)
    (room : period ≤ width) :
    Spreads element period (turns + 1) period (pattern <<< (period - 1) ||| pattern >>> 1) where
  sound bit isSet := by
    simp only [BitVec.getLsbD_or, BitVec.getLsbD_shiftLeft, BitVec.getLsbD_ushiftRight, Bool.or_eq_true,
      Bool.and_eq_true, Bool.not_eq_true', decide_eq_true_eq, decide_eq_false_iff_not] at isSet
    rcases isSet with ⟨⟨_, high⟩, wrapped⟩ | shifted
    · have source := spreads.sound _ wrapped
      have index : bit - (period - 1) + turns + period = bit + (turns + 1) := by omega
      rwa [← Nat.add_mod_right, index] at source
    · have source := spreads.sound _ shifted
      rwa [Nat.add_comm 1 bit, Nat.add_assoc, Nat.add_comm 1 turns] at source
  complete bit below isSet := by
    simp only [BitVec.getLsbD_or, BitVec.getLsbD_shiftLeft, BitVec.getLsbD_ushiftRight, Bool.or_eq_true,
      Bool.and_eq_true, Bool.not_eq_true', decide_eq_true_eq, decide_eq_false_iff_not]
    by_cases last : bit + 1 = period
    · left
      have index : bit + (turns + 1) = 0 + turns + period := by omega
      rw [index, Nat.add_mod_right] at isSet
      have first := spreads.complete 0 positive isSet
      refine ⟨⟨by omega, by omega⟩, ?_⟩
      rwa [Nat.sub_eq_zero_of_le (by omega)]
    · right
      rw [Nat.add_comm turns 1, ← Nat.add_assoc] at isSet
      rw [Nat.add_comm 1 bit]
      exact spreads.complete (bit + 1) (by omega) isSet

/-- Doubling the complete part, by a shift over a whole number of periods. -/
theorem Spreads.double (spreads : Spreads element period turns known pattern)
    (whole : period ∣ known) (room : known + known ≤ width) :
    Spreads element period turns (known + known) (pattern ||| pattern <<< known) where
  sound bit isSet := by
    simp only [BitVec.getLsbD_or, BitVec.getLsbD_shiftLeft, Bool.or_eq_true, Bool.and_eq_true,
      Bool.not_eq_true', decide_eq_true_eq, decide_eq_false_iff_not] at isSet
    rcases isSet with there | ⟨⟨_, high⟩, copied⟩
    · exact spreads.sound _ there
    · obtain ⟨count, rfl⟩ := whole
      have source := spreads.sound _ copied
      have index : bit - period * count + turns + period * count = bit + turns := by omega
      rwa [← Nat.add_mul_mod_self_left _ period count, index] at source
  complete bit below isSet := by
    simp only [BitVec.getLsbD_or, BitVec.getLsbD_shiftLeft, Bool.or_eq_true, Bool.and_eq_true,
      Bool.not_eq_true', decide_eq_true_eq, decide_eq_false_iff_not]
    by_cases low : bit < known
    · exact Or.inl (spreads.complete bit low isSet)
    · right
      refine ⟨⟨by omega, low⟩, ?_⟩
      obtain ⟨count, rfl⟩ := whole
      refine spreads.complete _ (by omega) ?_
      have index : bit - period * count + turns + period * count = bit + turns := by omega
      rwa [← Nat.add_mul_mod_self_left _ period count, index]

theorem Spreads.getLsbD (spreads : Spreads element period turns width pattern) {bit : Nat}
    (inside : bit < width) : pattern.getLsbD bit = element ((bit + turns) % period) :=
  Bool.eq_iff_iff.mpr ⟨spreads.sound bit, spreads.complete bit inside⟩

end Spread

end Koshka.Data
