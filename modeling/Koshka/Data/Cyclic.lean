import Mathlib.Data.Nat.Periodic

namespace Koshka.Data

/-! Sequences of bits that repeat a single run of ones.

Such a sequence is known by the places where the ones begin: their distance is the period, and
where the first of them lies tells how far the run is turned.
-/

/-- The ones begin right after the place. -/
def Rises (bits : Nat → Bool) (place : Nat) : Prop := bits place = false ∧ bits (place + 1) = true

/-- In every period the ones begin once. -/
structure SingleRun (bits : Nat → Bool) (period : Nat) : Prop where
  periodic : Function.Periodic bits period
  rises : ∃ place, Rises bits place
  once : ∀ place other, Rises bits place → Rises bits other → place % period = other % period

/-- The first `width` bits of every period, turned down by `turns`. -/
def circularRun (period width turns bit : Nat) : Bool := decide ((bit + turns) % period < width)

section Cyclic

variable {bits : Nat → Bool} {period width turns place : Nat}

theorem circularRun_periodic : Function.Periodic (circularRun period width turns) period := by
  intro bit
  rw [circularRun, circularRun, Nat.add_right_comm, Nat.add_mod_right]

theorem circularRun_rises_iff (some' : 0 < width) (short : width < period) :
    Rises (circularRun period width turns) place ↔ (place + 1 + turns) % period = 0 := by
  have next : (place + 1 + turns) % period = ((place + turns) % period + 1) % period := by
    rw [Nat.mod_add_mod, Nat.add_right_comm]
  have below := Nat.mod_lt (place + turns) (show 0 < period by omega)
  rw [Rises, circularRun, circularRun, decide_eq_false_iff_not, decide_eq_true_eq, next]
  by_cases last : (place + turns) % period + 1 = period
  · rw [last, Nat.mod_self]
    omega
  · rw [Nat.mod_eq_of_lt (show (place + turns) % period + 1 < period by omega)]
    omega

/-- Every place can be turned to the start of a period. -/
theorem exists_turns (positive : 0 < period) (place : Nat) : ∃ turns < period, (place + turns) % period = 0 := by
  have below := Nat.mod_lt place positive
  by_cases start : place % period = 0
  · exact ⟨0, positive, start⟩
  · refine ⟨period - place % period, by omega, ?_⟩
    rw [← Nat.mod_add_mod, Nat.add_sub_of_le (Nat.le_of_lt below), Nat.mod_self]

theorem circularRun_single (some' : 0 < width) (short : width < period) :
    SingleRun (circularRun period width turns) period where
  periodic := circularRun_periodic
  rises := by
    obtain ⟨place, _, start⟩ := exists_turns (show 0 < period by omega) (1 + turns)
    refine ⟨place, (circularRun_rises_iff some' short).mpr ?_⟩
    rwa [Nat.add_assoc, Nat.add_comm]
  once place other rises again := by
    rw [circularRun_rises_iff some' short, Nat.add_assoc] at rises again
    exact Nat.ModEq.add_right_cancel' (1 + turns) (rises.trans again.symm)

/-- A sequence with a single run is that run, turned to where it begins. -/
theorem SingleRun.eq_circularRun (single : SingleRun bits period) (positive : 0 < period) :
    ∃ width turns, 0 < width ∧ width < period ∧ turns < period ∧ bits = circularRun period width turns := by
  obtain ⟨place, clear, first⟩ := single.rises
  have ends : ∃ count, bits (place + 1 + count) = false := by
    refine ⟨period - 1, ?_⟩
    rw [show place + 1 + (period - 1) = place + period by omega, single.periodic]
    exact clear
  obtain ⟨turns, below, start⟩ := exists_turns positive (place + 1)
  have stops := Nat.find_spec ends
  have whole : Nat.find ends < period := by
    have least := Nat.find_min' ends (m := period - 1) (by
      rw [show place + 1 + (period - 1) = place + period by omega, single.periodic]
      exact clear)
    omega
  have some' : 0 < Nat.find ends := by
    refine Nat.pos_of_ne_zero fun zero => ?_
    rw [zero, Nat.add_zero, first] at stops
    cases stops
  -- a second run would begin at another place of the period
  have rest (count : Nat) (from' : Nat.find ends ≤ count) (inside : count < period) :
      bits (place + 1 + count) = false := by
    induction count, from' using Nat.le_induction with
    | base => exact stops
    | succ count from' ih =>
        by_contra again
        have rises : Rises bits (place + 1 + count) :=
          ⟨ih (by omega), by rwa [Bool.not_eq_false, ← Nat.add_assoc] at again⟩
        have same : place + 0 ≡ place + (1 + count) [MOD period] := by
          rw [← Nat.add_assoc]
          exact single.once _ _ ⟨clear, first⟩ rises
        have turn := Nat.ModEq.add_left_cancel' place same
        rw [Nat.ModEq, Nat.zero_mod, Nat.mod_eq_of_lt (by omega)] at turn
        omega
  refine ⟨Nat.find ends, turns, some', whole, below, funext fun bit => ?_⟩
  have inside := Nat.mod_lt (bit + turns) positive
  have turned : bits bit = bits (place + 1 + (bit + turns) % period) := by
    rw [← single.periodic.map_mod_nat bit, ← single.periodic.map_mod_nat (place + 1 + (bit + turns) % period),
      Nat.add_mod_mod, show place + 1 + (bit + turns) = place + 1 + turns + bit by omega, ← Nat.mod_add_mod,
      start, Nat.zero_add]
  rw [turned, circularRun]
  by_cases covered : (bit + turns) % period < Nat.find ends
  · rw [decide_eq_true covered]
    exact Bool.eq_true_of_not_eq_false (Nat.find_min ends covered)
  · rw [decide_eq_false covered]
    exact rest _ (Nat.not_lt.mp covered) inside

theorem circularRun_period_dvd {period' width' turns' : Nat} (some' : 0 < width) (short : width < period)
    (turned : turns < period) (someOther : 0 < width') (shortOther : width' < period')
    (same : circularRun period width turns = circularRun period' width' turns') : period' ∣ period := by
  have start {count : Nat} (positive : 0 < count) (here : (count + turns) % period = 0) :
      period' ∣ count + turns' := by
    have rises : Rises (circularRun period width turns) (count - 1) := by
      rw [circularRun_rises_iff some' short, Nat.sub_add_cancel positive]
      exact here
    rw [same, circularRun_rises_iff someOther shortOther, Nat.sub_add_cancel positive] at rises
    exact Nat.dvd_of_mod_eq_zero rises
  have first := start (show 0 < period - turns by omega) (by
    rw [Nat.sub_add_cancel (Nat.le_of_lt turned), Nat.mod_self])
  have second := start (show 0 < period - turns + period by omega) (by
    rw [Nat.add_right_comm, Nat.sub_add_cancel (Nat.le_of_lt turned), ← Nat.two_mul, Nat.mul_mod_left])
  rw [Nat.add_right_comm] at second
  exact (Nat.dvd_add_right first).mp second

/-- The sequence names its period, the width of its run, and how far it is turned. -/
theorem circularRun_inj {period' width' turns' : Nat} (some' : 0 < width) (short : width < period)
    (turned : turns < period) (someOther : 0 < width') (shortOther : width' < period')
    (turnedOther : turns' < period') : circularRun period width turns = circularRun period' width' turns' ↔
      period = period' ∧ width = width' ∧ turns = turns' := by
  constructor
  · intro same
    have periods : period = period' := Nat.dvd_antisymm
      (circularRun_period_dvd someOther shortOther turnedOther some' short same.symm)
      (circularRun_period_dvd some' short turned someOther shortOther same)
    subst periods
    have turnsSame : turns = turns' := by
      obtain ⟨place, rises⟩ : ∃ place, Rises (circularRun period width turns) place :=
        (circularRun_single some' short).rises
      have again := rises
      rw [circularRun_rises_iff some' short] at rises
      rw [same, circularRun_rises_iff someOther shortOther] at again
      have equal := Nat.ModEq.add_left_cancel' (place + 1) (rises.trans again.symm)
      rwa [Nat.ModEq, Nat.mod_eq_of_lt turned, Nat.mod_eq_of_lt turnedOther] at equal
    subst turnsSame
    have each (count : Nat) (inside : count < period) : count < width ↔ count < width' := by
      have here : (count + (period - turns) + turns) % period = count := by
        rw [Nat.add_assoc, Nat.sub_add_cancel (Nat.le_of_lt turned), Nat.add_mod_right, Nat.mod_eq_of_lt inside]
      have bits := congrFun same (count + (period - turns))
      rwa [circularRun, circularRun, here, decide_eq_decide] at bits
    have first := each width short
    have second := each width' shortOther
    exact ⟨rfl, by omega, rfl⟩
  · rintro ⟨rfl, rfl, rfl⟩
    rfl

end Cyclic

end Koshka.Data
