import Koshka.Data.Command

namespace Koshka.Data

/-! Two commands side by side.

From states in the frame, what the one returns the other returns as well, but for what the
relation of the values and the frame leave open, and both stop with the same faults.
-/

section Related

variable {σ τ ε α β γ δ : Type} {frame : σ → τ → Prop} {values : α → β → Prop} {results : γ → δ → Prop}
  {one : Command σ ε α} {two : Command τ ε β} {next : α → Command σ ε γ} {other : β → Command τ ε δ}
  {first : σ} {second : τ} {fault : ε}

def Related (frame : σ → τ → Prop) (values : α → β → Prop) (one : Command σ ε α) (two : Command τ ε β) :
    Prop :=
  ∀ first second, frame first second →
    (∀ value after, Returns one first value after → ∃ result ended, Returns two second result ended ∧
      values value result ∧ frame after ended) ∧
    ∀ fault, Fails one first fault → Fails two second fault

theorem Related.fails_iff (related : Related frame values one two) (start : frame first second) :
    Fails one first fault ↔ Fails two second fault := by
  refine ⟨(related first second start).2 fault, fun failed => ?_⟩
  rcases returns_or_fails one first with ⟨value, after, run⟩ | ⟨stopped, run⟩
  · obtain ⟨_, _, ran, _⟩ := (related first second start).1 value after run
    exact absurd failed ran.not_fails
  · rwa [failed.unique ((related first second start).2 stopped run)]

theorem Related.pure {value : α} {result : β} (same : values value result) :
    Related frame values (pure value : Command σ ε α) (pure result : Command τ ε β) := by
  intro first second start
  refine ⟨fun found after run => ?_, fun fault failed => absurd failed not_fails_pure⟩
  obtain ⟨rfl, rfl⟩ := returns_pure.mp run
  exact ⟨result, second, returns_pure.mpr ⟨rfl, rfl⟩, same, start⟩

theorem Related.throw :
    Related frame values (throw fault : Command σ ε α) (throw fault : Command τ ε β) :=
  fun _ _ _ => ⟨fun _ _ run => absurd run returns_throw,
    fun _ failed => fails_throw.mpr (fails_throw.mp failed)⟩

theorem Related.lift (computed : Except ε α) :
    Related frame (· = ·) (liftM computed : Command σ ε α) (liftM computed : Command τ ε α) := by
  intro first second start
  refine ⟨fun value after run => ?_, fun fault failed => fails_lift.mpr (fails_lift.mp failed)⟩
  obtain ⟨done, rfl⟩ := returns_lift.mp run
  exact ⟨value, second, returns_lift.mpr ⟨done, rfl⟩, rfl, start⟩

theorem Related.get : Related frame frame (get : Command σ ε σ) (get : Command τ ε τ) := by
  intro first second start
  refine ⟨fun value after run => ?_, fun fault failed => absurd failed not_fails_get⟩
  obtain ⟨rfl, rfl⟩ := returns_get.mp run
  exact ⟨second, second, returns_get.mpr ⟨rfl, rfl⟩, start, start⟩

theorem Related.set {ended : σ} {last : τ} (keeps : frame ended last) :
    Related frame (· = ·) (set ended : Command σ ε PUnit) (set last : Command τ ε PUnit) := by
  intro first second start
  refine ⟨fun done after run => ?_, fun fault failed => absurd failed not_fails_set⟩
  cases returns_set.mp run
  exact ⟨done, last, returns_set.mpr rfl, rfl, keeps⟩

theorem Related.modify {update : σ → σ} {change : τ → τ}
    (keeps : ∀ first second, frame first second → frame (update first) (change second)) :
    Related frame (· = ·) (modify update : Command σ ε PUnit) (modify change : Command τ ε PUnit) := by
  intro first second start
  refine ⟨fun done after run => ?_, fun fault failed => absurd failed not_fails_modify⟩
  cases returns_modify.mp run
  exact ⟨done, change second, returns_modify.mpr rfl, rfl, keeps first second start⟩

theorem Related.bind (start : Related frame values one two)
    (rest : ∀ value result, values value result → Related frame results (next value) (other result)) :
    Related frame results (one >>= next) (two >>= other) := by
  intro first second framed
  have begins := start first second framed
  constructor
  · intro value after run
    obtain ⟨found, middle, run, later⟩ := returns_bind.mp run
    obtain ⟨result, reached, ran, same, framed⟩ := begins.1 found middle run
    obtain ⟨last, ended, ran', same', framed⟩ :=
      (rest found result same middle reached framed).1 value after later
    exact ⟨last, ended, returns_bind.mpr ⟨result, reached, ran, ran'⟩, same', framed⟩
  · intro fault failed
    rcases fails_bind.mp failed with stopped | ⟨found, middle, run, stopped⟩
    · exact fails_bind.mpr (Or.inl (begins.2 fault stopped))
    · obtain ⟨result, reached, ran, same, framed⟩ := begins.1 found middle run
      exact fails_bind.mpr
        (Or.inr ⟨result, reached, ran, (rest found result same middle reached framed).2 fault stopped⟩)

theorem Related.ite {condition : Prop} [Decidable condition] {oneElse : Command σ ε α}
    {twoElse : Command τ ε β}
    (holds : Related frame values one two) (fails : Related frame values oneElse twoElse) :
    Related frame values (if condition then one else oneElse) (if condition then two else twoElse) := by
  split
  · exact holds
  · exact fails

end Related

end Koshka.Data
