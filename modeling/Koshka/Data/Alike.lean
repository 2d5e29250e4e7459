import Koshka.Data.Command

namespace Koshka.Data

/-! Commands that run alike, as far as a view of their state goes.

From states that look the same, both return and leave states that look the same, or both
stop with the same fault.  What they compute is left aside.
-/

section Alike

variable {σ τ ε α β γ δ : Type} {view : σ → τ} {one : Command σ ε α} {two : Command σ ε β}
  {next : α → Command σ ε γ} {other : β → Command σ ε δ} {first second : σ}

def Alike (view : σ → τ) (one : Command σ ε α) (two : Command σ ε β) : Prop :=
  ∀ first second, view first = view second →
    (one.run first).map (fun ended => view ended.2) = (two.run second).map (fun ended => view ended.2)

theorem Alike.symm (alike : Alike view one two) : Alike view two one :=
  fun first second same => (alike second first same.symm).symm

theorem Alike.returns {value : α} {after : σ} (alike : Alike view one two)
    (same : view first = view second)
    (run : Returns one first value after) :
    ∃ result ended, Returns two second result ended ∧ view after = view ended := by
  have outcome := alike first second same
  rw [show one.run first = .ok (value, after) from run] at outcome
  cases ran : two.run second with
  | error fault =>
      rw [ran] at outcome
      cases outcome
  | ok found =>
      rw [ran] at outcome
      exact ⟨found.1, found.2, ran, Except.ok.inj outcome⟩

theorem Alike.fails {fault : ε} (alike : Alike view one two) (same : view first = view second)
    (run : Fails one first fault) : Fails two second fault := by
  have outcome := alike first second same
  rw [show one.run first = .error fault from run] at outcome
  cases ran : two.run second with
  | ok found =>
      rw [ran] at outcome
      cases outcome
  | error stopped =>
      rw [ran] at outcome
      cases outcome
      exact ran

theorem Alike.fails_iff {fault : ε} (alike : Alike view one two) (same : view first = view second) :
    Fails one first fault ↔ Fails two second fault :=
  ⟨alike.fails same, alike.symm.fails same.symm⟩

theorem Alike.of_runs
    (returns : ∀ first second value after, view first = view second → Returns one first value after →
      ∃ result ended, Returns two second result ended ∧ view after = view ended)
    (fails : ∀ first second fault, view first = view second → Fails one first fault →
      Fails two second fault) : Alike view one two := by
  intro first second same
  rcases returns_or_fails one first with ⟨value, after, run⟩ | ⟨fault, run⟩
  · obtain ⟨result, ended, ran, seen⟩ := returns first second value after same run
    rw [show one.run first = .ok (value, after) from run,
      show two.run second = .ok (result, ended) from ran]
    exact congrArg Except.ok seen
  · have ran := fails first second fault same run
    rw [show one.run first = .error fault from run, show two.run second = .error fault from ran]
    rfl

/-- A command that returns without a visible change, and one that does nothing. -/
theorem Alike.of_keeps {result : β}
    (keeps : ∀ before, ∃ value after, Returns one before value after ∧ view after = view before) :
    Alike view one (pure result : Command σ ε β) := by
  refine .of_runs (fun first second value after same run => ?_) fun first second fault same run => ?_
  · obtain ⟨_, _, again, kept⟩ := keeps first
    cases run.symm.trans again
    exact ⟨result, second, returns_pure.mpr ⟨rfl, rfl⟩, kept.trans same⟩
  · obtain ⟨_, _, again, _⟩ := keeps first
    exact absurd run again.not_fails

theorem Alike.bind (start : Alike view one two)
    (rest : ∀ value result, Alike view (next value) (other result)) :
    Alike view (one >>= next) (two >>= other) := by
  refine .of_runs (fun first second value after same run => ?_) fun first second fault same run => ?_
  · obtain ⟨found, middle, run, later⟩ := returns_bind.mp run
    obtain ⟨result, reached, ran, seen⟩ := start.returns same run
    obtain ⟨final, ended, ran', seen⟩ := (rest found result).returns seen later
    exact ⟨final, ended, returns_bind.mpr ⟨result, reached, ran, ran'⟩, seen⟩
  · rcases fails_bind.mp run with stopped | ⟨found, middle, run, stopped⟩
    · exact fails_bind.mpr (Or.inl (start.fails same stopped))
    · obtain ⟨result, reached, ran, seen⟩ := start.returns same run
      exact fails_bind.mpr (Or.inr ⟨result, reached, ran, (rest found result).fails seen stopped⟩)

end Alike

end Koshka.Data
