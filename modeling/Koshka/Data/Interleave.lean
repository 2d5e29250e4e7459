import Mathlib.Logic.Function.Basic
import Koshka.Data.History

namespace Koshka.Data

/-! Several machines that run side by side, each on a state of its own.

A run of them all goes through exactly if each machine's own run does.
-/

section Interleave

variable {ι σ ε ω : Type} [DecidableEq ι] {step : σ → ω → Except ε σ} {states final : ι → σ}
  {history : List (ι × ω)} {fault : ε} {name : ι} {command : ω} {next : σ}

/-- One command of one machine. -/
def stepOf (step : σ → ω → Except ε σ) (states : ι → σ) (command : ι × ω) : Except ε (ι → σ) := do
  let next ← step (states command.1) command.2
  return Function.update states command.1 next

/-- The commands of one machine. -/
def commandsOf (name : ι) (history : List (ι × ω)) : List ω :=
  (history.filter fun command => command.1 = name).map Prod.snd

theorem commandsOf_self : commandsOf name ((name, command) :: history) =
    command :: commandsOf name history := by
  simp [commandsOf]

theorem commandsOf_other {other : ι} (apart : other ≠ name) :
    commandsOf name ((other, command) :: history) = commandsOf name history := by
  simp [commandsOf, apart]

theorem stepOf_eq_ok (stepped : stepOf step states (name, command) = .ok final) :
    ∃ next, step (states name) command = .ok next ∧ final = Function.update states name next := by
  obtain ⟨next, ran, done⟩ := bind_eq_ok.mp stepped
  cases done
  exact ⟨next, ran, rfl⟩

theorem stepOf_ok (ran : step (states name) command = .ok next) :
    stepOf step states (name, command) = .ok (Function.update states name next) := by
  rw [stepOf, ran]
  rfl

theorem stepOf_error (failed : step (states name) command = .error fault) :
    stepOf step states (name, command) = .error fault := by
  rw [stepOf, failed]
  rfl

theorem runHistory_interleaved : runHistory (stepOf step) states history = .ok final ↔
    ∀ name, runHistory step (states name) (commandsOf name history) = .ok (final name) := by
  induction history generalizing states with
  | nil =>
      constructor
      · intro run name
        cases run
        rfl
      · intro runs
        exact congrArg Except.ok (funext fun name => Except.ok.inj (runs name))
  | cons first history ih =>
      obtain ⟨name, command⟩ := first
      constructor
      · intro run other
        obtain ⟨after, stepped, run⟩ := bind_eq_ok.mp run
        obtain ⟨next, ran, rfl⟩ := stepOf_eq_ok stepped
        have later := ih.mp run other
        by_cases same : other = name
        · subst same
          rw [Function.update_self] at later
          rw [commandsOf_self]
          exact bind_eq_ok.mpr ⟨next, ran, later⟩
        · rw [Function.update_of_ne same] at later
          rwa [commandsOf_other (Ne.symm same)]
      · intro runs
        have own := runs name
        rw [commandsOf_self] at own
        obtain ⟨next, ran, own⟩ := bind_eq_ok.mp own
        refine bind_eq_ok.mpr ⟨_, stepOf_ok ran, ih.mpr fun other => ?_⟩
        by_cases same : other = name
        · subst same
          rwa [Function.update_self]
        · have later := runs other
          rw [commandsOf_other (Ne.symm same)] at later
          rwa [Function.update_of_ne same]

/-- What stops a run of them all stops the run of one of the machines. -/
theorem runHistory_interleaved_error (failed : runHistory (stepOf step) states history = .error fault) :
    ∃ name, runHistory step (states name) (commandsOf name history) = .error fault := by
  induction history generalizing states with
  | nil => cases failed
  | cons first history ih =>
      obtain ⟨name, command⟩ := first
      cases ran : step (states name) command with
      | error stopped =>
          rw [runHistory, stepOf_error ran] at failed
          cases failed
          refine ⟨name, ?_⟩
          rw [commandsOf_self, runHistory, ran]
          rfl
      | ok next =>
          rw [runHistory, stepOf_ok ran] at failed
          obtain ⟨other, own⟩ := ih failed
          refine ⟨other, ?_⟩
          by_cases same : other = name
          · subst same
            rw [Function.update_self] at own
            rw [commandsOf_self, runHistory, ran]
            exact own
          · rw [Function.update_of_ne same] at own
            rwa [commandsOf_other (Ne.symm same)]

end Interleave

end Koshka.Data
