import Koshka.Data.History

namespace Koshka.Data

section Amortized

variable {σ ε ω : Type} {step : σ → ω → Except ε σ} {cost : σ → ω → Nat} {read : σ → Nat}
  {state final : σ} {history : List ω} {command : ω}

/-- The costs of the steps of a run, each in the state that it is made in. -/
def totalCost (step : σ → ω → Except ε σ) (cost : σ → ω → Nat) : σ → List ω → Nat
  | _, [] => 0
  | state, command :: rest =>
      cost state command + match step state command with
        | .ok next => totalCost step cost next rest
        | .error _ => 0

/-- The highest reading on a run. -/
def peak (step : σ → ω → Except ε σ) (read : σ → Nat) : σ → List ω → Nat
  | state, [] => read state
  | state, command :: rest =>
      max (read state) (match step state command with
        | .ok next => peak step read next rest
        | .error _ => 0)

theorem totalCost_cons {next : σ} (ran : step state command = .ok next) :
    totalCost step cost state (command :: history) =
      cost state command + totalCost step cost next history := by
  rw [totalCost, ran]

theorem peak_cons {next : σ} (ran : step state command = .ok next) :
    peak step read state (command :: history) = max (read state) (peak step read next history) := by
  rw [peak, ran]

theorem read_le_peak (step : σ → ω → Except ε σ) (read : σ → Nat) (state : σ) (history : List ω) :
    read state ≤ peak step read state history := by
  cases history with
  | nil => exact Nat.le_refl _
  | cons command history => exact Nat.le_max_left ..

theorem read_final_le_peak (read : σ → Nat) (run : runHistory step state history = .ok final) :
    read final ≤ peak step read state history := by
  induction history generalizing state with
  | nil =>
      cases run
      exact Nat.le_refl _
  | cons command history ih =>
      obtain ⟨next, ran, run⟩ := bind_eq_ok.mp run
      rw [peak_cons ran]
      exact Nat.le_trans (ih run) (Nat.le_max_right ..)

/-- What the steps cost is no more than what the potential gains. -/
theorem totalCost_le (invariant : σ → Prop) (potential : σ → Nat)
    (law : ∀ before, ∀ command ∈ history, ∀ after, invariant before → step before command = .ok after →
      invariant after ∧ cost before command + potential before ≤ potential after)
    (start : invariant state) (run : runHistory step state history = .ok final) :
    totalCost step cost state history + potential state ≤ potential final := by
  induction history generalizing state with
  | nil =>
      cases run
      exact Nat.le_of_eq (Nat.zero_add _)
  | cons command history ih =>
      obtain ⟨next, ran, run⟩ := bind_eq_ok.mp run
      obtain ⟨holds, paid⟩ := law state command List.mem_cons_self next start ran
      have rest := ih (fun before other member => law before other (List.mem_cons_of_mem _ member)) holds run
      rw [totalCost_cons ran]
      omega

end Amortized

end Koshka.Data
