import Koshka.Data.Command

namespace Koshka.Data

/-! Histories: runs of commands that each write some keys of a state.

What a key holds after a history is what the last command that covers it has stored there.
-/

section History

variable {σ ε κ ν ω : Type} {step : σ → ω → Except ε σ} {covers : ω → κ → Bool} {stored : ω → ν}
  {command last : ω} {rest history : List ω} {key : κ}

def runHistory (step : σ → ω → Except ε σ) (state : σ) : List ω → Except ε σ
  | [] => .ok state
  | command :: rest => do
      let next ← step state command
      runHistory step next rest

def lastCovering (covers : ω → κ → Bool) (history : List ω) (key : κ) : Option ω :=
  history.reverse.find? fun command => covers command key

theorem lastCovering_cons : lastCovering covers (command :: rest) key =
    (lastCovering covers rest key).or (if covers command key then some command else none) := by
  rw [lastCovering, List.reverse_cons, List.find?_append, lastCovering]
  cases covered : covers command key <;> simp [covered]

theorem lastCovering_concat : lastCovering covers (history ++ [command]) key =
    if covers command key then some command else lastCovering covers history key := by
  rw [lastCovering, List.reverse_concat, List.find?_cons, lastCovering]
  cases covers command key <;> rfl

theorem lastCovering_some (found : lastCovering covers history key = some last) :
    last ∈ history ∧ covers last key = true :=
  ⟨List.mem_reverse.mp (List.mem_of_find?_eq_some found),
    List.find?_some (p := fun command => covers command key) found⟩

theorem runHistory_concat {state : σ} : runHistory step state (history ++ [command]) =
    runHistory step state history >>= fun before => step before command := by
  induction history generalizing state with
  | nil =>
      change (step state command >>= fun next => .ok next) = step state command
      cases step state command <;> rfl
  | cons first rest ih => simp only [List.cons_append, runHistory, ih, bind_assoc]

theorem runHistory_append {state : σ} {more : List ω} : runHistory step state (history ++ more) =
    runHistory step state history >>= fun before => runHistory step before more := by
  induction history generalizing state with
  | nil => rfl
  | cons first rest ih => simp only [List.cons_append, runHistory, ih, bind_assoc]

/-- What every command of a run keeps, the run keeps. -/
theorem runHistory_keeps (invariant : σ → Prop) {state final : σ}
    (steps : ∀ before, invariant before → ∀ command ∈ history, ∀ after,
      step before command = .ok after → invariant after)
    (start : invariant state) (run : runHistory step state history = .ok final) : invariant final := by
  induction history generalizing state with
  | nil =>
      cases run
      exact start
  | cons command rest ih =>
      obtain ⟨next, ran, run⟩ := bind_eq_ok.mp run
      refine ih (fun before met other member => steps before met other (List.mem_cons_of_mem _ member)) ?_ run
      exact steps state start command List.mem_cons_self next ran

/-- A run goes through when every command of it does, in every state that the run can meet. -/
theorem runHistory_ok (invariant : σ → Prop) {state : σ}
    (steps : ∀ before, invariant before → ∀ command ∈ history,
      ∃ after, step before command = .ok after ∧ invariant after)
    (start : invariant state) : ∃ final, runHistory step state history = .ok final ∧ invariant final := by
  induction history generalizing state with
  | nil => exact ⟨state, rfl, start⟩
  | cons command rest ih =>
      obtain ⟨next, ran, holds⟩ := steps state start command List.mem_cons_self
      obtain ⟨final, run, kept⟩ :=
        ih (fun before met other member => steps before met other (List.mem_cons_of_mem _ member)) holds
      exact ⟨final, by rw [runHistory, ran]; exact run, kept⟩

/-- What one command does to a key carries over to a whole run. -/
theorem runHistory_read (invariant : σ → Prop) (read : σ → ν) {state final : σ}
    (law : ∀ before command after, invariant before → step before command = .ok after →
      invariant after ∧ read after = if covers command key then stored command else read before)
    (start : invariant state) (run : runHistory step state history = .ok final) :
    read final = (lastCovering covers history key).elim (read state) stored := by
  induction history generalizing state with
  | nil =>
      cases run
      rfl
  | cons command rest ih =>
      obtain ⟨next, ran, run⟩ := bind_eq_ok.mp run
      obtain ⟨holds, written⟩ := law state command next start ran
      rw [ih holds run, written, lastCovering_cons]
      cases found : lastCovering covers rest key with
      | some last => rfl
      | none => cases covers command key <;> rfl

end History

end Koshka.Data
