import Mathlib.Tactic.Common

namespace Koshka.Data

/-! Commands: programs that read and write a state and can stop with a fault.

A run is described by the relation `Returns`.  Its rules take a run of a composed
command apart into the runs of its parts, so that a fact about a command is proved
from facts about the commands it is made of and never by unfolding them.
-/

theorem bind_eq_ok {ε α β : Type} {computed : Except ε α} {next : α → Except ε β} {result : β} :
    computed >>= next = .ok result ↔ ∃ value, computed = .ok value ∧ next value = .ok result := by
  cases computed with
  | error fault => simp [bind, Except.bind]
  | ok value => simp [bind, Except.bind]

theorem bind_eq_error {ε α β : Type} {computed : Except ε α} {next : α → Except ε β} {fault : ε} :
    computed >>= next = .error fault ↔
      computed = .error fault ∨ ∃ value, computed = .ok value ∧ next value = .error fault := by
  cases computed with
  | error stopped => simp [bind, Except.bind]
  | ok value => simp [bind, Except.bind]

theorem ok_bind {ε α β : Type} {value : α} {next : α → Except ε β} :
    .ok value >>= next = next value := rfl

theorem eq_ok_of_isOk {ε α : Type} {computed : Except ε α} (isOk : computed.isOk = true) :
    ∃ value, computed = .ok value := by
  cases computed with
  | error fault => cases isOk
  | ok value => exact ⟨value, rfl⟩

abbrev Command (σ ε α : Type) := StateT σ (Except ε) α

section Command

variable {σ ε α β : Type} {command : Command σ ε α} {next : α → Command σ ε β}
  {before middle after other : σ} {value expected : α} {result : β} {fault : ε}

/-- Started in `before`, the command ends in `after` with `value`. -/
def Returns (command : Command σ ε α) (before : σ) (value : α) (after : σ) : Prop :=
  command.run before = .ok (value, after)

@[simp] theorem returns_pure :
    Returns (pure value : Command σ ε α) before expected after ↔ value = expected ∧ before = after := by
  constructor
  · intro run
    cases run
    exact ⟨rfl, rfl⟩
  · intro both
    obtain ⟨rfl, rfl⟩ := both
    rfl

@[simp] theorem returns_throw : ¬ Returns (throw fault : Command σ ε α) before value after := by
  simp [Returns, throw, throwThe, MonadExceptOf.throw, StateT.lift, StateT.run, bind, Except.bind]

@[simp] theorem returns_get {state : σ} :
    Returns (get : Command σ ε σ) before state after ↔ before = state ∧ before = after := by
  simp [Returns, get, getThe, MonadStateOf.get, StateT.get, StateT.run, pure, Except.pure]

@[simp] theorem returns_modify {update : σ → σ} {done : PUnit} :
    Returns (modify update : Command σ ε PUnit) before done after ↔ update before = after := by
  simp [Returns, modify, modifyGet, MonadStateOf.modifyGet, StateT.modifyGet, StateT.run, pure,
    Except.pure]

@[simp] theorem returns_set {state : σ} {done : PUnit} :
    Returns (set state : Command σ ε PUnit) before done after ↔ state = after := by
  constructor
  · intro run
    cases run
    rfl
  · intro equal
    subst equal
    rfl

@[simp] theorem returns_lift {computed : Except ε α} :
    Returns (liftM computed : Command σ ε α) before value after ↔
      computed = .ok value ∧ before = after := by
  cases computed with
  | error fault =>
      simp [Returns, liftM, monadLift, MonadLift.monadLift, StateT.lift, StateT.run, bind, Except.bind]
  | ok found =>
      simp [Returns, liftM, monadLift, MonadLift.monadLift, StateT.lift, StateT.run, bind, Except.bind,
        pure, Except.pure]

/-- A run of a sequence is a run of its first command and one of the rest. -/
@[simp] theorem returns_bind :
    Returns (command >>= next) before result after ↔
      ∃ value middle, Returns command before value middle ∧ Returns (next value) middle result after := by
  simp only [Returns, StateT.run, bind, StateT.bind, Except.bind]
  cases command before with
  | error fault => simp
  | ok found =>
      obtain ⟨value, middle⟩ := found
      simp only [Except.ok.injEq, Prod.mk.injEq]
      exact ⟨fun rest => ⟨value, middle, ⟨rfl, rfl⟩, rest⟩, fun ⟨_, _, ⟨rfl, rfl⟩, rest⟩ => rest⟩

theorem returns_get_bind {read : σ → Command σ ε β} :
    Returns (get >>= read) before result after ↔ Returns (read before) before result after := by
  simp only [returns_bind, returns_get]
  exact ⟨fun ⟨_, _, ⟨rfl, rfl⟩, run⟩ => run, fun run => ⟨_, _, ⟨rfl, rfl⟩, run⟩⟩

@[simp] theorem returns_map {change : α → β} :
    Returns (change <$> command) before result after ↔
      ∃ value, Returns command before value after ∧ change value = result := by
  rw [map_eq_pure_bind]
  simp only [returns_bind, returns_pure]
  exact ⟨fun ⟨value, _, run, found, rfl⟩ => ⟨value, run, found⟩,
    fun ⟨value, run, found⟩ => ⟨value, _, run, found, rfl⟩⟩

/-- A check in front of a command. -/
theorem returns_guard {condition : Prop} [Decidable condition] :
    Returns (if condition then command else throw fault) before value after ↔
      condition ∧ Returns command before value after := by
  by_cases holds : condition
  · rw [if_pos holds]
    exact (and_iff_right holds).symm
  · rw [if_neg holds]
    exact iff_of_false returns_throw fun both => holds both.1

/-- Started in `before`, the command stops with the fault. -/
def Fails (command : Command σ ε α) (before : σ) (fault : ε) : Prop :=
  command.run before = .error fault

theorem returns_or_fails (command : Command σ ε α) (before : σ) :
    (∃ value after, Returns command before value after) ∨ ∃ fault, Fails command before fault := by
  cases run : command.run before with
  | error fault => exact Or.inr ⟨fault, run⟩
  | ok found => exact Or.inl ⟨found.1, found.2, run⟩

theorem Returns.value_unique {another : α} {last : σ} (one : Returns command before value after)
    (two : Returns command before another last) : value = another := by
  cases one.symm.trans two
  rfl

theorem Returns.not_fails (returned : Returns command before value after) :
    ¬ Fails command before fault := by
  intro failed
  cases returned.symm.trans failed

theorem Fails.unique {another : ε} (one : Fails command before fault)
    (two : Fails command before another) :
    fault = another := by
  cases one.symm.trans two
  rfl

@[simp] theorem not_fails_pure : ¬ Fails (pure value : Command σ ε α) before fault :=
  (returns_pure.mpr ⟨rfl, rfl⟩).not_fails

@[simp] theorem not_fails_get : ¬ Fails (get : Command σ ε σ) before fault :=
  (returns_get.mpr ⟨rfl, rfl⟩).not_fails

@[simp] theorem not_fails_set {state : σ} : ¬ Fails (set state : Command σ ε PUnit) before fault :=
  have returned : Returns (set state : Command σ ε PUnit) before ⟨⟩ state := returns_set.mpr rfl
  returned.not_fails

@[simp] theorem not_fails_modify {update : σ → σ} :
    ¬ Fails (modify update : Command σ ε PUnit) before fault :=
  have returned : Returns (modify update : Command σ ε PUnit) before ⟨⟩ (update before) :=
    returns_modify.mpr rfl
  returned.not_fails

@[simp] theorem fails_throw {thrown : ε} :
    Fails (throw thrown : Command σ ε α) before fault ↔ thrown = fault := by
  simp [Fails, throw, throwThe, MonadExceptOf.throw, StateT.lift, StateT.run, bind, Except.bind]

@[simp] theorem fails_lift {computed : Except ε α} :
    Fails (liftM computed : Command σ ε α) before fault ↔ computed = .error fault := by
  cases computed with
  | error fault =>
      simp [Fails, liftM, monadLift, MonadLift.monadLift, StateT.lift, StateT.run, bind, Except.bind]
  | ok found =>
      simp [Fails, liftM, monadLift, MonadLift.monadLift, StateT.lift, StateT.run, bind,
        Except.bind, pure, Except.pure]

/-- A sequence stops in its first command, or in the rest of a run of it. -/
@[simp] theorem fails_bind :
    Fails (command >>= next) before fault ↔ Fails command before fault ∨
      ∃ value middle, Returns command before value middle ∧ Fails (next value) middle fault := by
  simp only [Fails, Returns, StateT.run, bind, StateT.bind, Except.bind]
  cases command before with
  | error stopped => simp
  | ok found =>
      obtain ⟨value, middle⟩ := found
      simp only [Except.ok.injEq, Prod.mk.injEq, reduceCtorEq, false_or]
      exact ⟨fun rest => ⟨value, middle, ⟨rfl, rfl⟩, rest⟩, fun ⟨_, _, ⟨rfl, rfl⟩, rest⟩ => rest⟩

theorem ite_bind {condition : Prop} [Decidable condition] {other : Command σ ε α} :
    (if condition then command else other) >>= next =
      if condition then command >>= next else other >>= next := by
  split <;> rfl

theorem lift_ok_bind : (liftM (Except.ok value : Except ε α) : Command σ ε α) >>= next = next value := by
  funext state
  rfl

theorem lift_error_bind :
    (liftM (Except.error fault : Except ε α) : Command σ ε α) >>= next = throw fault := by
  funext state
  rfl

/-- The command comes to what is expected, and to a state that has the property where it is no fault. -/
def Meets (command : Command σ ε α) (before : σ) (outcome : Except ε α) (property : σ → Prop) : Prop :=
  match outcome with
  | .ok value => ∃ after, Returns command before value after ∧ property after
  | .error fault => Fails command before fault

theorem Meets.of_step {outcome : Except ε β} {property : σ → Prop} (run : Returns command before value middle)
    (rest : Meets (next value) middle outcome property) : Meets (command >>= next) before outcome property := by
  cases outcome with
  | error fault => exact fails_bind.mpr (Or.inr ⟨value, middle, run, rest⟩)
  | ok result =>
      obtain ⟨after, last, holds⟩ := rest
      exact ⟨after, returns_bind.mpr ⟨value, middle, run, last⟩, holds⟩

theorem Meets.bind {outcome : Except ε α} {results : α → Except ε β} {property final : σ → Prop}
    (meets : Meets command before outcome property)
    (rest : ∀ value middle, property middle → Meets (next value) middle (results value) final) :
    Meets (command >>= next) before (outcome >>= results) final := by
  cases outcome with
  | error fault => exact fails_bind.mpr (Or.inl meets)
  | ok value =>
      obtain ⟨middle, run, holds⟩ := meets
      exact .of_step run (rest value middle holds)

theorem Meets.lift {computed : Except ε α} {results : α → Except ε β} {property : σ → Prop}
    (rest : ∀ value, Meets (next value) before (results value) property) :
    Meets (liftM computed >>= next) before (computed >>= results) property := by
  cases computed with
  | error fault => exact fails_bind.mpr (Or.inl (fails_lift.mpr rfl))
  | ok value => exact .of_step (returns_lift.mpr ⟨rfl, rfl⟩) (rest value)

theorem Meets.done {property : σ → Prop} (holds : property before) :
    Meets (pure value) before (.ok value : Except ε α) property :=
  ⟨before, returns_pure.mpr ⟨rfl, rfl⟩, holds⟩

theorem Meets.lifted {computed : Except ε α} {property : σ → Prop} (holds : property before) :
    Meets (liftM computed) before computed property := by
  cases computed with
  | error fault => exact fails_lift.mpr rfl
  | ok value => exact ⟨before, returns_lift.mpr ⟨rfl, rfl⟩, holds⟩

theorem Meets.map_run {outcome : Except ε α} {measured : β} {measure : σ → β}
    (meets : Meets command before outcome fun after => measure after = measured) :
    (command.run before).map (fun done => (done.1, measure done.2)) =
      outcome.map fun value => (value, measured) := by
  cases outcome with
  | error fault =>
      rw [show command.run before = .error fault from meets]
      rfl
  | ok value =>
      obtain ⟨after, run, rfl⟩ := meets
      rw [show command.run before = .ok (value, after) from run]
      rfl

end Command

end Koshka.Data
