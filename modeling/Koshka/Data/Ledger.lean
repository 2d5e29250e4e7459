import Mathlib.Data.List.Basic

namespace Koshka.Data

section Ledger

variable {γ ρ : Type} [DecidableEq ρ] {about acquired released : γ → Option ρ} {calls more : List γ}
  {held next : ρ → Nat} {call : γ} {resource : ρ}

/-- The number of calls about a resource. -/
def tally (about : γ → Option ρ) (calls : List γ) (resource : ρ) : Nat :=
  (calls.filterMap about).count resource

/-- Whatever has been acquired is held, or else has been released, and that once. -/
def Balanced (acquired released : γ → Option ρ) (calls : List γ) (held : ρ → Nat) : Prop :=
  ∀ resource, tally acquired calls resource = tally released calls resource + held resource

@[simp] theorem tally_nil : tally about [] resource = 0 := rfl

theorem tally_append :
    tally about (calls ++ more) resource = tally about calls resource + tally about more resource := by
  rw [tally, List.filterMap_append, List.count_append]
  rfl

theorem tally_singleton {owned : ρ} (owner : about call = some owned) :
    tally about [call] resource = if owned = resource then 1 else 0 := by
  rw [tally, List.filterMap_cons_some owner, List.filterMap_nil, List.count_cons, List.count_nil,
    Nat.zero_add]
  simp only [beq_iff_eq]

theorem tally_none (none_about : ∀ call ∈ calls, about call = none) : tally about calls resource = 0 := by
  have empty : calls.filterMap about = [] := List.filterMap_eq_nil_iff.mpr none_about
  rw [tally, empty, List.count_nil]

theorem balanced_nil (empty : ∀ resource, held resource = 0) : Balanced acquired released [] held :=
  fun resource => by rw [empty resource]; rfl

/-- Further calls keep the balance when they account for the change of what is held. -/
theorem Balanced.append_iff (balanced : Balanced acquired released calls held) :
    Balanced acquired released (calls ++ more) next ↔ ∀ resource,
      held resource + tally acquired more resource = tally released more resource + next resource := by
  refine forall_congr' fun resource => ?_
  have before := balanced resource
  rw [tally_append, tally_append]
  omega

theorem Balanced.acquire {owned : ρ} (balanced : Balanced acquired released calls held)
    (acquires : acquired call = some owned) (keeps : released call = none)
    (gained : ∀ resource, next resource = held resource + if owned = resource then 1 else 0) :
    Balanced acquired released (calls ++ [call]) next := by
  refine balanced.append_iff.mpr fun resource => ?_
  have none_released : tally released [call] resource = 0 := tally_none (by simpa using keeps)
  rw [tally_singleton acquires, none_released, gained, Nat.zero_add]

/-- Calls that acquire nothing keep the balance when they release what is no longer held. -/
theorem Balanced.release_iff {owned : ρ} (balanced : Balanced acquired released calls held)
    (keeps : ∀ call ∈ more, acquired call = none)
    (lost : ∀ resource, held resource = next resource + if owned = resource then 1 else 0) :
    Balanced acquired released (calls ++ more) next ↔
      ∀ resource, tally released more resource = if owned = resource then 1 else 0 := by
  rw [balanced.append_iff]
  refine forall_congr' fun resource => ?_
  have before := lost resource
  rw [tally_none keeps]
  omega

end Ledger

end Koshka.Data
