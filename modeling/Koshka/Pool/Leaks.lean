import Mathlib.Data.List.Induction
import Koshka.Pool.Several

namespace Koshka.Shared

open Data

/-! Which buffers the pools of a heap give back.

A pool gives its buffer back when it grows and when it is closed.  The one way to lose a buffer is
to open a pool in a variable that still has one.
-/

section Leaks

variable {ι α : Type}

/-- The call opens a pool over one that has not been closed. -/
def Pools.Reopens (state : Pools ι α) : ι × PoolCall α → Prop
  | (name, .poolOpen _) => (state.holder name).pool.data ≠ 0
  | (_, .poolClose) | (_, .poolPush _ _ _) | (_, .poolDrain) => False

/-- One for an address that a pool has. -/
noncomputable def Pools.owned (state : Pools ι α) (address : Nat) : Nat :=
  open Classical in if ∃ name, (state.holder name).pool.data = address ∧ address ≠ 0 then 1 else 0

/-- A live buffer that no pool has. -/
def Pools.Leaks (state : Pools ι α) (address : Nat) : Prop :=
  state.heap.Live address ∧ ∀ name, (state.holder name).pool.data ≠ address

variable {state final : Pools ι α} {name : ι} {call : PoolCall α} {address : Nat}

theorem balanced_owned_iff (apart : state.Apart) :
    Balanced HeapCall.acquired HeapCall.released state.heap.trace state.owned ↔
      ∀ address, ¬ state.Leaks address := by
  rw [Heap.balanced_iff]
  refine forall_congr' fun address => ?_
  have valid (owner : ∃ name, (state.holder name).pool.data = address ∧ address ≠ 0) :
      state.heap.Live address := by
    obtain ⟨name, rfl, named⟩ := owner
    exact (apart.valid name).resolve_left named
  rw [Pools.owned, Pools.Leaks, not_and, not_forall]
  by_cases owner : ∃ name, (state.holder name).pool.data = address ∧ address ≠ 0
  · rw [if_pos owner, if_pos (valid owner)]
    refine iff_of_true rfl fun _ => ?_
    obtain ⟨name, same, -⟩ := owner
    exact ⟨name, not_not.mpr same⟩
  · rw [if_neg owner]
    by_cases live : state.heap.Live address
    · rw [if_pos live]
      refine iff_of_false Nat.zero_ne_one fun leaks => ?_
      obtain ⟨name, same⟩ := leaks live
      exact owner ⟨name, not_not.mp same, named_of_live live⟩
    · rw [if_neg live]
      exact iff_of_true rfl fun lives => absurd lives live

variable [DecidableEq ι] [OfNat α 0] {allocator : Allocator α}

theorem Pools.Leaks.stays (leaks : state.Leaks address) (apart : state.Apart)
    (stepped : stepPools allocator state (name, call) = .ok final) : final.Leaks address := by
  obtain ⟨next, after, rfl, takes⟩ := stepPools_takes apart stepped
  have unowned : address ≠ (call.base (state.holder name).pool).data := by
    rcases call.base_cases (state.holder name).pool with wiped | same
    · rw [wiped]
      exact named_of_live leaks.1
    · rw [same]
      exact (leaks.2 name).symm
  have away : next.pool.data ≠ address := by
    rintro rfl
    rcases takes.own with same | free
    · exact unowned same
    · exact free leaks.1
  refine ⟨(takes.live address).mpr (Or.inr ⟨unowned, leaks.1⟩), fun other => ?_⟩
  by_cases same : other = name
  · subst same
    rwa [Pools.put_self]
  · rw [Pools.put_other same]
    exact leaks.2 other

theorem Pools.Reopens.leaks (reopens : state.Reopens (name, call)) (apart : state.Apart)
    (stepped : stepPools allocator state (name, call) = .ok final) :
    final.Leaks (state.holder name).pool.data := by
  obtain ⟨next, after, rfl, takes⟩ := stepPools_takes apart stepped
  cases call with
  | poolOpen initSize =>
      have named : (state.holder name).pool.data ≠ 0 := reopens
      have live := (apart.valid name).resolve_left named
      have away : next.pool.data ≠ (state.holder name).pool.data := by
        intro same
        rcases takes.own with wiped | free
        · exact named (same.symm.trans wiped)
        · exact free (same ▸ live)
      refine ⟨(takes.live _).mpr (Or.inr ⟨named, live⟩), fun other => ?_⟩
      by_cases same : other = name
      · subst same
        rwa [Pools.put_self]
      · rw [Pools.put_other same]
        exact (apart.apart name other (Ne.symm same) named).symm
  | poolClose => exact reopens.elim
  | poolPush data dataSize allocSize => exact reopens.elim
  | poolDrain => exact reopens.elim

theorem Pools.Leaks.before (leaks : final.Leaks address) (apart : state.Apart)
    (stepped : stepPools allocator state (name, call) = .ok final)
    (opens : ¬ state.Reopens (name, call)) : state.Leaks address := by
  obtain ⟨next, after, rfl, takes⟩ := stepPools_takes apart stepped
  obtain ⟨live, unowned⟩ := leaks
  have away : next.pool.data ≠ address := by
    have own := unowned name
    rwa [Pools.put_self] at own
  have old := ((takes.live address).mp live).resolve_left fun both => away both.1.symm
  refine ⟨old.2, fun other => ?_⟩
  by_cases same : other = name
  · subst same
    cases call with
    | poolOpen initSize =>
        have wiped : (state.holder other).pool.data = 0 := not_not.mp opens
        rw [wiped]
        exact (named_of_live old.2).symm
    | poolClose => exact Ne.symm old.1
    | poolPush data dataSize allocSize => exact Ne.symm old.1
    | poolDrain => exact Ne.symm old.1
  · have kept := unowned other
    rwa [Pools.put_other same] at kept

end Leaks

section Balance

variable {ι α : Type} [DecidableEq ι] [OfNat α 0]

/-- Each buffer has been given back once, those of the open pools excepted, if and only if no pool has
ever been opened over another one. -/
theorem runPools_balanced_iff (allocator : Allocator α) (calls : List (ι × PoolCall α)) (state : Pools ι α)
    (run : runPools allocator calls = .ok state) :
    Balanced HeapCall.acquired HeapCall.released state.heap.trace state.owned ↔
      ∀ before call, before ++ [call] <+: calls → ∀ reached, runPools allocator before = .ok reached →
        ¬ reached.Reopens call := by
  rw [balanced_owned_iff (runPools_apart Pools.wiped_apart run)]
  induction calls using List.reverseRecOn generalizing state with
  | nil =>
      cases run
      refine iff_of_true (fun address leaks => absurd leaks.1 Bool.false_ne_true) fun before call within => ?_
      simp at within
  | append_singleton calls call ih =>
      obtain ⟨reached, earlier, stepped⟩ := bind_eq_ok.mp (runHistory_concat.symm.trans run)
      have apart := runPools_apart Pools.wiped_apart earlier
      have before := ih reached earlier
      constructor
      · intro tidy prior other within there ran reopens
        rcases List.prefix_concat_iff.mp within with same | within
        · obtain ⟨rfl, single⟩ := List.append_inj' same rfl
          cases single
          cases earlier.symm.trans ran
          exact tidy _ (reopens.leaks apart stepped)
        · exact before.mp (fun address leaks => tidy address (leaks.stays apart stepped)) prior other within
            there ran reopens
      · intro opens address leaks
        refine before.mpr (fun prior other within => opens prior other ?_) address
          (leaks.before apart stepped (opens calls call (List.prefix_refl _) reached earlier))
        exact within.trans (List.prefix_append calls [call])

/-- A pool that is opened twice and never closed. -/
def reopened : List (Unit × PoolCall U8) := [((), .poolOpen 2), ((), .poolOpen 3)]

theorem runPools_balanced_iff_reopened : ∃ state, runPools (.bump U8) reopened = .ok state ∧
    ¬ Balanced HeapCall.acquired HeapCall.released state.heap.trace state.owned := by
  have finishes : (runPools (.bump U8) reopened).isOk = true := by decide +kernel
  obtain ⟨state, run⟩ := eq_ok_of_isOk finishes
  refine ⟨state, run, fun balanced => ?_⟩
  have opens := (runPools_balanced_iff (.bump U8) reopened state run).mp balanced
  have first : (runPools (.bump U8) [((), .poolOpen 2)]).map (fun reached : Pools Unit U8 =>
      (reached.holder ()).pool.data) = .ok 1 := by decide +kernel
  cases opened : runPools (.bump U8) [((), PoolCall.poolOpen 2)] with
  | error fault =>
      rw [opened] at first
      cases first
  | ok reached =>
      rw [opened] at first
      refine opens [((), .poolOpen 2)] ((), .poolOpen 3) (List.prefix_refl _) reached opened ?_
      exact fun closed => by simp [Except.map, closed] at first

end Balance

end Koshka.Shared
