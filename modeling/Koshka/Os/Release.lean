import Mathlib.Data.List.Induction
import Koshka.Data.Ledger
import Koshka.Os.Vmem

namespace Koshka.Os

open Data

/-! Whether each block is released once, and by the allocator that it came from.

`vmem_free` calls `munmap` after `free` as well, and it reads the permission and the size from the
entry of the first block at the address.
-/

/-- What an allocator hands out. -/
inductive Resource where
  | heap (ptr : Pointer)
  | mapping (ptr : Pointer) (size : U64)
deriving Repr, DecidableEq

def Resource.ptr : Resource → Pointer
  | .heap ptr => ptr
  | .mapping ptr _ => ptr

def Primitive.acquired : Primitive → Option Resource
  | .malloc _ ptr => some (.heap ptr)
  | .mmap size ptr => some (.mapping ptr size)
  | .free _ => none
  | .munmap _ _ => none

def Primitive.released : Primitive → Option Resource
  | .malloc _ _ => none
  | .mmap _ _ => none
  | .free ptr => some (.heap ptr)
  | .munmap ptr size => some (.mapping ptr size)

def Allocation.resource (block : Allocation) : Resource :=
  if block.perm = .memRWX then .mapping block.ptr block.size else .heap block.ptr

/-- One for a resource that belongs to a live block. -/
def heldBy (history : List VmemOp) (resource : Resource) : Nat :=
  if (liveAt history resource.ptr).map Allocation.resource = some resource then 1 else 0

/-- What is freed is executable memory, as was the first block at its address, of the same size. -/
def FreesMapped (history : List VmemOp) : Prop :=
  ∀ before ptr, before ++ [.free ptr] <+: history →
    ∀ block, liveAt before ptr = some block → block.perm = .memRWX ∧ firstAt before ptr = some block

section Release

variable {before history : List VmemOp} {ptr answer : Pointer} {size : U64} {perm : VmemPermission}
  {block first : Allocation} {resource : Resource} {trace : List Primitive}

theorem Allocation.resource_ptr : block.resource.ptr = block.ptr := by
  rw [Allocation.resource]
  split <;> rfl

theorem acquireCall_acquired : (acquireCall size perm answer).acquired =
    some (Allocation.resource { ptr := answer, size, perm }) := by
  cases perm <;> rfl

theorem acquireCall_released : (acquireCall size perm answer).released = none := by
  cases perm <;> rfl

theorem releaseCalls_acquired : ∀ call ∈ releaseCalls ptr first, call.acquired = none := by
  intro call member
  rcases List.mem_append.mp member with member | member
  · split at member
    · cases List.mem_singleton.mp member
      rfl
    · exact absurd member List.not_mem_nil
  · cases List.mem_singleton.mp member
    rfl

theorem heldBy_live (live : liveAt history ptr = some block) (here : resource.ptr = ptr) :
    heldBy history resource = if block.resource = resource then 1 else 0 := by
  rw [heldBy, here, live, Option.map_some]
  simp only [Option.some.injEq]

theorem heldBy_free_address (free : liveAt history ptr = none) (here : resource.ptr = ptr) :
    heldBy history resource = 0 := by
  rw [heldBy, here, free]
  rfl

theorem heldBy_congr {other : List VmemOp}
    (same : liveAt history resource.ptr = liveAt other resource.ptr) :
    heldBy history resource = heldBy other resource := by
  rw [heldBy, heldBy, same]

theorem resource_elsewhere (place : block.ptr = ptr) (elsewhere : resource.ptr ≠ ptr) :
    block.resource ≠ resource := by
  intro same
  rw [← same, Allocation.resource_ptr] at elsewhere
  exact elsewhere place

/-- An allocation adds the resource of its block. -/
theorem heldBy_alloc (allowed : liveAt before answer = none) (resource : Resource) :
    heldBy (before ++ [.alloc size perm answer]) resource = heldBy before resource +
      if Allocation.resource { ptr := answer, size, perm } = resource then 1 else 0 := by
  by_cases here : resource.ptr = answer
  · rw [heldBy_free_address allowed here, Nat.zero_add]
    exact heldBy_live (by rw [liveAt_alloc, if_pos rfl]) here
  · rw [if_neg (resource_elsewhere rfl here)]
    exact heldBy_congr (by rw [liveAt_alloc, if_neg (Ne.symm here)])

/-- A release takes the resource of the live block away. -/
theorem heldBy_free (live : liveAt before ptr = some block) (resource : Resource) :
    heldBy before resource = heldBy (before ++ [.free ptr]) resource +
      if block.resource = resource then 1 else 0 := by
  by_cases here : resource.ptr = ptr
  · rw [heldBy_live live here, heldBy_free_address (by rw [liveAt_free, if_pos rfl]) here, Nat.zero_add]
  · rw [if_neg (resource_elsewhere (liveAt_allocated live).2 here)]
    exact heldBy_congr (by rw [liveAt_free, if_neg (Ne.symm here)])

theorem firstAt_ptr (found : firstAt history ptr = some first) : first.ptr = ptr :=
  of_decide_eq_true (List.find?_some (p := fun buf : Allocation => decide (buf.ptr = ptr)) found)

theorem Allocation.resource_mapping (mapped : block.perm = .memRWX) :
    block.resource = .mapping block.ptr block.size := if_pos mapped

theorem releaseCalls_tally (resource : Resource) :
    tally Primitive.released (releaseCalls ptr first) resource =
      (if first.perm ≠ .memRWX ∧ .heap ptr = resource then 1 else 0) +
        if .mapping ptr first.size = resource then 1 else 0 := by
  have unmapped : tally Primitive.released [.munmap ptr first.size] resource =
      if .mapping ptr first.size = resource then 1 else 0 := tally_singleton rfl
  have freed : tally Primitive.released [.free ptr] resource =
      if .heap ptr = resource then 1 else 0 := tally_singleton rfl
  rw [releaseCalls, tally_append, unmapped]
  by_cases mapped : first.perm = .memRWX
  · simp only [ne_eq, mapped, not_true_eq_false, ↓reduceIte, tally_nil, false_and]
  · rw [if_pos mapped, freed]
    simp only [ne_eq, mapped, not_false_eq_true, true_and]

/-- The calls of a release give back one resource only if it is the mapping of the entry found. -/
theorem releaseCalls_once_iff (place : block.ptr = ptr) (firstPlace : first.ptr = ptr) :
    (∀ resource, tally Primitive.released (releaseCalls ptr first) resource =
      if block.resource = resource then 1 else 0) ↔ block.perm = .memRWX ∧ first = block := by
  simp only [releaseCalls_tally]
  constructor
  · intro once
    -- the call of `munmap` is made in any case
    have mapping : block.resource = .mapping ptr first.size := by
      have unmapped := once (.mapping ptr first.size)
      rw [if_pos rfl] at unmapped
      by_contra other
      rw [if_neg other] at unmapped
      omega
    have firstMapped : first.perm = .memRWX := by
      by_contra unmapped
      have freed := once (.heap ptr)
      rw [mapping, if_pos ⟨unmapped, rfl⟩] at freed
      cases freed
    have mapped : block.perm = .memRWX := by
      by_contra other
      rw [Allocation.resource, if_neg other] at mapping
      cases mapping
    rw [Allocation.resource_mapping mapped] at mapping
    obtain ⟨-, size⟩ := Resource.mapping.inj mapping
    exact ⟨mapped, Allocation.ext (firstPlace.trans place.symm) size.symm (firstMapped.trans mapped.symm)⟩
  · intro both resource
    obtain ⟨mapped, rfl⟩ := both
    rw [if_neg fun unmapped => unmapped.1 mapped, Nat.zero_add, Allocation.resource_mapping mapped, place]

/-- Calling `vmem_free` on a live block keeps the balance if and only if the block is a mapping and
the entry that is found for it is its own. -/
theorem balanced_free_iff (live : liveAt before ptr = some block)
    (found : firstAt before ptr = some first)
    (balanced : Balanced Primitive.acquired Primitive.released trace (heldBy before)) :
    Balanced Primitive.acquired Primitive.released (trace ++ releaseCalls ptr first)
      (heldBy (before ++ [.free ptr])) ↔ block.perm = .memRWX ∧ first = block := by
  rw [balanced.release_iff releaseCalls_acquired (heldBy_free live)]
  exact releaseCalls_once_iff (liveAt_allocated live).2 (firstAt_ptr found)

theorem FreesMapped.earlier (frees : FreesMapped history) (earlier : before <+: history) :
    FreesMapped before :=
  fun older ptr within => frees older ptr (within.trans earlier)

theorem balanced_alloc (allowed : liveAt before answer = none)
    (balanced : Balanced Primitive.acquired Primitive.released trace (heldBy before)) :
    Balanced Primitive.acquired Primitive.released (trace ++ [acquireCall size perm answer])
      (heldBy (before ++ [.alloc size perm answer])) :=
  balanced.acquire acquireCall_acquired acquireCall_released (heldBy_alloc allowed)

/-- Running a history whose releases are all of mappings keeps the balance. -/
theorem FreesMapped.balanced (possible : Possible history) (few : (allocations history).length ≤ 1024)
    (frees : FreesMapped history) : ∃ state, runVmem history = .ok state ∧
      Balanced Primitive.acquired Primitive.released state.trace (heldBy history) := by
  induction possible with
  | start => exact ⟨_, rfl, balanced_nil fun resource => rfl⟩
  | next possible allowed ih =>
      rename_i before op
      have fewer := Nat.le_trans (allocations_earlier (List.prefix_append before [op])) few
      obtain ⟨state, run, balanced⟩ := ih fewer (frees.earlier (List.prefix_append before [op]))
      have records := runVmem_kept possible fewer run
      cases op with
      | alloc size perm answer =>
          rw [allocations_alloc, List.length_append] at few
          obtain ⟨after, allocated, -⟩ := records.alloc size perm answer few
          exact ⟨_, runVmem_alloc run allocated, balanced_alloc allowed balanced⟩
      | free ptr =>
          obtain ⟨block, live⟩ := Option.ne_none_iff_exists'.mp allowed
          obtain ⟨mapped, found⟩ := frees before ptr (List.prefix_refl _) block live
          exact ⟨_, runVmem_free run records found,
            (balanced_free_iff live found balanced).mpr ⟨mapped, rfl⟩⟩

/-- Throughout a history every block is released once and by its own allocator, and nothing else
is, if and only if only mappings are released that are as the first block at their address. -/
theorem release_balanced_iff (history : List VmemOp) (possible : Possible history)
    (few : (allocations history).length ≤ 1024) :
    (∀ before, before <+: history → ∃ state, runVmem before = .ok state ∧
      Balanced Primitive.acquired Primitive.released state.trace (heldBy before)) ↔
    FreesMapped history := by
  constructor
  · intro balances before ptr within block live
    have earlier := (List.prefix_append before [.free ptr]).trans within
    obtain ⟨state, run, balanced⟩ := balances before earlier
    have records := runVmem_kept (possible.earlier earlier)
      (Nat.le_trans (allocations_earlier earlier) few) run
    obtain ⟨first, found⟩ := firstAt_of_live live
    obtain ⟨after, freed, kept⟩ := balances _ within
    rw [runVmem_free run records found] at freed
    cases freed
    obtain ⟨mapped, rfl⟩ := (balanced_free_iff live found balanced).mp kept
    exact ⟨mapped, found⟩
  · intro frees before earlier
    exact (frees.earlier earlier).balanced (possible.earlier earlier)
      (Nat.le_trans (allocations_earlier earlier) few)

/-- A heap block that is allocated and freed. -/
def borrowed : List VmemOp := [.alloc 16 .memRW 4096, .free 4096]

theorem borrowed_possible : Possible borrowed := by
  have allocated : Possible ([] ++ [.alloc 16 .memRW 4096]) := .next .start rfl
  exact Possible.next allocated nofun

theorem release_balanced_iff_borrowed : (∀ before, before <+: borrowed →
    ∃ state, runVmem before = .ok state ∧
      Balanced Primitive.acquired Primitive.released state.trace (heldBy before)) ↔
    FreesMapped borrowed :=
  release_balanced_iff borrowed borrowed_possible (by decide)

/-- The block is freed and then unmapped, though it never was a mapping. -/
theorem release_balanced_fails_borrowed : Possible borrowed ∧ (allocations borrowed).length ≤ 1024 ∧
    ∃ state, runVmem borrowed = .ok state ∧
      state.trace = [.malloc 16 4096, .free 4096, .munmap 4096 16] ∧
      ¬ Balanced Primitive.acquired Primitive.released state.trace (heldBy borrowed) := by
  obtain ⟨after, allocated, records⟩ := initial_records.alloc 16 .memRW 4096 (by decide)
  have start : runVmem [] = .ok { vmem := .initial, trace := [] } := rfl
  have found : firstAt [.alloc 16 .memRW 4096] 4096 =
    some { ptr := 4096, size := 16, perm := .memRW } := rfl
  have run := runVmem_free (runVmem_alloc start allocated) records found
  refine ⟨borrowed_possible, by decide, _, run, rfl, fun balanced => ?_⟩
  have unmapped := balanced (.mapping 4096 16)
  cases unmapped

end Release

end Koshka.Os
