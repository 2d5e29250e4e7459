import Mathlib.Data.List.Perm.Subperm
import Mathlib.Logic.Function.Basic
import Koshka.Data.Ledger

namespace Koshka.Data

/-! Heaps of blocks, and the allocators that hand out their addresses.

There is no block at address 0.  A heap keeps the trace of the calls that it comes from: allocators
may go by it, and it accounts for every block.
-/

inductive HeapCall where
  | acquire (address count : Nat)
  | release (address : Nat)
deriving Repr, DecidableEq

def HeapCall.acquired : HeapCall → Option Nat
  | .acquire address _ => some address
  | .release _ => none

def HeapCall.released : HeapCall → Option Nat
  | .acquire _ _ => none
  | .release address => some address

/-- One where there is a block. -/
def holding {α : Type} (block : Nat → Option (List α)) (address : Nat) : Nat :=
  if (block address).isSome then 1 else 0

structure Heap (α : Type) where
  block : Nat → Option (List α)
  trace : List HeapCall
  null : block 0 = none
  balanced : Balanced HeapCall.acquired HeapCall.released trace (holding block)

/-- What an allocator answers lies at a free address, if it does not refuse. -/
structure Allocator (α : Type) where
  answer : Heap α → Nat → Option Nat
  fresh : ∀ {heap count address}, answer heap count = some address →
    heap.block address = none ∧ address ≠ 0

namespace Heap

variable {α : Type} {heap : Heap α} {allocator : Allocator α} {address other count : Nat}
  {content : List α}

def Live (heap : Heap α) (address : Nat) : Prop := (heap.block address).isSome = true

instance (heap : Heap α) (address : Nat) : Decidable (heap.Live address) :=
  inferInstanceAs (Decidable (_ = true))

/-- The cells of the block, and none where there is no block. -/
def cells (heap : Heap α) (address : Nat) : List α := (heap.block address).getD []

def empty : Heap α where
  block _ := none
  trace := []
  null := rfl
  balanced := balanced_nil fun _ => rfl

theorem holding_acquire (free : heap.block address = none) (resource : Nat) :
    holding (Function.update heap.block address (some content)) resource =
      holding heap.block resource + if address = resource then 1 else 0 := by
  unfold holding
  by_cases here : resource = address
  · rw [here, Function.update_self, free, if_pos rfl]
    rfl
  · rw [Function.update_of_ne here, if_neg (Ne.symm here), Nat.add_zero]

theorem holding_release (live : heap.Live address) (resource : Nat) :
    holding heap.block resource =
      holding (Function.update heap.block address none) resource + if address = resource then 1 else 0 := by
  unfold holding
  by_cases here : resource = address
  · rw [here, Function.update_self, if_pos rfl]
    exact if_pos live
  · rw [Function.update_of_ne here, if_neg (Ne.symm here), Nat.add_zero]

theorem holding_store (live : heap.Live address) :
    holding (Function.update heap.block address (some content)) = holding heap.block := by
  funext resource
  unfold holding
  by_cases here : resource = address
  · rw [here, Function.update_self]
    exact (if_pos live).symm
  · rw [Function.update_of_ne here]

def acquire (heap : Heap α) (address : Nat) (content : List α) (free : heap.block address = none)
    (named : address ≠ 0) : Heap α where
  block := Function.update heap.block address (some content)
  trace := heap.trace ++ [.acquire address content.length]
  null := by rw [Function.update_of_ne named.symm, heap.null]
  balanced := heap.balanced.acquire rfl rfl (holding_acquire free)

def release (heap : Heap α) (address : Nat) (live : heap.Live address) : Heap α where
  block := Function.update heap.block address none
  trace := heap.trace ++ [.release address]
  null := by
    rw [Function.update_apply]
    split
    · rfl
    · exact heap.null
  balanced := by
    refine (heap.balanced.release_iff (by simp [HeapCall.acquired]) (holding_release live)).mpr fun resource => ?_
    exact tally_singleton rfl

/-- The block has other cells. -/
def store (heap : Heap α) (address : Nat) (content : List α) : Heap α :=
  if live : heap.Live address then
    { block := Function.update heap.block address (some content)
      trace := heap.trace
      null := by
        have named : 0 ≠ address := fun same => by simp [Live, ← same, heap.null] at live
        rw [Function.update_of_ne named, heap.null]
      balanced := (holding_store live).symm ▸ heap.balanced }
  else heap

/-- The address of the block that is handed out, or 0. -/
def allocate (heap : Heap α) (allocator : Allocator α) (content : List α) : Nat × Heap α :=
  match found : allocator.answer heap content.length with
  | some address =>
      (address, heap.acquire address content (allocator.fresh found).1 (allocator.fresh found).2)
  | none => (0, heap)

/-- Only what is live can be given back, and address 0. -/
def deallocate (heap : Heap α) (address : Nat) : Option (Heap α) :=
  if address = 0 then some heap
  else if live : heap.Live address then some (heap.release address live) else none

theorem not_live_zero : ¬ heap.Live 0 := by
  simp [Live, heap.null]

theorem cells_zero : heap.cells 0 = [] := by
  rw [cells, heap.null]
  rfl

theorem block_acquire {free : heap.block address = none} {named : address ≠ 0} :
    (heap.acquire address content free named).block =
      Function.update heap.block address (some content) := rfl

theorem block_store (live : heap.Live address) :
    (heap.store address content).block = Function.update heap.block address (some content) := by
  rw [store, dif_pos live]

theorem store_elsewhere (apart : other ≠ address) :
    (heap.store address content).block other = heap.block other := by
  unfold store
  split
  · exact Function.update_of_ne apart _ _
  · rfl

theorem store_live : (heap.store address content).Live other ↔ heap.Live other := by
  by_cases live : heap.Live address
  · by_cases here : other = address
    · rw [here]
      refine iff_of_true ?_ live
      rw [Live, block_store live, Function.update_self]
      rfl
    · rw [Live, store_elsewhere here, Live]
  · rw [store, dif_neg live]

theorem cells_store (live : heap.Live address) : (heap.store address content).cells address = content := by
  rw [cells, block_store live, Function.update_self, Option.getD_some]

theorem cells_congr {after : Heap α} (same : after.block address = heap.block address) :
    after.cells address = heap.cells address := by
  rw [cells, cells, same]

theorem live_congr {after : Heap α} (same : after.block address = heap.block address) :
    after.Live address ↔ heap.Live address := by
  rw [Live, Live, same]

theorem allocate_refused (refused : allocator.answer heap content.length = none) :
    heap.allocate allocator content = (0, heap) := by
  unfold allocate
  split
  · rename_i found
    cases refused.symm.trans found
  · rfl

theorem allocate_granted (granted : allocator.answer heap content.length = some address) :
    heap.allocate allocator content =
      (address, heap.acquire address content (allocator.fresh granted).1 (allocator.fresh granted).2) := by
  unfold allocate
  split
  · rename_i found
    cases granted.symm.trans found
    rfl
  · rename_i found
    cases granted.symm.trans found

theorem deallocate_zero : heap.deallocate 0 = some heap := if_pos rfl

theorem deallocate_live (live : heap.Live address) :
    heap.deallocate address = some (heap.release address live) := by
  have named : address ≠ 0 := by
    rintro rfl
    exact not_live_zero live
  rw [deallocate, if_neg named, dif_pos live]

theorem tally_acquired (address : Nat) : tally HeapCall.acquired heap.trace address =
    tally HeapCall.released heap.trace address + if heap.Live address then 1 else 0 :=
  heap.balanced address

/-- What is live has been acquired. -/
theorem Live.acquired (live : heap.Live address) : address ∈ heap.trace.filterMap HeapCall.acquired := by
  have acquired := heap.tally_acquired address
  rw [if_pos live, tally] at acquired
  exact List.count_pos_iff.mp (by omega)

/-- How many blocks have been handed out and not been given back. -/
def held (heap : Heap α) : Nat :=
  (heap.trace.filterMap HeapCall.acquired).length - (heap.trace.filterMap HeapCall.released).length

@[simp] theorem held_empty : (empty : Heap α).held = 0 := rfl

theorem released_length_le :
    (heap.trace.filterMap HeapCall.released).length ≤ (heap.trace.filterMap HeapCall.acquired).length := by
  refine (List.subperm_ext_iff.mpr fun address _ => ?_).length_le
  have acquired := heap.tally_acquired address
  rw [tally, tally] at acquired
  omega

theorem held_acquire {free : heap.block address = none} {named : address ≠ 0} :
    (heap.acquire address content free named).held = heap.held + 1 := by
  have before := heap.released_length_le
  simp only [held, acquire, List.filterMap_append, List.length_append, HeapCall.acquired, HeapCall.released,
    List.filterMap_cons, List.filterMap_nil, List.length_cons, List.length_nil]
  omega

theorem held_release (live : heap.Live address) : (heap.release address live).held + 1 = heap.held := by
  have after := (heap.release address live).released_length_le
  simp only [held, release, List.filterMap_append, List.length_append, HeapCall.acquired, HeapCall.released,
    List.filterMap_cons, List.filterMap_nil, List.length_cons, List.length_nil] at after ⊢
  omega

@[simp] theorem held_store : (heap.store address content).held = heap.held := by
  unfold store
  split <;> rfl

/-- The trace balances with the blocks that are live, and with no others. -/
theorem balanced_iff {held : Nat → Nat} :
    Balanced HeapCall.acquired HeapCall.released heap.trace held ↔
      ∀ address, held address = if heap.Live address then 1 else 0 := by
  refine forall_congr' fun address => ?_
  rw [tally_acquired]
  omega

end Heap

/-- The allocator that goes on behind everything it has ever handed out. -/
def Allocator.bump (α : Type) : Allocator α where
  answer heap _ := some ((heap.trace.filterMap HeapCall.acquired).foldr max 0 + 1)
  fresh := by
    intro heap count address answered
    cases answered
    refine ⟨Option.not_isSome_iff_eq_none.mp fun live => ?_, Nat.succ_ne_zero _⟩
    have below (addresses : List Nat) : ∀ address ∈ addresses, address ≤ addresses.foldr max 0 := by
      induction addresses with
      | nil => simp
      | cons first addresses ih =>
          intro address member
          rcases List.mem_cons.mp member with rfl | member
          · exact Nat.le_max_left ..
          · exact Nat.le_trans (ih address member) (Nat.le_max_right ..)
    exact Nat.not_succ_le_self _ (below _ _ (Heap.Live.acquired live))

end Koshka.Data
