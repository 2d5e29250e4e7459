import Koshka.Data.Heap
import Koshka.Pool.Store

namespace Koshka.Shared

open Data

/-! The pools of `pool.c` in the heap that they share.

A pool has the address of its buffer only.  `view` looks the buffer up, and takes every operation
on the heap to the operation on the buffer.
-/

structure PoolT where
  data : Nat
  allocSize : PoolSize
  pos : PoolSize
deriving Repr, DecidableEq

/-- `(pool_t){0}` -/
def PoolT.wiped : PoolT where
  data := 0
  allocSize := 0
  pos := 0

section Operations

variable {α : Type}

def PoolT.view (heap : Heap α) (pool : PoolT) : Pool α where
  data := heap.cells pool.data
  allocSize := pool.allocSize
  pos := pool.pos

def heapFree (address : Nat) : Command (Heap α) Fault Unit := do
  match (← get).deallocate address with
  | some heap => set heap
  | none => throw .outOfBounds

def heapMemcpy (address start : Nat) (source : List α) (count : Nat) : Command (Heap α) Fault Unit := do
  let heap ← get
  let buffer ← memcpy (heap.cells address) start source count
  set (heap.store address buffer)

def poolCanHold (pool : PoolT) (size : PoolSize) : Bool :=
  decide (pool.pos + size < pool.allocSize)

def poolClose (pool : PoolT) : Command (Heap α) Fault PoolT := do
  heapFree pool.data
  return .wiped

def poolEmpty (pool : PoolT) : Bool :=
  pool.pos = 0 ∨ pool.allocSize = 0 ∨ pool.data = 0

/-- The copy into the buffer, once there is room. -/
def poolStore (pool : PoolT) (data : List α) (dataSize allocSize : PoolSize) :
    Command (Heap α) Fault (PoolHandle × PoolT) := do
  heapMemcpy pool.data pool.pos.toNat data dataSize.toNat
  return (pool.pos, { pool with pos := pool.pos + allocSize })

variable [OfNat α 0]

def heapCalloc (allocator : Allocator α) (size : Nat) : Command (Heap α) Fault Nat :=
  modifyGet fun heap => heap.allocate allocator (List.replicate size 0)

def heapMemset (address start : Nat) (value : α) (count : Nat) : Command (Heap α) Fault Unit :=
  heapMemcpy address start (List.replicate count value) count

def poolOpen (allocator : Allocator α) (initSize : PoolSize) : Command (Heap α) Fault PoolT := do
  let data ← heapCalloc allocator initSize.toNat
  return { data, allocSize := initSize, pos := 0 }

def poolNewsize (pool : PoolT) (allocSize : PoolSize) : PoolSize :=
  BitVec.ofNat 32 ((pool.allocSize + allocSize).toNat * 3 / 2)

/-- The reallocation in `pool_push`: `none` when its `calloc` fails. -/
def poolGrow (allocator : Allocator α) (pool : PoolT) (allocSize : PoolSize) :
    Command (Heap α) Fault (Option PoolT) := do
  let newsize := poolNewsize pool allocSize
  if pool.allocSize < newsize then
    let newbuf ← heapCalloc allocator newsize.toNat
    if newbuf = 0 then return none
    else
      let heap ← get
      heapMemcpy newbuf 0 (heap.cells pool.data) pool.allocSize.toNat
      heapFree pool.data
      return some { pool with data := newbuf, allocSize := newsize }
  else throw .assertFailed

def poolPush (allocator : Allocator α) (pool : PoolT) (data : List α) (dataSize allocSize : PoolSize) :
    Command (Heap α) Fault (PoolHandle × PoolT) := do
  let allocSize := poolReserve dataSize allocSize
  if poolCanHold pool allocSize then poolStore pool data dataSize allocSize
  else
    match ← poolGrow allocator pool allocSize with
    | none => return (poolInvalidHandle, pool)
    | some grown => poolStore grown data dataSize allocSize

def poolDrain (pool : PoolT) : Command (Heap α) Fault PoolT := do
  heapMemset pool.data 0 (0 : α) pool.allocSize.toNat
  return { pool with pos := 0 }

end Operations

/-- The buffer of the pool is live, if it has one. -/
def PoolT.Valid {α : Type} (heap : Heap α) (pool : PoolT) : Prop := pool.data = 0 ∨ heap.Live pool.data

/-- Of all the buffers in the heap only that of the pool is touched: it is kept, or given back for
one that was free before. -/
structure Takes {α : Type} (heap : Heap α) (pool : PoolT) (after : Heap α) (next : PoolT) : Prop where
  own : next.data = pool.data ∨ ¬ heap.Live next.data
  elsewhere : ∀ address, address ≠ pool.data → address ≠ next.data → after.block address = heap.block address
  live : ∀ address, after.Live address ↔
    (address = next.data ∧ address ≠ 0) ∨ (address ≠ pool.data ∧ heap.Live address)

/-- A buffer is handed out, or it is refused and the address is 0. -/
structure Allocates {α : Type} [OfNat α 0] (heap : Heap α) (succeeds : Bool) (size address : Nat)
    (after : Heap α) : Prop where
  named : address = 0 ↔ succeeds = false
  free : ¬ heap.Live address
  cells : after.cells address = calloc succeeds size
  elsewhere : ∀ other, other ≠ address → after.block other = heap.block other
  live : after.Live address ↔ address ≠ 0

section Rules

variable {α : Type} {heap after : Heap α} {pool next last : PoolT} {buffer source : List α}
  {address start count : Nat} {fault : Fault}

theorem named_of_live (live : heap.Live address) : address ≠ 0 := by
  rintro rfl
  exact Heap.not_live_zero live

theorem Takes.valid (takes : Takes heap pool after next) : next.Valid after := by
  by_cases empty : next.data = 0
  · exact Or.inl empty
  · exact Or.inr ((takes.live _).mpr (Or.inl ⟨rfl, empty⟩))

theorem PoolT.Valid.takes (valid : pool.Valid heap) : Takes heap pool heap pool where
  own := Or.inl rfl
  elsewhere := fun _ _ _ => rfl
  live := by
    intro other
    by_cases here : other = pool.data
    · rcases valid with empty | live
      · simp [here, empty, Heap.not_live_zero]
      · simp [here, live, named_of_live live]
    · simp [here]

/-- What is stored in the buffer stays there. -/
theorem Takes.store (takes : Takes heap pool after next) (same : last.data = next.data) :
    Takes heap pool (after.store next.data buffer) last where
  own := same ▸ takes.own
  elsewhere := by
    intro other apart away
    rw [same] at away
    rw [Heap.store_elsewhere away, takes.elsewhere other apart away]
  live := by
    intro other
    rw [Heap.store_live, same]
    exact takes.live other

theorem heapMemcpy_returns (copied : memcpy (heap.cells address) start source count = .ok buffer) :
    Returns (heapMemcpy address start source count) heap () (heap.store address buffer) := by
  simp [heapMemcpy, copied]

theorem heapMemcpy_fails (failed : memcpy (heap.cells address) start source count = .error fault) :
    Fails (heapMemcpy address start source count) heap fault := by
  simp [heapMemcpy, failed]

theorem heapFree_returns (freed : heap.deallocate address = some after) :
    Returns (heapFree address) heap () after := by
  simp [heapFree, freed]

theorem PoolT.Valid.deallocates (valid : pool.Valid heap) :
    ∃ after, heap.deallocate pool.data = some after ∧
      ∀ address, after.block address = if address = pool.data then none else heap.block address := by
  rcases valid with empty | live
  · refine ⟨heap, ?_, fun address => ?_⟩
    · rw [empty, Heap.deallocate_zero]
    · split
      · rename_i here
        rw [here, empty, heap.null]
      · rfl
  · exact ⟨_, Heap.deallocate_live live, fun address => Function.update_apply ..⟩

/-- A copy that fits the buffer, also where there is none. -/
theorem cells_store_copied (copied : memcpy (heap.cells address) start source count = .ok buffer) :
    (heap.store address buffer).cells address = buffer := by
  by_cases live : heap.Live address
  · exact Heap.cells_store live
  · have missing : heap.block address = none := Option.not_isSome_iff_eq_none.mp live
    have nothing : heap.cells address = [] := by rw [Heap.cells, missing, Option.getD_none]
    rw [nothing, memcpy] at copied
    split at copied
    · rename_i room
      cases copied
      have none_copied : count = 0 := by
        have bound := room.2
        rw [List.length_nil] at bound
        omega
      rw [Heap.store, dif_neg live, nothing, none_copied]
      simp [overwrite]
    · cases copied

section Zeros

variable [OfNat α 0] {allocator : Allocator α} {size : Nat}

theorem heapCalloc_returns (allocator : Allocator α) (heap : Heap α) (size : Nat) :
    ∃ address after, Returns (heapCalloc allocator size) heap address after ∧
      Allocates heap (allocator.answer heap size).isSome size address after ∧
      (allocator.answer heap size = none → after = heap) := by
  have width : (List.replicate size (0 : α)).length = size := List.length_replicate
  have run : Returns (heapCalloc allocator size) heap
      (heap.allocate allocator (List.replicate size 0)).1 (heap.allocate allocator (List.replicate size 0)).2 :=
    rfl
  cases answer : allocator.answer heap size with
  | none =>
      rw [← width] at answer
      rw [Heap.allocate_refused answer] at run
      refine ⟨0, heap, run, ⟨iff_of_true rfl rfl, Heap.not_live_zero, Heap.cells_zero, fun _ _ => rfl, ?_⟩,
        fun _ => rfl⟩
      exact iff_of_false Heap.not_live_zero fun named => named rfl
  | some address =>
      obtain ⟨free, named⟩ := allocator.fresh answer
      rw [← width] at answer
      rw [Heap.allocate_granted answer] at run
      refine ⟨address, _, run, ⟨iff_of_false named (by simp), ?_, ?_, ?_, ?_⟩, fun refused => ?_⟩
      · rw [Heap.Live, free]
        exact Bool.false_ne_true
      · rw [Heap.cells, Heap.block_acquire, Function.update_self]
        rfl
      · exact fun other apart => Function.update_of_ne apart _ _
      · refine iff_of_true ?_ named
        rw [Heap.Live, Heap.block_acquire, Function.update_self]
        rfl
      · cases refused

theorem poolOpen_returns (allocator : Allocator α) (heap : Heap α) (initSize : PoolSize) :
    ∃ pool after, Returns (poolOpen allocator initSize) heap pool after ∧
      pool.view after = Koshka.poolOpen (allocator.answer heap initSize.toNat).isSome initSize ∧
      Takes heap .wiped after pool := by
  obtain ⟨address, after, run, allocates, -⟩ := heapCalloc_returns allocator heap initSize.toNat
  refine ⟨{ data := address, allocSize := initSize, pos := 0 }, after, ?_, ?_, ?_⟩
  · exact returns_bind.mpr ⟨address, after, run, returns_pure.mpr ⟨rfl, rfl⟩⟩
  · rw [PoolT.view, allocates.cells]
    rfl
  · refine ⟨Or.inr allocates.free, fun other _ apart => allocates.elsewhere other apart, fun other => ?_⟩
    by_cases here : other = address
    · subst here
      simp [allocates.live, allocates.free]
    · rw [Heap.live_congr (allocates.elsewhere other here)]
      have named : heap.Live other → other ≠ 0 := named_of_live
      simp only [here, false_and, false_or, PoolT.wiped]
      exact ⟨fun live => ⟨named live, live⟩, And.right⟩

omit [OfNat α 0] in
theorem poolClose_returns (valid : pool.Valid heap) :
    ∃ after, Returns (poolClose pool) heap .wiped after ∧ Takes heap pool after .wiped := by
  obtain ⟨after, freed, blocks⟩ := valid.deallocates
  refine ⟨after, ?_, Or.inr Heap.not_live_zero, ?_, ?_⟩
  · exact returns_bind.mpr ⟨(), after, heapFree_returns freed, returns_pure.mpr ⟨rfl, rfl⟩⟩
  · intro other apart _
    rw [blocks, if_neg apart]
  · intro other
    rw [Heap.Live, blocks]
    by_cases here : other = pool.data
    · simp [here, PoolT.wiped]
    · simp [here, PoolT.wiped, Heap.Live]

variable {data : List α} {dataSize allocSize : PoolSize} {handle : PoolHandle} {value : Pool α}

omit [OfNat α 0] in
theorem poolStore_returns (takes : Takes heap pool after next)
    (stored : Koshka.poolStore (next.view after) data dataSize allocSize = .ok (handle, value)) :
    ∃ final last, Returns (poolStore next data dataSize allocSize) after (handle, last) final ∧
      last.view final = value ∧ Takes heap pool final last := by
  obtain ⟨buffer, copied, done⟩ := bind_eq_ok.mp stored
  cases done
  refine ⟨after.store next.data buffer, { next with pos := next.pos + allocSize }, ?_, ?_, takes.store rfl⟩
  · exact returns_bind.mpr ⟨(), _, heapMemcpy_returns copied, returns_pure.mpr ⟨rfl, rfl⟩⟩
  · simp only [PoolT.view, cells_store_copied copied]

omit [OfNat α 0] in
theorem poolStore_fails
    (failed : Koshka.poolStore (pool.view heap) data dataSize allocSize = .error fault) :
    Fails (poolStore pool data dataSize allocSize) heap fault := by
  rcases bind_eq_error.mp failed with copied | ⟨_, _, done⟩
  · exact fails_bind.mpr (Or.inl (heapMemcpy_fails copied))
  · cases done

theorem Allocates.named_of_true (allocates : Allocates heap true size address after) : address ≠ 0 := by
  intro empty
  simp [allocates.named] at empty

theorem Allocates.moves (allocates : Allocates heap true size address after) (valid : pool.Valid heap) :
    pool.data ≠ address := by
  rintro rfl
  rcases valid with empty | taken
  · exact allocates.named_of_true empty
  · exact allocates.free taken

/-- The buffer that a pool grows into takes the place of its own. -/
theorem Allocates.takes (allocates : Allocates heap true size address after) (valid : pool.Valid heap)
    (buffer : List α) (same : next.data = address) :
    ∃ final, (after.store address buffer).deallocate pool.data = some final ∧ Takes heap pool final next ∧
      final.cells address = buffer := by
  have named := allocates.named_of_true
  have moved := allocates.moves valid
  have live := allocates.live.mpr named
  have kept : pool.Valid (after.store address buffer) := by
    refine valid.imp_right fun live => ?_
    rwa [Heap.store_live, Heap.live_congr (allocates.elsewhere _ moved)]
  obtain ⟨final, freed, blocks⟩ := kept.deallocates
  have elsewhere (other : Nat) (apart : other ≠ pool.data) (away : other ≠ address) :
      final.block other = heap.block other := by
    rw [blocks, if_neg apart, Heap.store_elsewhere away, allocates.elsewhere other away]
  have there : final.block address = some buffer := by
    rw [blocks, if_neg moved.symm, Heap.block_store live, Function.update_self]
  refine ⟨final, freed, ⟨Or.inr (same ▸ allocates.free), ?_, fun other => ?_⟩, ?_⟩
  · exact fun other apart away => elsewhere other apart (same ▸ away)
  · rw [same]
    by_cases here : other = address
    · subst here
      simp [Heap.Live, there, named]
    · by_cases old : other = pool.data
      · simp [Heap.Live, blocks, old, moved]
      · simp [Heap.live_congr (elsewhere other old here), here, old]
  · rw [Heap.cells, there, Option.getD_some]

theorem poolGrow_returns {found : Option (Pool α)} (valid : pool.Valid heap)
    (growth : Koshka.poolGrow (allocator.answer heap (poolNewsize pool allocSize).toNat).isSome
      (pool.view heap) allocSize = .ok found) :
    ∃ grown after, Returns (poolGrow allocator pool allocSize) heap grown after ∧
      grown.map (PoolT.view after) = found ∧ (grown = none → after = heap) ∧
      Takes heap pool after (grown.getD pool) := by
  obtain ⟨address, after, run, allocates, same⟩ :=
    heapCalloc_returns allocator heap (poolNewsize pool allocSize).toNat
  have newsize : Koshka.poolNewsize (pool.view heap) allocSize = poolNewsize pool allocSize := rfl
  simp only [Koshka.poolGrow, newsize] at growth
  split at growth
  · rename_i larger
    have larger : pool.allocSize < poolNewsize pool allocSize := larger
    rw [poolGrow, if_pos larger]
    cases answer : allocator.answer heap (poolNewsize pool allocSize).toNat with
    | none =>
        rw [answer] at growth allocates
        cases growth
        rw [same answer] at run
        refine ⟨none, heap, returns_bind.mpr ⟨address, heap, run, ?_⟩, rfl, fun _ => rfl, valid.takes⟩
        rw [if_pos (allocates.named.mpr rfl)]
        exact returns_pure.mpr ⟨rfl, rfl⟩
    | some newbuf =>
        rw [answer] at growth allocates
        simp only [Option.isSome_some, if_true, bind_eq_ok] at growth
        obtain ⟨buffer, copied, done⟩ := growth
        cases done
        have moved := allocates.moves valid
        have source : memcpy (after.cells address) 0 (after.cells pool.data) pool.allocSize.toNat =
            .ok buffer := by
          rw [allocates.cells, Heap.cells_congr (allocates.elsewhere _ moved)]
          exact copied
        let grown : PoolT := { pool with data := address, allocSize := poolNewsize pool allocSize }
        obtain ⟨final, freed, takes, cells⟩ := allocates.takes valid buffer (show grown.data = address from rfl)
        refine ⟨some grown, final, returns_bind.mpr ⟨address, after, run, ?_⟩, ?_, by simp, takes⟩
        · rw [if_neg allocates.named_of_true]
          refine returns_get_bind.mpr (returns_bind.mpr ⟨(), _, heapMemcpy_returns source, ?_⟩)
          exact returns_bind.mpr ⟨(), final, heapFree_returns freed, returns_pure.mpr ⟨rfl, rfl⟩⟩
        · simp only [Option.map_some, PoolT.view, grown, cells]
  · cases growth

theorem poolGrow_fails (valid : pool.Valid heap)
    (failed : Koshka.poolGrow (allocator.answer heap (poolNewsize pool allocSize).toNat).isSome
      (pool.view heap) allocSize = .error fault) :
    Fails (poolGrow allocator pool allocSize) heap fault := by
  obtain ⟨address, after, run, allocates, -⟩ :=
    heapCalloc_returns allocator heap (poolNewsize pool allocSize).toNat
  have newsize : Koshka.poolNewsize (pool.view heap) allocSize = poolNewsize pool allocSize := rfl
  simp only [Koshka.poolGrow, newsize] at failed
  split at failed
  · rename_i larger
    have larger : pool.allocSize < poolNewsize pool allocSize := larger
    rw [poolGrow, if_pos larger]
    split at failed
    · rename_i answered
      rw [answered] at allocates
      rcases bind_eq_error.mp failed with copied | ⟨_, _, done⟩
      · have source : memcpy (after.cells address) 0 (after.cells pool.data) pool.allocSize.toNat =
            .error fault := by
          rw [allocates.cells, Heap.cells_congr (allocates.elsewhere _ (allocates.moves valid))]
          exact copied
        refine fails_bind.mpr (Or.inr ⟨address, after, run, ?_⟩)
        rw [if_neg allocates.named_of_true]
        refine fails_bind.mpr (Or.inr ⟨after, after, returns_get.mpr ⟨rfl, rfl⟩, ?_⟩)
        exact fails_bind.mpr (Or.inl (heapMemcpy_fails source))
      · cases done
    · cases failed
  · rename_i small
    have small : ¬ pool.allocSize < poolNewsize pool allocSize := small
    cases failed
    rw [poolGrow, if_neg small]
    exact fails_throw.mpr rfl

theorem poolPush_returns (valid : pool.Valid heap)
    (pushed : Koshka.poolPush
      (allocator.answer heap (poolNewsize pool (poolReserve dataSize allocSize)).toNat).isSome
      (pool.view heap) data dataSize allocSize = .ok (handle, value)) :
    ∃ next after, Returns (poolPush allocator pool data dataSize allocSize) heap (handle, next) after ∧
      next.view after = value ∧ Takes heap pool after next := by
  have held : Koshka.poolCanHold (pool.view heap) = poolCanHold pool := rfl
  simp only [Koshka.poolPush, held] at pushed
  rw [poolPush]
  split at pushed
  · rename_i room
    rw [if_pos room]
    obtain ⟨final, last, run, view, takes⟩ := poolStore_returns valid.takes pushed
    exact ⟨last, final, run, view, takes⟩
  · rename_i full
    rw [if_neg full]
    obtain ⟨found, growth, pushed⟩ := bind_eq_ok.mp pushed
    obtain ⟨grown, after, run, rfl, same, takes⟩ := poolGrow_returns valid growth
    cases grown with
    | none =>
        cases same rfl
        cases pushed
        exact ⟨pool, heap, returns_bind.mpr ⟨none, heap, run, returns_pure.mpr ⟨rfl, rfl⟩⟩, rfl, takes⟩
    | some grown =>
        obtain ⟨final, last, stored, view, takes⟩ := poolStore_returns takes pushed
        exact ⟨last, final, returns_bind.mpr ⟨some grown, after, run, stored⟩, view, takes⟩

theorem poolPush_fails (valid : pool.Valid heap)
    (failed : Koshka.poolPush
      (allocator.answer heap (poolNewsize pool (poolReserve dataSize allocSize)).toNat).isSome
      (pool.view heap) data dataSize allocSize = .error fault) :
    Fails (poolPush allocator pool data dataSize allocSize) heap fault := by
  have held : Koshka.poolCanHold (pool.view heap) = poolCanHold pool := rfl
  simp only [Koshka.poolPush, held] at failed
  rw [poolPush]
  split at failed
  · rename_i room
    rw [if_pos room]
    exact poolStore_fails failed
  · rename_i full
    rw [if_neg full]
    rcases bind_eq_error.mp failed with failed | ⟨found, growth, failed⟩
    · exact fails_bind.mpr (Or.inl (poolGrow_fails valid failed))
    · obtain ⟨grown, after, run, rfl, -, -⟩ := poolGrow_returns valid growth
      refine fails_bind.mpr (Or.inr ⟨grown, after, run, ?_⟩)
      cases grown with
      | none => cases failed
      | some grown => exact poolStore_fails failed

theorem poolDrain_returns (valid : pool.Valid heap) (drained : Koshka.poolDrain (pool.view heap) = .ok value) :
    ∃ next after, Returns (poolDrain pool) heap next after ∧ next.view after = value ∧
      Takes heap pool after next := by
  obtain ⟨buffer, cleared, done⟩ := bind_eq_ok.mp drained
  cases done
  refine ⟨{ pool with pos := 0 }, heap.store pool.data buffer, ?_, ?_, valid.takes.store rfl⟩
  · exact returns_bind.mpr ⟨(), _, heapMemcpy_returns cleared, returns_pure.mpr ⟨rfl, rfl⟩⟩
  · simp only [PoolT.view, cells_store_copied cleared]

theorem poolDrain_fails (failed : Koshka.poolDrain (pool.view heap) = .error fault) :
    Fails (poolDrain pool) heap fault := by
  rcases bind_eq_error.mp failed with cleared | ⟨_, _, done⟩
  · exact fails_bind.mpr (Or.inl (heapMemcpy_fails cleared))
  · cases done

end Zeros

end Rules

end Koshka.Shared
