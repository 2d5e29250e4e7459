import Koshka.Pool

namespace Koshka

open Data

inductive PoolOp (α : Type) where
  | push (data : List α) (dataSize allocSize : PoolSize)
  | drain
deriving Repr, DecidableEq

namespace PoolOp

variable {α : Type}

/-- What `pool_push` asks of its caller, and a reservation of at least one byte. -/
def Valid : PoolOp α → Prop
  | .push data dataSize allocSize =>
      (allocSize = 0 ∨ dataSize ≤ allocSize) ∧ dataSize.toNat ≤ data.length ∧
        0 < (poolReserve dataSize allocSize).toNat
  | .drain => True

instance : DecidablePred (Valid : PoolOp α → Prop)
  | .push _ _ _ => inferInstanceAs (Decidable (_ ∧ _ ∧ _))
  | .drain => inferInstanceAs (Decidable True)

def request : PoolOp α → Option Nat
  | .push _ dataSize allocSize => some (poolReserve dataSize allocSize).toNat
  | .drain => none

end PoolOp

/-- No size computed by a run of requests leaves `u32`. -/
def SizesFit (capacity pos : Nat) : List (Option Nat) → Prop
  | [] => True
  | none :: rest => SizesFit capacity 0 rest
  | some reserved :: rest =>
      SizeFits capacity pos reserved ∧
        SizesFit (capacityAfter capacity pos reserved) (pos + reserved) rest

def decideSizesFit (capacity pos : Nat) : (requests : List (Option Nat)) →
    Decidable (SizesFit capacity pos requests)
  | [] => .isTrue trivial
  | none :: rest => decideSizesFit capacity 0 rest
  | some reserved :: rest =>
      @instDecidableAnd _ _ _
        (decideSizesFit (capacityAfter capacity pos reserved) (pos + reserved) rest)

instance (capacity pos : Nat) (requests : List (Option Nat)) :
    Decidable (SizesFit capacity pos requests) :=
  decideSizesFit capacity pos requests

section Run

variable {α : Type} [OfNat α 0]

/-- A run of the pool.  It collects the handles returned since the last drain. -/
def runPool : List (PoolOp α) → Pool α × List PoolHandle → Except Fault (Pool α × List PoolHandle)
  | [], state => .ok state
  | .push data dataSize allocSize :: rest, (pool, handles) => do
      let (handle, pool) ← poolPush true pool data dataSize allocSize
      runPool rest (pool, handles ++ [handle])
  | .drain :: rest, (pool, _) => do
      let pool ← poolDrain pool
      runPool rest (pool, [])

/-- The reservations made since the last drain: the data, then zeros. -/
def liveBlocks : List (PoolOp α) → List (List α) → List (List α)
  | [], blocks => blocks
  | .push data dataSize allocSize :: rest, blocks =>
      liveBlocks rest
        (blocks ++ [reservation data dataSize.toNat (poolReserve dataSize allocSize).toNat])
  | .drain :: rest, _ => liveBlocks rest []

/-- Every handle is the running sum of the sizes reserved before it, its range lies
inside the buffer and behind the ranges before it, and reading there gives exactly
what was stored. -/
structure Faithful (pool : Pool α) (handles : List PoolHandle) (blocks : List (List α)) : Prop where
  count : handles.length = blocks.length
  sums : ∀ index (bound : index < blocks.length),
    (handles.get ⟨index, count ▸ bound⟩).toNat = ((blocks.take index).map List.length).sum
  inside : ∀ index (bound : index < blocks.length),
    (handles.get ⟨index, count ▸ bound⟩).toNat + blocks[index].length ≤ pool.allocSize.toNat
  apart : ∀ index other (bound : other < blocks.length) (before : index < other),
    (handles.get ⟨index, by omega⟩).toNat + blocks[index].length ≤
      (handles.get ⟨other, by omega⟩).toNat
  contents : ∀ index (bound : index < blocks.length),
    (poolGetdata pool (handles.get ⟨index, count ▸ bound⟩)).take blocks[index].length = blocks[index]

end Run

section Handles

variable {α : Type} {blocks : List (List α)}

def handlesOf (blocks : List (List α)) : List PoolHandle :=
  (List.range blocks.length).map fun index => BitVec.ofNat 32 (offset blocks index)

@[simp] theorem handlesOf_length : (handlesOf blocks).length = blocks.length := by
  simp [handlesOf]

theorem handlesOf_append (block : List α) :
    handlesOf (blocks ++ [block]) =
      handlesOf blocks ++ [BitVec.ofNat 32 blocks.flatten.length] := by
  simp only [handlesOf, List.length_append, List.length_singleton, List.range_succ, List.map_append,
    List.map_cons, List.map_nil]
  congr 1
  · apply List.map_congr_left
    intro index member
    rw [offset_append (Nat.le_of_lt (List.mem_range.mp member))]
  · rw [offset_append (Nat.le_refl _), offset_length]

variable [OfNat α 0] {pool : Pool α}

theorem Pool.Holds.handle_toNat (holds : pool.Holds blocks) {index : Nat}
    (bound : index < blocks.length) :
    ((handlesOf blocks).get ⟨index, by simpa using bound⟩).toNat = offset blocks index := by
  have small : offset blocks index < 2 ^ 32 := by
    have before := block_inside bound
    have position := holds.pos
    have limit := pool.pos.isLt
    omega
  simp only [List.get_eq_getElem, handlesOf, List.getElem_map, List.getElem_range, BitVec.toNat_ofNat]
  exact Nat.mod_eq_of_lt small

theorem Pool.Holds.faithful (holds : pool.Holds blocks) : Faithful pool (handlesOf blocks) blocks where
  count := handlesOf_length
  sums := fun index bound => holds.handle_toNat bound
  inside := by
    intro index bound
    rw [holds.handle_toNat bound]
    exact Nat.le_trans (block_inside bound) (holds.pos ▸ holds.inside)
  apart := by
    intro index other bound before
    rw [holds.handle_toNat bound, holds.handle_toNat (Nat.lt_trans before bound)]
    exact offset_add_length_le (Nat.lt_trans before bound) before
  contents := by
    intro index bound
    rw [poolGetdata, holds.handle_toNat bound, holds.data]
    exact window_block bound _

end Handles

section Runs

variable {α : Type} [OfNat α 0] {pool : Pool α} {blocks : List (List α)} {ops : List (PoolOp α)}

theorem runPool_holds (holds : pool.Holds blocks) (valid : ∀ op ∈ ops, op.Valid)
    (fits : SizesFit pool.allocSize.toNat pool.pos.toNat (ops.map PoolOp.request)) :
    ∃ after, runPool ops (pool, handlesOf blocks) = .ok (after, handlesOf (liveBlocks ops blocks)) ∧
      after.Holds (liveBlocks ops blocks) := by
  induction ops generalizing pool blocks with
  | nil => exact ⟨pool, rfl, holds⟩
  | cons op rest ih =>
      have later : ∀ op ∈ rest, op.Valid := fun op member => valid op (List.mem_cons_of_mem _ member)
      cases op with
      | push data dataSize allocSize =>
          obtain ⟨sizes, enough, positive⟩ := valid _ List.mem_cons_self
          simp only [List.map_cons, PoolOp.request, SizesFit] at fits
          obtain ⟨next, pushed, capacity, holdsNext⟩ :=
            poolPush_holds holds enough sizes positive fits.1
          have moved : next.pos.toNat = pool.pos.toNat + (poolReserve dataSize allocSize).toNat := by
            rw [holdsNext.pos, List.flatten_append, List.length_append, ← holds.pos,
              List.flatten_singleton, reservation_length enough (poolReserve_within sizes)]
          obtain ⟨after, run, holdsAfter⟩ := ih holdsNext later (by rw [capacity, moved]; exact fits.2)
          refine ⟨after, ?_, holdsAfter⟩
          rw [handlesOf_append, ← holds.pos, BitVec.ofNat_toNat, BitVec.setWidth_eq] at run
          simp only [runPool, pushed, liveBlocks]
          exact run
      | drain =>
          obtain ⟨next, drained, capacity, holdsNext⟩ := poolDrain_holds holds
          have moved : next.pos.toNat = 0 := by rw [holdsNext.pos]; rfl
          obtain ⟨after, run, holdsAfter⟩ := ih holdsNext later (by rw [capacity, moved]; exact fits)
          refine ⟨after, ?_, holdsAfter⟩
          simp only [runPool, drained, liveBlocks]
          exact run

theorem liveBlocks_drain (before rest : List (PoolOp α)) :
    liveBlocks (before ++ .drain :: rest) blocks = liveBlocks rest [] := by
  induction before generalizing blocks with
  | nil => rfl
  | cons op before ih => cases op <;> exact ih

end Runs

/-- The pool is a faithful store over every run of valid operations whose sizes stay
inside `u32`, and after a drain it is as good as a pool freshly opened at any size. -/
theorem runPool_faithful {α : Type} [OfNat α 0] (initSize : PoolSize) (ops : List (PoolOp α))
    (valid : ∀ op ∈ ops, op.Valid)
    (fits : SizesFit initSize.toNat 0 (ops.map PoolOp.request)) :
    ∃ pool handles, runPool ops (poolOpen true initSize, []) = .ok (pool, handles) ∧
      Faithful pool handles (liveBlocks ops []) ∧
      ∀ before rest freshSize, ops = before ++ .drain :: rest →
        SizesFit (BitVec.toNat freshSize) 0 (rest.map PoolOp.request) →
        ∃ fresh, runPool rest (poolOpen true freshSize, []) = .ok (fresh, handles) ∧
          Faithful fresh handles (liveBlocks ops []) := by
  obtain ⟨pool, run, holds⟩ := runPool_holds (poolOpen_holds initSize) valid fits
  refine ⟨pool, _, run, holds.faithful, ?_⟩
  intro before rest freshSize split freshFits
  subst split
  have later : ∀ op ∈ rest, op.Valid := fun op member => valid op (by simp [member])
  obtain ⟨fresh, freshRun, freshHolds⟩ := runPool_holds (poolOpen_holds freshSize) later freshFits
  rw [liveBlocks_drain before rest]
  exact ⟨fresh, freshRun, freshHolds.faithful⟩

/-- Growing twice, a reservation longer than its data, and a drain in between. -/
theorem runPool_faithful_bytes :
    ∃ pool handles,
      runPool ([.push [1, 2] 2 0, .push [3, 9] 1 4, .drain, .push [7] 1 0, .push [8] 1 3] :
        List (PoolOp U8)) (poolOpen true 2, []) = .ok (pool, handles) ∧
      Faithful pool handles ([[7], [8, 0, 0]] : List (List U8)) := by
  obtain ⟨pool, handles, run, faithful, _⟩ := runPool_faithful 2
    ([.push [1, 2] 2 0, .push [3, 9] 1 4, .drain, .push [7] 1 0, .push [8] 1 3] : List (PoolOp U8))
    (by decide) (by decide)
  exact ⟨pool, handles, run, faithful⟩

end Koshka
