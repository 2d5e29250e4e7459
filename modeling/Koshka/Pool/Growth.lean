import Koshka.Data.Amortized
import Koshka.Pool.Store

namespace Koshka

open Data

/-! What the growth of a pool costs.

A pool that is full grows to half as much again as what it then has to hold.  The copies this takes
are paid for by the size of the buffer that they lead to.
-/

section Growth

variable {α : Type} [OfNat α 0]

/-- One operation, with the answer that `calloc` gives if it is called. -/
def growStep (pool : Pool α) : PoolOp α × Bool → Except Fault (Pool α)
  | (.push data dataSize allocSize, succeeds) => do
      let (_, pool) ← poolPush succeeds pool data dataSize allocSize
      return pool
  | (.drain, _) => poolDrain pool

/-- Whether the operation moves the pool to a larger buffer. -/
def grows (pool : Pool α) : PoolOp α × Bool → Bool
  | (.push _ dataSize allocSize, succeeds) =>
      let reserved := poolReserve dataSize allocSize
      !poolCanHold pool reserved && succeeds && pool.allocSize < poolNewsize pool reserved
  | (.drain, _) => false

/-- The bytes that are copied when the pool moves. -/
def copied (pool : Pool α) (op : PoolOp α × Bool) : Nat :=
  if grows pool op then pool.allocSize.toNat else 0

def moved (pool : Pool α) (op : PoolOp α × Bool) : Nat := if grows pool op then 1 else 0

/-- What the operation reserves. -/
def reserves (op : PoolOp α × Bool) : Nat := op.1.request.getD 0

/-- A push reserves something, and not more than 2^31 bytes. -/
def Modest (op : PoolOp α × Bool) : Prop :=
  ∀ reserved, op.1.request = some reserved → 0 < reserved ∧ reserved ≤ 2 ^ 31

variable {pool after final : Pool α} {op : PoolOp α × Bool} {ops : List (PoolOp α × Bool)}
  {data : List α} {dataSize allocSize reserved : PoolSize} {succeeds : Bool} {handle : PoolHandle}

omit [OfNat α 0] in
theorem poolStore_sizes (store : poolStore pool data dataSize reserved = .ok (handle, after)) :
    after.allocSize = pool.allocSize ∧ after.pos = pool.pos + reserved := by
  obtain ⟨buffer, _, done⟩ := bind_eq_ok.mp store
  cases done
  exact ⟨rfl, rfl⟩

theorem poolGrow_sizes {grown : Pool α} (growth : poolGrow succeeds pool reserved = .ok (some grown)) :
    grown.allocSize = poolNewsize pool reserved ∧ grown.pos = pool.pos ∧ succeeds = true ∧
      pool.allocSize < poolNewsize pool reserved := by
  simp only [poolGrow] at growth
  split at growth
  · rename_i larger
    split at growth
    · rename_i answered
      obtain ⟨buffer, _, done⟩ := bind_eq_ok.mp growth
      cases done
      exact ⟨rfl, rfl, answered, larger⟩
    · cases growth
  · cases growth

theorem poolGrow_refused (growth : poolGrow succeeds pool reserved = .ok none) : succeeds = false := by
  simp only [poolGrow] at growth
  split at growth
  · split at growth
    · obtain ⟨buffer, _, done⟩ := bind_eq_ok.mp growth
      cases done
    · rename_i refused
      exact Bool.eq_false_iff.mpr refused
  · cases growth

/-- A push stays in the buffer, or moves the pool, or is refused. -/
theorem poolPush_sizes (push : poolPush succeeds pool data dataSize allocSize = .ok (handle, after)) :
    (grows pool (.push data dataSize allocSize, succeeds) = false ∧ after.allocSize = pool.allocSize ∧
      ((poolCanHold pool (poolReserve dataSize allocSize) = true ∧
        after.pos = pool.pos + poolReserve dataSize allocSize) ∨ after.pos = pool.pos)) ∨
    (grows pool (.push data dataSize allocSize, succeeds) = true ∧
      poolCanHold pool (poolReserve dataSize allocSize) = false ∧
      pool.allocSize < poolNewsize pool (poolReserve dataSize allocSize) ∧
      after.allocSize = poolNewsize pool (poolReserve dataSize allocSize) ∧
      after.pos = pool.pos + poolReserve dataSize allocSize) := by
  simp only [poolPush] at push
  split at push
  · rename_i held
    obtain ⟨capacity, pos⟩ := poolStore_sizes push
    exact Or.inl ⟨by simp [grows, held], capacity, Or.inl ⟨held, pos⟩⟩
  · rename_i full
    obtain ⟨found, growth, push⟩ := bind_eq_ok.mp push
    cases found with
    | none =>
        cases push
        exact Or.inl ⟨by simp [grows, poolGrow_refused growth], rfl, Or.inr rfl⟩
    | some grown =>
        obtain ⟨capacity, kept, answered, larger⟩ := poolGrow_sizes growth
        obtain ⟨same, pos⟩ := poolStore_sizes push
        refine Or.inr ⟨by simp [grows, full, answered, larger], by simpa using full, larger, ?_, ?_⟩
        · rw [same, capacity]
        · rw [pos, kept]

theorem poolDrain_sizes (drain : poolDrain pool = .ok after) :
    after.allocSize = pool.allocSize ∧ after.pos = 0 := by
  obtain ⟨buffer, _, done⟩ := bind_eq_ok.mp drain
  cases done
  exact ⟨rfl, rfl⟩

/-- The position lies in the buffer. -/
def Pool.Within (pool : Pool α) : Prop := pool.pos.toNat ≤ pool.allocSize.toNat

omit [OfNat α 0] in
/-- The check of the new size catches every wrap that a request of up to 2^31 bytes can lead to. -/
theorem newsize_exact (small : reserved.toNat ≤ 2 ^ 31) (larger : pool.allocSize < poolNewsize pool reserved) :
    pool.allocSize.toNat + reserved.toNat < 2 ^ 32 ∧
      (poolNewsize pool reserved).toNat = (pool.allocSize.toNat + reserved.toNat) * 3 / 2 := by
  have capacity := pool.allocSize.isLt
  rw [BitVec.lt_def] at larger
  rw [poolNewsize_toNat] at larger ⊢
  by_cases sum : pool.allocSize.toNat + reserved.toNat < 2 ^ 32
  · rw [Nat.mod_eq_of_lt sum] at larger ⊢
    omega
  · have wrapped : (pool.allocSize.toNat + reserved.toNat) % 2 ^ 32 < 2 ^ 31 := by omega
    rw [Nat.mod_eq_of_lt (show (pool.allocSize.toNat + reserved.toNat) % 2 ^ 32 * 3 / 2 < 2 ^ 32 by omega)]
      at larger
    omega

/-- Within the buffer nothing changes; out of it the pool moves, to one of half as much again. -/
theorem growStep_sizes (within : pool.Within) (modest : Modest op) (ran : growStep pool op = .ok after) :
    after.Within ∧
      ((grows pool op = false ∧ after.allocSize = pool.allocSize) ∨
        (grows pool op = true ∧ 0 < reserves op ∧
          after.allocSize.toNat = (pool.allocSize.toNat + reserves op) * 3 / 2 ∧
          pool.allocSize.toNat ≤ pool.pos.toNat + reserves op ∧
          after.pos.toNat = pool.pos.toNat + reserves op)) := by
  obtain ⟨op, succeeds⟩ := op
  unfold Pool.Within at within ⊢
  cases op with
  | push data dataSize allocSize =>
      obtain ⟨⟨handle, pushed⟩, push, done⟩ := bind_eq_ok.mp ran
      cases done
      have size : reserves (.push data dataSize allocSize, succeeds) = (poolReserve dataSize allocSize).toNat := rfl
      obtain ⟨positive, small⟩ := modest _ rfl
      rw [size]
      rcases poolPush_sizes push with ⟨stays, capacity, place⟩ | ⟨leaves, full, larger, capacity, place⟩
      · refine ⟨?_, Or.inl ⟨stays, capacity⟩⟩
        rw [capacity]
        rcases place with ⟨held, place⟩ | place
        · rw [place, BitVec.toNat_add]
          exact Nat.le_of_lt (poolCanHold_iff.mp held)
        · rw [place]
          exact within
      · obtain ⟨sum, newsize⟩ := newsize_exact small larger
        have short : ¬ (pool.pos.toNat + (poolReserve dataSize allocSize).toNat) % 2 ^ 32 <
            pool.allocSize.toNat := by
          rw [← poolCanHold_iff, full]
          exact Bool.false_ne_true
        have position : after.pos.toNat = pool.pos.toNat + (poolReserve dataSize allocSize).toNat := by
          rw [place, BitVec.toNat_add]
          omega
        rw [capacity, newsize, position]
        exact ⟨by omega, Or.inr ⟨leaves, positive, rfl, by omega, rfl⟩⟩
  | drain =>
      obtain ⟨capacity, place⟩ := poolDrain_sizes ran
      rw [capacity, place]
      exact ⟨Nat.zero_le _, Or.inl ⟨rfl, rfl⟩⟩

/-- Copies are paid for by twice the size of the buffer. -/
theorem copied_paid (within : pool.Within) (modest : Modest op) (ran : growStep pool op = .ok after) :
    copied pool op + 2 * pool.allocSize.toNat ≤ 2 * after.allocSize.toNat := by
  rcases (growStep_sizes within modest ran).2 with ⟨stays, capacity⟩ | ⟨leaves, positive, capacity, -, -⟩
  · simp [copied, stays, capacity]
  · rw [copied, if_pos leaves, capacity]
    omega

theorem copies_le (within : pool.Within) (modest : ∀ op ∈ ops, Modest op)
    (run : runHistory growStep pool ops = .ok final) :
    totalCost growStep copied pool ops + 2 * pool.allocSize.toNat ≤ 2 * final.allocSize.toNat := by
  refine totalCost_le Pool.Within (fun pool => 2 * pool.allocSize.toNat) ?_ within run
  intro before op member after kept ran
  exact ⟨(growStep_sizes kept (modest op member) ran).1, copied_paid kept (modest op member) ran⟩

/-- Every move makes the buffer half as large again. -/
theorem moves_le (within : pool.Within) (modest : ∀ op ∈ ops, Modest op)
    (run : runHistory growStep pool ops = .ok final) :
    pool.allocSize.toNat * 3 ^ totalCost growStep moved pool ops ≤
      final.allocSize.toNat * 2 ^ totalCost growStep moved pool ops := by
  induction ops generalizing pool with
  | nil =>
      cases run
      exact Nat.le_refl _
  | cons op ops ih =>
      obtain ⟨next, ran, run⟩ := bind_eq_ok.mp run
      obtain ⟨first, modest⟩ := List.forall_mem_cons.mp modest
      obtain ⟨kept, sizes⟩ := growStep_sizes within first ran
      have rest := ih kept modest run
      rw [totalCost_cons ran]
      rcases sizes with ⟨stays, capacity⟩ | ⟨leaves, positive, capacity, -, -⟩
      · rw [moved, stays, if_neg Bool.false_ne_true, Nat.zero_add, ← capacity]
        exact rest
      · have larger : pool.allocSize.toNat * 3 ≤ next.allocSize.toNat * 2 := by
          rw [capacity]
          omega
        rw [moved, if_pos leaves, Nat.pow_add, Nat.pow_one, Nat.pow_add, Nat.pow_one]
        calc pool.allocSize.toNat * (3 * 3 ^ totalCost growStep moved next ops)
            = pool.allocSize.toNat * 3 * 3 ^ totalCost growStep moved next ops := (Nat.mul_assoc ..).symm
          _ ≤ next.allocSize.toNat * 2 * 3 ^ totalCost growStep moved next ops :=
              Nat.mul_le_mul_right _ larger
          _ = next.allocSize.toNat * 3 ^ totalCost growStep moved next ops * 2 := Nat.mul_right_comm ..
          _ ≤ final.allocSize.toNat * 2 ^ totalCost growStep moved next ops * 2 :=
              Nat.mul_le_mul_right _ rest
          _ = final.allocSize.toNat * (2 * 2 ^ totalCost growStep moved next ops) := by
              rw [Nat.mul_assoc, Nat.mul_comm (2 ^ _) 2]

/-- The buffer is no larger than it was, or half as much again as the pool had to hold. -/
theorem capacity_le {limit largest : Nat} (within : pool.Within) (modest : ∀ op ∈ ops, Modest op)
    (fits : ∀ op ∈ ops, reserves op ≤ largest)
    (run : runHistory growStep pool ops = .ok final)
    (high : peak growStep (fun pool => pool.pos.toNat) pool ops ≤ limit) :
    final.allocSize.toNat ≤ max pool.allocSize.toNat ((limit + largest) * 3 / 2) := by
  induction ops generalizing pool with
  | nil =>
      cases run
      exact Nat.le_max_left ..
  | cons op ops ih =>
      obtain ⟨next, ran, run⟩ := bind_eq_ok.mp run
      obtain ⟨first, modest⟩ := List.forall_mem_cons.mp modest
      obtain ⟨fit, fits⟩ := List.forall_mem_cons.mp fits
      obtain ⟨kept, sizes⟩ := growStep_sizes within first ran
      rw [peak_cons ran] at high
      have rest := ih kept modest fits run (by omega)
      rcases sizes with ⟨stays, capacity⟩ | ⟨leaves, positive, capacity, held, place⟩
      · rwa [capacity] at rest
      · have reached := read_le_peak growStep (fun pool : Pool α => pool.pos.toNat) next ops
        simp only [place] at reached
        omega

/-- A pool with room never fills up to its end. -/
theorem growStep_room (modest : Modest op) (room : pool.pos < pool.allocSize)
    (ran : growStep pool op = .ok after) : after.pos < after.allocSize := by
  have within : pool.Within := Nat.le_of_lt room
  rcases (growStep_sizes within modest ran).2 with ⟨stays, capacity⟩ | ⟨-, -, capacity, -, place⟩
  · obtain ⟨op, succeeds⟩ := op
    cases op with
    | push data dataSize allocSize =>
        obtain ⟨⟨handle, pushed⟩, push, done⟩ := bind_eq_ok.mp ran
        cases done
        rw [capacity]
        rcases poolPush_sizes push with ⟨-, -, ⟨held, place⟩ | place⟩ | ⟨leaves, -⟩
        · rw [place]
          exact of_decide_eq_true held
        · rwa [place]
        · cases stays.symm.trans leaves
    | drain =>
        rw [capacity, (poolDrain_sizes ran).2]
        exact Nat.lt_of_le_of_lt (Nat.zero_le _) room
  · rw [BitVec.lt_def, capacity, place]
    rw [BitVec.lt_def] at room
    omega

theorem room_kept (modest : ∀ op ∈ ops, Modest op) (room : pool.pos < pool.allocSize)
    (run : runHistory growStep pool ops = .ok final) : final.pos < final.allocSize :=
  runHistory_keeps (fun pool => pool.pos < pool.allocSize)
    (fun _ held op member _ ran => growStep_room (modest op member) held ran) room run

theorem growStep_position (ran : growStep pool op = .ok after) :
    after.pos.toNat ≤ pool.pos.toNat + reserves op := by
  obtain ⟨op, succeeds⟩ := op
  cases op with
  | push data dataSize allocSize =>
      obtain ⟨⟨handle, pushed⟩, push, done⟩ := bind_eq_ok.mp ran
      cases done
      have size : reserves (.push data dataSize allocSize, succeeds) = (poolReserve dataSize allocSize).toNat := rfl
      have sum := Nat.mod_le (pool.pos.toNat + (poolReserve dataSize allocSize).toNat) (2 ^ 32)
      rw [size]
      rcases poolPush_sizes push with ⟨-, -, ⟨-, place⟩ | place⟩ | ⟨-, -, -, -, place⟩
      · rwa [place, BitVec.toNat_add]
      · rw [place]
        exact Nat.le_add_right ..
      · rwa [place, BitVec.toNat_add]
  | drain =>
      rw [(poolDrain_sizes ran).2]
      exact Nat.zero_le _

theorem position_le (run : runHistory growStep pool ops = .ok final) :
    peak growStep (fun pool => pool.pos.toNat) pool ops ≤ pool.pos.toNat + (ops.map reserves).sum := by
  induction ops generalizing pool with
  | nil => exact Nat.le_refl _
  | cons op ops ih =>
      obtain ⟨next, ran, run⟩ := bind_eq_ok.mp run
      have first := growStep_position ran
      have rest := ih run
      rw [peak_cons ran, List.map_cons, List.sum_cons]
      omega

/-- Without a move the buffer stays as it is. -/
theorem moved_of_resized (within : pool.Within) (modest : ∀ op ∈ ops, Modest op)
    (run : runHistory growStep pool ops = .ok final) (resized : final.allocSize ≠ pool.allocSize) :
    1 ≤ totalCost growStep moved pool ops := by
  induction ops generalizing pool with
  | nil =>
      cases run
      exact absurd rfl resized
  | cons op ops ih =>
      obtain ⟨next, ran, run⟩ := bind_eq_ok.mp run
      obtain ⟨first, modest⟩ := List.forall_mem_cons.mp modest
      obtain ⟨kept, sizes⟩ := growStep_sizes within first ran
      rw [totalCost_cons ran]
      rcases sizes with ⟨-, same⟩ | ⟨leaves, -⟩
      · rw [← same] at resized
        exact Nat.le_add_left_of_le (ih kept modest run resized)
      · rw [moved, if_pos leaves]
        exact Nat.le_add_right ..

/-- From the first move on, the buffer has at least a byte that every later one multiplies. -/
theorem later_moves_le (within : pool.Within) (modest : ∀ op ∈ ops, Modest op)
    (run : runHistory growStep pool ops = .ok final) (some_ : 0 < totalCost growStep moved pool ops) :
    3 ^ (totalCost growStep moved pool ops - 1) ≤
      final.allocSize.toNat * 2 ^ (totalCost growStep moved pool ops - 1) := by
  induction ops generalizing pool with
  | nil => exact absurd some_ (Nat.lt_irrefl 0)
  | cons op ops ih =>
      obtain ⟨next, ran, run⟩ := bind_eq_ok.mp run
      obtain ⟨first, modest⟩ := List.forall_mem_cons.mp modest
      obtain ⟨kept, sizes⟩ := growStep_sizes within first ran
      rw [totalCost_cons ran] at some_ ⊢
      rcases sizes with ⟨stays, -⟩ | ⟨leaves, positive, capacity, -, -⟩
      · rw [moved, stays, if_neg Bool.false_ne_true, Nat.zero_add] at some_ ⊢
        exact ih kept modest run some_
      · rw [moved, if_pos leaves, Nat.add_sub_cancel_left]
        have byte : 1 ≤ next.allocSize.toNat := by omega
        exact Nat.le_trans (Nat.le_mul_of_pos_left _ byte) (moves_le kept modest run)

theorem runHistory_within (within : pool.Within) (modest : ∀ op ∈ ops, Modest op)
    (run : runHistory growStep pool ops = .ok final) : final.Within :=
  runHistory_keeps Pool.Within
    (fun _ held op member _ ran => (growStep_sizes held (modest op member) ran).1) within run

/-- What a run that starts with `start` costs its pool. -/
structure GrowthCost (start : Pool α) (ops : List (PoolOp α × Bool)) (final : Pool α) (largest : Nat) :
    Prop where
  /-- A move leads to half as much again as the buffer and the request have together, without any wrap,
  and nothing else changes the size. -/
  steps : ∀ before op rest reached after, ops = before ++ op :: rest →
    runHistory growStep start before = .ok reached → growStep reached op = .ok after →
    (grows reached op = false ∧ after.allocSize = reached.allocSize) ∨
      (grows reached op = true ∧ reached.allocSize.toNat * 3 < after.allocSize.toNat * 2 ∧
        after.allocSize.toNat = (reached.allocSize.toNat + reserves op) * 3 / 2 ∧
        after.pos.toNat = reached.pos.toNat + reserves op ∧ after.pos.toNat ≤ after.allocSize.toNat)
  copies : totalCost growStep copied start ops + 2 * start.allocSize.toNat ≤ 2 * final.allocSize.toNat
  moves : start.allocSize.toNat * 3 ^ totalCost growStep moved start ops ≤
    final.allocSize.toNat * 2 ^ totalCost growStep moved start ops
  /-- This also bounds the moves of a pool that is opened empty. -/
  laterMoves : 0 < totalCost growStep moved start ops →
    3 ^ (totalCost growStep moved start ops - 1) ≤
      final.allocSize.toNat * 2 ^ (totalCost growStep moved start ops - 1)
  capacity : final.allocSize.toNat ≤ max start.allocSize.toNat
    ((peak growStep (fun pool => pool.pos.toNat) start ops + largest) * 3 / 2)

/-- Whatever a pool goes through, with requests of up to 2^31 bytes: every move makes the buffer half as
large again, all copies together take no more than twice what it has gained, and it is never larger than
half as much again as what it had to hold. -/
theorem pool_growth {succeeds : Bool} {initSize : PoolSize} (ops : List (PoolOp α × Bool)) (largest : Nat)
    (modest : ∀ op ∈ ops, Modest op) (fits : ∀ op ∈ ops, reserves op ≤ largest)
    (run : runHistory growStep (poolOpen succeeds initSize) ops = .ok final) :
    GrowthCost (poolOpen succeeds initSize) ops final largest := by
  have within : (poolOpen succeeds initSize : Pool α).Within := Nat.zero_le _
  refine ⟨?_, copies_le within modest run, moves_le within modest run, later_moves_le within modest run,
    capacity_le within modest fits run (Nat.le_refl _)⟩
  intro before op rest reached after split earlier ran
  rw [split] at modest
  obtain ⟨first, modest⟩ := List.forall_mem_append.mp modest
  have here : reached.Within := runHistory_within within first earlier
  obtain ⟨kept, sizes⟩ := growStep_sizes here (modest op List.mem_cons_self) ran
  rcases sizes with stays | ⟨leaves, positive, capacity, -, place⟩
  · exact .inl stays
  · exact .inr ⟨leaves, by omega, capacity, place, kept⟩

end Growth

def growing : List (PoolOp U8 × Bool) :=
  [(.push [1, 2] 2 0, true), (.push [3] 1 0, true), (.push [3, 4, 5] 3 0, true), (.drain, true),
    (.push [4] 1 0, false)]

/-- Two moves, from 2 bytes to 6 and to 13, with 8 bytes copied. -/
theorem pool_growth_twice : ∃ final, runHistory growStep (poolOpen true 2) growing = .ok final ∧
    totalCost growStep copied (poolOpen true 2) growing = 8 ∧ 8 + 2 * 2 ≤ 2 * final.allocSize.toNat := by
  have finishes : (runHistory growStep (poolOpen true 2) growing).isOk = true := by decide +kernel
  obtain ⟨final, run⟩ := eq_ok_of_isOk finishes
  have modest : ∀ op ∈ growing, Modest op ∧ reserves op ≤ 3 := by
    intro op member
    simp only [growing, List.mem_cons, List.not_mem_nil, or_false] at member
    rcases member with rfl | rfl | rfl | rfl | rfl <;>
      exact ⟨by rintro reserved ⟨⟩ <;> decide, by decide⟩
  have grown := pool_growth growing 3 (fun op member => (modest op member).1)
    (fun op member => (modest op member).2) run
  have cost : totalCost growStep copied (poolOpen true 2) growing = 8 := by decide +kernel
  refine ⟨final, run, cost, ?_⟩
  have copies := grown.copies
  rwa [cost] at copies

end Koshka
