import Koshka.Data.Command
import Koshka.Memory

namespace Koshka

open Data

abbrev PoolSize := U32
abbrev PoolHandle := PoolSize

/-- A pool never looks at what it stores: the cells may be of any type that has a zero for `calloc` and
`memset` to fill in. -/
structure Pool (α : Type) where
  data : List α
  allocSize : PoolSize
  pos : PoolSize
deriving Repr, DecidableEq

def poolInvalidHandle : PoolHandle := ~~~0

section Operations

variable {α : Type}

/-- The sum is a `pool_size_t`: it wraps. -/
def poolCanHold (pool : Pool α) (size : PoolSize) : Bool :=
  decide (pool.pos + size < pool.allocSize)

/-- What lies behind the pointer that `pool_getdata` returns. -/
def poolGetdata (pool : Pool α) (handle : PoolHandle) : List α :=
  pool.data.drop handle.toNat

variable [OfNat α 0]

def poolOpen (succeeds : Bool) (initSize : PoolSize) : Pool α where
  data := calloc succeeds initSize.toNat
  allocSize := initSize
  pos := 0

/-- `(pool->alloc_size + alloc_size) * 1.5`.  The sum wraps; the product is an exact
`double`, cut to an integer and kept to its low 32 bits, as x86-64 compilers do. -/
def poolNewsize (pool : Pool α) (allocSize : PoolSize) : PoolSize :=
  BitVec.ofNat 32 ((pool.allocSize + allocSize).toNat * 3 / 2)

/-- The reallocation in `pool_push`: `none` when its `calloc` fails. -/
def poolGrow (succeeds : Bool) (pool : Pool α) (allocSize : PoolSize) :
    Except Fault (Option (Pool α)) := do
  let newsize := poolNewsize pool allocSize
  if pool.allocSize < newsize then
    if succeeds then
      let newbuf ← memcpy (calloc true newsize.toNat) 0 pool.data pool.allocSize.toNat
      return some { pool with data := newbuf, allocSize := newsize }
    else return none
  else throw .assertFailed

/-- The copy into the buffer, once there is room. -/
def poolStore (pool : Pool α) (data : List α) (dataSize allocSize : PoolSize) :
    Except Fault (PoolHandle × Pool α) := do
  let buffer ← memcpy pool.data pool.pos.toNat data dataSize.toNat
  return (pool.pos, { pool with data := buffer, pos := pool.pos + allocSize })

def poolReserve (dataSize allocSize : PoolSize) : PoolSize :=
  if allocSize = 0 then dataSize else allocSize

/-- `succeeds` is the answer of the one `calloc` that a push may make. -/
def poolPush (succeeds : Bool) (pool : Pool α) (data : List α) (dataSize allocSize : PoolSize) :
    Except Fault (PoolHandle × Pool α) := do
  let allocSize := poolReserve dataSize allocSize
  if poolCanHold pool allocSize then poolStore pool data dataSize allocSize
  else
    match ← poolGrow succeeds pool allocSize with
    | none => return (poolInvalidHandle, pool)
    | some grown => poolStore grown data dataSize allocSize

def poolDrain (pool : Pool α) : Except Fault (Pool α) := do
  let buffer ← memset pool.data 0 0 pool.allocSize.toNat
  return { pool with data := buffer, pos := 0 }

end Operations

section Arithmetic

variable {α : Type} {pool : Pool α} {size : PoolSize}

theorem poolCanHold_iff :
    poolCanHold pool size = true ↔
      (pool.pos.toNat + size.toNat) % 2 ^ 32 < pool.allocSize.toNat := by
  simp only [poolCanHold, decide_eq_true_eq, BitVec.lt_def, BitVec.toNat_add]

theorem poolNewsize_toNat :
    (poolNewsize pool size).toNat =
      (pool.allocSize.toNat + size.toNat) % 2 ^ 32 * 3 / 2 % 2 ^ 32 := by
  simp only [poolNewsize, BitVec.toNat_ofNat, BitVec.toNat_add]

/-- A push returns the position of the pool and moves it on, or changes nothing. -/
theorem poolPush_handle [OfNat α 0] {succeeds : Bool} {data : List α} {dataSize allocSize : PoolSize}
    {handle : PoolHandle} {after : Pool α}
    (run : poolPush succeeds pool data dataSize allocSize = .ok (handle, after)) :
    (handle = poolInvalidHandle ∧ after = pool) ∨
      (handle = pool.pos ∧ after.pos = pool.pos + poolReserve dataSize allocSize) := by
  have stored {base : Pool α} (samePos : base.pos = pool.pos)
      (store : poolStore base data dataSize (poolReserve dataSize allocSize) = .ok (handle, after)) :
      handle = pool.pos ∧ after.pos = pool.pos + poolReserve dataSize allocSize := by
    obtain ⟨buffer, _, returned⟩ := bind_eq_ok.mp store
    cases returned
    rw [samePos]
    exact ⟨rfl, rfl⟩
  simp only [poolPush] at run
  split at run
  · exact Or.inr (stored rfl run)
  · obtain ⟨grown, growth, store⟩ := bind_eq_ok.mp run
    cases grown with
    | none =>
        cases store
        exact Or.inl ⟨rfl, rfl⟩
    | some grown =>
        have samePos : grown.pos = pool.pos := by
          simp only [poolGrow] at growth
          split at growth
          · split at growth
            · obtain ⟨_, _, copied⟩ := bind_eq_ok.mp growth
              cases copied
              rfl
            · cases growth
          · cases growth
        exact Or.inr (stored samePos store)

end Arithmetic

/-- What a push reserves: the data, then zeros. -/
def reservation {α : Type} [OfNat α 0] (data : List α) (dataSize reserved : Nat) : List α :=
  data.take dataSize ++ List.replicate (reserved - dataSize) 0

/-- The pool holds `blocks`, one after the other from its start on, and everything
past its position is still zero. -/
structure Pool.Holds {α : Type} [OfNat α 0] (pool : Pool α) (blocks : List (List α)) : Prop where
  pos : pool.pos.toNat = blocks.flatten.length
  inside : pool.pos.toNat ≤ pool.allocSize.toNat
  data : pool.data =
    blocks.flatten ++ List.replicate (pool.allocSize.toNat - pool.pos.toNat) 0

section Holds

variable {α : Type} [OfNat α 0] {pool after : Pool α} {blocks : List (List α)} {data : List α}
  {dataSize allocSize reserved : PoolSize} {succeeds : Bool} {handle : PoolHandle}

theorem reservation_length {dataSize reserved : Nat} (enough : dataSize ≤ data.length)
    (within : dataSize ≤ reserved) : (reservation data dataSize reserved).length = reserved := by
  simp only [reservation, List.length_append, List.length_take, List.length_replicate]
  omega

theorem Pool.Holds.data_length (holds : pool.Holds blocks) :
    pool.data.length = pool.allocSize.toNat := by
  have inside := holds.inside
  rw [holds.data, List.length_append, List.length_replicate, ← holds.pos]
  omega

theorem poolOpen_holds (size : PoolSize) : (poolOpen true size : Pool α).Holds [] :=
  ⟨rfl, Nat.zero_le _, by simp [poolOpen, calloc]⟩

theorem poolStore_holds (holds : pool.Holds blocks) (enough : dataSize.toNat ≤ data.length)
    (within : dataSize.toNat ≤ reserved.toNat)
    (fits : pool.pos.toNat + reserved.toNat ≤ pool.allocSize.toNat) :
    ∃ after, poolStore pool data dataSize reserved = .ok (pool.pos, after) ∧
      after.allocSize = pool.allocSize ∧
      after.Holds (blocks ++ [reservation data dataSize.toNat reserved.toNat]) := by
  have room : pool.pos.toNat + dataSize.toNat ≤ pool.data.length := by
    rw [holds.data_length]
    omega
  have moved : (pool.pos + reserved).toNat = pool.pos.toNat + reserved.toNat := by
    rw [BitVec.toNat_add]
    omega
  have stored := memcpy_ok enough room
  refine ⟨{ pool with
    data := overwrite pool.data pool.pos.toNat (data.take dataSize.toNat),
    pos := pool.pos + reserved }, ?_, rfl, ?_, ?_, ?_⟩
  · rw [poolStore, stored]
    rfl
  · simp only [moved, List.flatten_append, List.flatten_singleton, List.length_append,
      reservation_length enough within, holds.pos]
  · simpa only [moved] using fits
  · -- the cells past the position split into the copied ones, the rest of the
    -- reservation and what stays free
    have split : List.replicate (pool.allocSize.toNat - pool.pos.toNat) (0 : α) =
        List.replicate dataSize.toNat 0 ++ (List.replicate (reserved.toNat - dataSize.toNat) 0 ++
          List.replicate (pool.allocSize.toNat - (pool.pos.toNat + reserved.toNat)) 0) := by
      simp only [List.replicate_append_replicate]
      congr 1
      omega
    have width : (data.take dataSize.toNat).length = (List.replicate dataSize.toNat (0 : α)).length := by
      simp only [List.length_take, List.length_replicate]
      omega
    simp only [moved]
    rw [holds.data, split, ← List.append_assoc, overwrite_middle holds.pos width]
    simp only [List.flatten_append, List.flatten_singleton, reservation, List.append_assoc]

theorem poolGrow_holds (holds : pool.Holds blocks)
    (larger : pool.allocSize < poolNewsize pool reserved) :
    ∃ grown, poolGrow true pool reserved = .ok (some grown) ∧ grown.pos = pool.pos ∧
      grown.allocSize = poolNewsize pool reserved ∧ grown.Holds blocks := by
  have longer : pool.allocSize.toNat < (poolNewsize pool reserved).toNat := larger
  have width := holds.data_length
  have copied : memcpy (calloc true (poolNewsize pool reserved).toNat) 0 pool.data
      pool.allocSize.toNat = .ok (pool.data ++
        List.replicate ((poolNewsize pool reserved).toNat - pool.allocSize.toNat) (0 : α)) := by
    rw [memcpy_ok (Nat.le_of_eq width.symm) (by simp only [calloc, if_true, List.length_replicate]; omega),
      List.take_of_length_le (Nat.le_of_eq width), overwrite_zero, width]
    simp [calloc]
  refine ⟨{ pool with
    data := pool.data ++ List.replicate ((poolNewsize pool reserved).toNat - pool.allocSize.toNat) 0,
    allocSize := poolNewsize pool reserved }, ?_, rfl, rfl, holds.pos, ?_, ?_⟩
  · simp only [poolGrow, if_pos larger, copied, if_true]
    rfl
  · exact Nat.le_trans holds.inside (Nat.le_of_lt longer)
  · have inside := holds.inside
    simp only [holds.data, List.append_assoc, List.replicate_append_replicate]
    congr 2
    omega

theorem poolDrain_holds (holds : pool.Holds blocks) :
    ∃ after, poolDrain pool = .ok after ∧ after.allocSize = pool.allocSize ∧ after.Holds [] := by
  have width := holds.data_length
  have cleared : memset pool.data 0 0 pool.allocSize.toNat =
      .ok (List.replicate pool.allocSize.toNat (0 : α)) := by
    rw [memset_ok (by omega), overwrite_zero, List.length_replicate, ← width, List.drop_length,
      List.append_nil]
  refine ⟨{ pool with data := List.replicate pool.allocSize.toNat 0, pos := 0 }, ?_, rfl, ?_⟩
  · rw [poolDrain, cleared]
    rfl
  · exact ⟨rfl, Nat.zero_le _, by simp⟩

theorem poolReserve_zero (dataSize : PoolSize) : poolReserve dataSize 0 = dataSize := if_pos rfl

theorem poolReserve_within (sizes : allocSize = 0 ∨ dataSize ≤ allocSize) :
    dataSize.toNat ≤ (poolReserve dataSize allocSize).toNat := by
  unfold poolReserve
  split
  · exact Nat.le_refl _
  · rename_i nonzero
    exact sizes.resolve_left nonzero

theorem poolPush_held (holds : pool.Holds blocks) (enough : dataSize.toNat ≤ data.length)
    (sizes : allocSize = 0 ∨ dataSize ≤ allocSize)
    (fits : pool.pos.toNat + (poolReserve dataSize allocSize).toNat < pool.allocSize.toNat) :
    ∃ after, poolPush succeeds pool data dataSize allocSize = .ok (pool.pos, after) ∧
      after.allocSize = pool.allocSize ∧
      after.Holds (blocks ++
        [reservation data dataSize.toNat (poolReserve dataSize allocSize).toNat]) := by
  have held : poolCanHold pool (poolReserve dataSize allocSize) = true := by
    rw [poolCanHold_iff]
    omega
  obtain ⟨after, stored, capacity, holdsAfter⟩ :=
    poolStore_holds holds enough (poolReserve_within sizes) (Nat.le_of_lt fits)
  exact ⟨after, by simp only [poolPush, held, if_true, stored], capacity, holdsAfter⟩

theorem poolPush_grown (holds : pool.Holds blocks) (enough : dataSize.toNat ≤ data.length)
    (sizes : allocSize = 0 ∨ dataSize ≤ allocSize)
    (full : poolCanHold pool (poolReserve dataSize allocSize) = false)
    (larger : pool.allocSize < poolNewsize pool (poolReserve dataSize allocSize))
    (covers : pool.pos.toNat + (poolReserve dataSize allocSize).toNat ≤
      (poolNewsize pool (poolReserve dataSize allocSize)).toNat) :
    ∃ after, poolPush true pool data dataSize allocSize = .ok (pool.pos, after) ∧
      after.allocSize = poolNewsize pool (poolReserve dataSize allocSize) ∧
      after.Holds (blocks ++
        [reservation data dataSize.toNat (poolReserve dataSize allocSize).toNat]) := by
  obtain ⟨grown, growth, samePos, capacity, holdsGrown⟩ := poolGrow_holds holds larger
  obtain ⟨after, stored, sameCapacity, holdsAfter⟩ :=
    poolStore_holds holdsGrown enough (poolReserve_within sizes) (by rw [samePos, capacity]; exact covers)
  refine ⟨after, ?_, sameCapacity.trans capacity, holdsAfter⟩
  simp only [poolPush, full, growth]
  rw [← samePos]
  exact stored

/-- The capacity after a push, over the naturals. -/
def capacityAfter (capacity pos reserved : Nat) : Nat :=
  if pos + reserved < capacity then capacity else (capacity + reserved) * 3 / 2

/-- No size computed for a push leaves `u32`. -/
def SizeFits (capacity pos reserved : Nat) : Prop :=
  pos + reserved < 2 ^ 32 ∧ capacityAfter capacity pos reserved < 2 ^ 32

instance (capacity pos reserved : Nat) : Decidable (SizeFits capacity pos reserved) :=
  inferInstanceAs (Decidable (_ ∧ _))

/-- While no size leaves `u32`, a push of at least one byte appends one block. -/
theorem poolPush_holds (holds : pool.Holds blocks) (enough : dataSize.toNat ≤ data.length)
    (sizes : allocSize = 0 ∨ dataSize ≤ allocSize)
    (positive : 0 < (poolReserve dataSize allocSize).toNat)
    (fits : SizeFits pool.allocSize.toNat pool.pos.toNat (poolReserve dataSize allocSize).toNat) :
    ∃ after, poolPush true pool data dataSize allocSize = .ok (pool.pos, after) ∧
      after.allocSize.toNat = capacityAfter pool.allocSize.toNat pool.pos.toNat
        (poolReserve dataSize allocSize).toNat ∧
      after.Holds (blocks ++
        [reservation data dataSize.toNat (poolReserve dataSize allocSize).toNat]) := by
  obtain ⟨sum, capacity⟩ := fits
  have inside := holds.inside
  by_cases room : pool.pos.toNat + (poolReserve dataSize allocSize).toNat < pool.allocSize.toNat
  · obtain ⟨after, pushed, kept, holdsAfter⟩ := poolPush_held holds enough sizes room
    exact ⟨after, pushed, by rw [capacityAfter, if_pos room, kept], holdsAfter⟩
  · rw [capacityAfter, if_neg room] at capacity ⊢
    have total : pool.allocSize.toNat + (poolReserve dataSize allocSize).toNat < 2 ^ 32 := by omega
    have newsize : (poolNewsize pool (poolReserve dataSize allocSize)).toNat =
        (pool.allocSize.toNat + (poolReserve dataSize allocSize).toNat) * 3 / 2 := by
      rw [poolNewsize_toNat, Nat.mod_eq_of_lt total, Nat.mod_eq_of_lt capacity]
    have full : poolCanHold pool (poolReserve dataSize allocSize) = false := by
      rw [← Bool.not_eq_true, poolCanHold_iff]
      omega
    obtain ⟨after, pushed, grown, holdsAfter⟩ := poolPush_grown holds enough sizes full
      (by rw [BitVec.lt_def, newsize]; omega) (by rw [newsize]; omega)
    exact ⟨after, pushed, by rw [grown, newsize], holdsAfter⟩

theorem reservation_exact (exact : data.length = dataSize.toNat) :
    reservation data dataSize.toNat dataSize.toNat = data := by
  rw [reservation, Nat.sub_self, List.take_of_length_le (Nat.le_of_eq exact)]
  simp

theorem poolStore_returned (holds : pool.Holds blocks) (exact : data.length = dataSize.toNat)
    (run : poolStore pool data dataSize dataSize = .ok (handle, after)) :
    handle = pool.pos ∧ after.allocSize = pool.allocSize ∧ after.Holds (blocks ++ [data]) := by
  by_cases fits : pool.pos.toNat + dataSize.toNat ≤ pool.allocSize.toNat
  · obtain ⟨stored, done, capacity, holdsAfter⟩ :=
      poolStore_holds holds (Nat.le_of_eq exact.symm) (Nat.le_refl _) fits
    rw [reservation_exact exact] at holdsAfter
    cases done.symm.trans run
    exact ⟨rfl, capacity, holdsAfter⟩
  · rw [poolStore, memcpy_fault (by rw [holds.data_length]; omega)] at run
    cases run

/-- The answer of `calloc` that a push depends on, once its `assert` holds. -/
def poolGrants (succeeds : Bool) (pool : Pool α) (size : PoolSize) : Bool :=
  poolCanHold pool size || succeeds

/-- A push of whole data that returns has appended it, or was refused by `calloc`.  It has passed every
bound of its copies, so that nothing is assumed about the sizes. -/
theorem poolPush_returned (holds : pool.Holds blocks) (exact : data.length = dataSize.toNat)
    (run : poolPush succeeds pool data dataSize 0 = .ok (handle, after)) :
    if poolGrants succeeds pool dataSize then
      handle = pool.pos ∧
      after.allocSize = (if poolCanHold pool dataSize then pool.allocSize else poolNewsize pool dataSize) ∧
      after.Holds (blocks ++ [data])
    else handle = poolInvalidHandle ∧ after = pool := by
  simp only [poolPush, poolReserve_zero, poolGrants] at run ⊢
  by_cases held : poolCanHold pool dataSize = true
  · simp only [held, if_true, Bool.true_or] at run ⊢
    exact poolStore_returned holds exact run
  · rw [Bool.not_eq_true] at held
    simp only [held, Bool.false_eq_true, if_false, Bool.false_or] at run ⊢
    by_cases larger : pool.allocSize < poolNewsize pool dataSize
    · cases succeeds with
      | true =>
          obtain ⟨grown, growth, samePos, capacity, holdsGrown⟩ := poolGrow_holds holds larger
          simp only [growth] at run
          obtain ⟨same, sameCapacity, holdsAfter⟩ := poolStore_returned holdsGrown exact run
          exact ⟨same.trans samePos, sameCapacity.trans capacity, holdsAfter⟩
      | false =>
          simp only [poolGrow, if_pos larger] at run
          cases run
          exact ⟨rfl, rfl⟩
    · simp only [poolGrow, if_neg larger] at run
      cases run

theorem poolPush_unopened (empty : pool.data = []) (capacity : 0 < pool.allocSize.toNat)
    (positive : 0 < dataSize.toNat)
    (run : poolPush succeeds pool data dataSize 0 = .ok (handle, after)) : after = pool := by
  simp only [poolPush, poolReserve_zero] at run
  by_cases held : poolCanHold pool dataSize = true
  · rw [if_pos held, poolStore, memcpy_fault (by rw [empty, List.length_nil]; omega)] at run
    cases run
  · rw [if_neg held] at run
    by_cases larger : pool.allocSize < poolNewsize pool dataSize
    · cases succeeds with
      | true =>
          simp only [poolGrow, if_pos larger, if_true] at run
          rw [memcpy_fault (by rw [empty, List.length_nil]; omega)] at run
          cases run
      | false =>
          simp only [poolGrow, if_pos larger] at run
          cases run
          rfl
    · simp only [poolGrow, if_neg larger] at run
      cases run

end Holds

end Koshka
