import Koshka.Pool

namespace Koshka

open Data

section Bounds

variable {α : Type} [OfNat α 0]

/-- A push either hands out the next `reserved` bytes of the buffer, or fails and
leaves the pool alone. -/
def PushCorrect (before : Pool α) (reserved : PoolSize) :
    Except Fault (PoolHandle × Pool α) → Prop
  | .ok (handle, after) =>
      (handle = before.pos ∧ handle.toNat + reserved.toNat ≤ after.allocSize.toNat ∧
        after.pos.toNat = handle.toNat + reserved.toNat) ∨
      (handle = poolInvalidHandle ∧ after = before)
  | .error fault => fault = .assertFailed

/-- The position does not wrap, and a buffer that has to grow, and is not stopped by
its `calloc` or its `assert`, grows by enough. -/
def PushFits (succeeds : Bool) (pool : Pool α) (reserved : PoolSize) : Prop :=
  pool.pos.toNat + reserved.toNat < 2 ^ 32 ∧
    (pool.allocSize.toNat ≤ pool.pos.toNat + reserved.toNat →
      succeeds = false ∨
      (pool.allocSize.toNat + reserved.toNat) % 2 ^ 32 * 3 / 2 % 2 ^ 32 ≤ pool.allocSize.toNat ∨
      pool.pos.toNat + reserved.toNat ≤
        (pool.allocSize.toNat + reserved.toNat) % 2 ^ 32 * 3 / 2 % 2 ^ 32)

instance (succeeds : Bool) (pool : Pool α) (reserved : PoolSize) :
    Decidable (PushFits succeeds pool reserved) :=
  inferInstanceAs (Decidable (_ ∧ (_ → _)))

/-- The pools that a run reaches whose pushes all meet `condition`. -/
inductive Reaches (condition : Bool → Pool α → PoolSize → Prop) : Pool α → Prop
  | opened (initSize : PoolSize) : Reaches condition (poolOpen true initSize)
  | pushed {pool after : Pool α} {succeeds : Bool} {data : List α} {dataSize allocSize : PoolSize}
      {handle : PoolHandle} (reached : Reaches condition pool)
      (enough : dataSize.toNat ≤ data.length) (sizes : allocSize = 0 ∨ dataSize ≤ allocSize)
      (meets : condition succeeds pool (poolReserve dataSize allocSize))
      (push : poolPush succeeds pool data dataSize allocSize = .ok (handle, after)) :
      Reaches condition after
  | drained {pool after : Pool α} (reached : Reaches condition pool)
      (drain : poolDrain pool = .ok after) : Reaches condition after

variable {pool after : Pool α} {blocks : List (List α)} {data : List α}
  {dataSize allocSize reserved : PoolSize} {succeeds : Bool} {handle : PoolHandle}

omit [OfNat α 0] in
theorem poolStore_cases (pool : Pool α) (data : List α) (dataSize reserved : PoolSize) :
    (∃ buffer, poolStore pool data dataSize reserved =
      .ok (pool.pos, { pool with data := buffer, pos := pool.pos + reserved })) ∨
    poolStore pool data dataSize reserved = .error .outOfBounds := by
  unfold poolStore memcpy
  split
  · exact Or.inl ⟨_, rfl⟩
  · exact Or.inr rfl

theorem poolPush_store (held : poolCanHold pool (poolReserve dataSize allocSize) = true) :
    poolPush succeeds pool data dataSize allocSize =
      poolStore pool data dataSize (poolReserve dataSize allocSize) := by
  simp only [poolPush, held, if_true]

theorem poolPush_stopped (full : poolCanHold pool (poolReserve dataSize allocSize) = false)
    (small : ¬ pool.allocSize < poolNewsize pool (poolReserve dataSize allocSize)) :
    poolPush succeeds pool data dataSize allocSize = .error .assertFailed := by
  simp only [poolPush, full, poolGrow, if_neg small]
  rfl

theorem poolPush_refused (full : poolCanHold pool (poolReserve dataSize allocSize) = false)
    (larger : pool.allocSize < poolNewsize pool (poolReserve dataSize allocSize)) :
    poolPush false pool data dataSize allocSize = .ok (poolInvalidHandle, pool) := by
  simp only [poolPush, full, poolGrow, if_pos larger]
  rfl

/-- A buffer that is full never wraps its position: the wrap makes it look empty. -/
theorem full_sum (holds : pool.Holds blocks) (full : poolCanHold pool reserved = false) :
    pool.pos.toNat + reserved.toNat < 2 ^ 32 ∧
      pool.allocSize.toNat ≤ pool.pos.toNat + reserved.toNat := by
  have wrapped : ¬ (pool.pos.toNat + reserved.toNat) % 2 ^ 32 < pool.allocSize.toNat := by
    rw [← poolCanHold_iff, full]
    decide
  have inside := holds.inside
  have limit := reserved.isLt
  omega

theorem not_correct_of_wrap (holds : pool.Holds blocks)
    (wrap : ¬ pool.pos.toNat + (poolReserve dataSize allocSize).toNat < 2 ^ 32) :
    ¬ PushCorrect pool (poolReserve dataSize allocSize)
      (poolPush succeeds pool data dataSize allocSize) := by
  have held : poolCanHold pool (poolReserve dataSize allocSize) = true := by
    by_contra full
    exact wrap (full_sum holds (by simpa using full)).1
  rw [poolPush_store held]
  rcases poolStore_cases pool data dataSize (poolReserve dataSize allocSize) with ⟨buffer, stored⟩ | fault
  · rw [stored]
    intro either
    rcases either with ⟨_, inside, _⟩ | ⟨_, same⟩
    · have limit := pool.allocSize.isLt
      omega
    · have stays := congrArg (fun pool : Pool α => pool.pos.toNat) same
      have limit := pool.pos.isLt
      have size := (poolReserve dataSize allocSize).isLt
      simp only [BitVec.toNat_add] at stays
      omega
  · rw [fault]
    intro stopped
    cases stopped

theorem not_correct_of_short (holds : pool.Holds blocks)
    (full : poolCanHold pool (poolReserve dataSize allocSize) = false)
    (larger : pool.allocSize < poolNewsize pool (poolReserve dataSize allocSize))
    (short : (poolNewsize pool (poolReserve dataSize allocSize)).toNat <
      pool.pos.toNat + (poolReserve dataSize allocSize).toNat) :
    ¬ PushCorrect pool (poolReserve dataSize allocSize)
      (poolPush true pool data dataSize allocSize) := by
  obtain ⟨grown, growth, samePos, capacity, _⟩ := poolGrow_holds holds larger
  have pushed : poolPush true pool data dataSize allocSize =
      poolStore grown data dataSize (poolReserve dataSize allocSize) := by
    simp only [poolPush, full, growth]
    rfl
  rw [pushed]
  rcases poolStore_cases grown data dataSize (poolReserve dataSize allocSize) with ⟨buffer,
    stored⟩ | fault
  · rw [stored, samePos]
    intro either
    rcases either with ⟨_, inside, _⟩ | ⟨_, same⟩
    · simp only [capacity] at inside
      omega
    · have stays := congrArg Pool.allocSize same
      simp only [capacity] at stays
      rw [stays] at larger
      exact (BitVec.lt_irrefl _) larger
  · rw [fault]
    intro stopped
    cases stopped

theorem poolPush_outcome (holds : pool.Holds blocks) (enough : dataSize.toNat ≤ data.length)
    (sizes : allocSize = 0 ∨ dataSize ≤ allocSize)
    (fits : PushFits succeeds pool (poolReserve dataSize allocSize)) :
    (∃ after, poolPush succeeds pool data dataSize allocSize = .ok (pool.pos, after) ∧
      after.Holds (blocks ++
        [reservation data dataSize.toNat (poolReserve dataSize allocSize).toNat])) ∨
    poolPush succeeds pool data dataSize allocSize = .ok (poolInvalidHandle, pool) ∨
    poolPush succeeds pool data dataSize allocSize = .error .assertFailed := by
  cases full : poolCanHold pool (poolReserve dataSize allocSize) with
  | true =>
      have room : pool.pos.toNat + (poolReserve dataSize allocSize).toNat < pool.allocSize.toNat := by
        rw [poolCanHold_iff, Nat.mod_eq_of_lt fits.1] at full
        exact full
      obtain ⟨after, pushed, _, holdsAfter⟩ := poolPush_held holds enough sizes room
      exact Or.inl ⟨after, pushed, holdsAfter⟩
  | false =>
      by_cases larger : pool.allocSize < poolNewsize pool (poolReserve dataSize allocSize)
      · rcases fits.2 (full_sum holds full).2 with refused | stopped | covers
        · rw [refused]
          exact Or.inr (Or.inl (poolPush_refused full larger))
        · rw [← poolNewsize_toNat] at stopped
          exact absurd larger (Nat.not_lt.mpr stopped)
        · rw [← poolNewsize_toNat] at covers
          cases succeeds with
          | false => exact Or.inr (Or.inl (poolPush_refused full larger))
          | true =>
              obtain ⟨after, pushed, _, holdsAfter⟩ :=
                poolPush_grown holds enough sizes full larger covers
              exact Or.inl ⟨after, pushed, holdsAfter⟩
      · exact Or.inr (Or.inr (poolPush_stopped full larger))

theorem pushCorrect_iff_fits (holds : pool.Holds blocks) (enough : dataSize.toNat ≤ data.length)
    (sizes : allocSize = 0 ∨ dataSize ≤ allocSize) :
    PushCorrect pool (poolReserve dataSize allocSize)
        (poolPush succeeds pool data dataSize allocSize) ↔
      PushFits succeeds pool (poolReserve dataSize allocSize) := by
  constructor
  · intro correct
    by_contra unfit
    by_cases wrap : pool.pos.toNat + (poolReserve dataSize allocSize).toNat < 2 ^ 32
    · -- the position does not wrap, so the buffer grows, and by too little
      simp only [PushFits, wrap, true_and, Classical.not_imp, not_or, ← poolNewsize_toNat] at unfit
      obtain ⟨needed, answered, grows, short⟩ := unfit
      have full : poolCanHold pool (poolReserve dataSize allocSize) = false := by
        rw [← Bool.not_eq_true, poolCanHold_iff, Nat.mod_eq_of_lt wrap]
        omega
      rw [Bool.not_eq_false] at answered
      rw [answered] at correct
      exact not_correct_of_short holds full (Nat.not_le.mp grows) (Nat.not_le.mp short) correct
    · exact not_correct_of_wrap holds wrap correct
  · intro fits
    rcases poolPush_outcome holds enough sizes fits with ⟨after, pushed, holdsAfter⟩ | refused | stopped
    · have moved : after.pos.toNat = pool.pos.toNat + (poolReserve dataSize allocSize).toNat := by
        rw [holdsAfter.pos, List.flatten_append, List.length_append, ← holds.pos,
          List.flatten_singleton, reservation_length enough (poolReserve_within sizes)]
      rw [pushed]
      exact Or.inl ⟨rfl, moved ▸ holdsAfter.inside, moved⟩
    · rw [refused]
      exact Or.inr ⟨rfl, rfl⟩
    · rw [stopped]
      rfl

theorem reaches_holds (reached : Reaches PushFits pool) : ∃ blocks, pool.Holds blocks := by
  induction reached with
  | opened initSize => exact ⟨[], poolOpen_holds initSize⟩
  | pushed _ enough sizes meets push ih =>
      obtain ⟨blocks, holds⟩ := ih
      rcases poolPush_outcome holds enough sizes meets with ⟨after, pushed,
        holdsAfter⟩ | refused | stopped
      · cases pushed.symm.trans push
        exact ⟨_, holdsAfter⟩
      · cases refused.symm.trans push
        exact ⟨_, holds⟩
      · cases stopped.symm.trans push
  | drained _ drain ih =>
      obtain ⟨blocks, holds⟩ := ih
      obtain ⟨after, drained, _, holdsAfter⟩ := poolDrain_holds holds
      cases drained.symm.trans drain
      exact ⟨[], holdsAfter⟩

end Bounds

/-- In a run whose pushes all fit, the position stays inside the buffer, and the next
push does what it should exactly when it fits too. -/
theorem reaches_push_correct_iff {α : Type} [OfNat α 0] {pool : Pool α}
    (reached : Reaches PushFits pool) (succeeds : Bool) (data : List α)
    (dataSize allocSize : PoolSize) (enough : dataSize.toNat ≤ data.length)
    (sizes : allocSize = 0 ∨ dataSize ≤ allocSize) :
    pool.pos.toNat ≤ pool.allocSize.toNat ∧
      (PushCorrect pool (poolReserve dataSize allocSize)
          (poolPush succeeds pool data dataSize allocSize) ↔
        PushFits succeeds pool (poolReserve dataSize allocSize)) := by
  obtain ⟨blocks, holds⟩ := reaches_holds reached
  exact ⟨holds.inside, pushCorrect_iff_fits holds enough sizes⟩

/-- A second push, into a pool that has already grown once. -/
theorem reaches_push_correct_iff_grown :
    PushCorrect ({ data := [1, 2, 3, 0], allocSize := 4, pos := 3 } : Pool U8) 2
      (poolPush true { data := [1, 2, 3, 0], allocSize := 4, pos := 3 } [4, 5] 2 0) := by
  have reached : Reaches PushFits ({ data := [1, 2, 3, 0], allocSize := 4, pos := 3 } : Pool U8) := by
    have push : poolPush true (poolOpen true 0) [1, 2, 3] 3 0 =
        .ok (0, ({ data := [1, 2, 3, 0], allocSize := 4, pos := 3 } : Pool U8)) := by decide
    exact .pushed (.opened 0) (by decide) (by decide) (by decide) push
  exact (reaches_push_correct_iff reached true [4, 5] 2 0 (by decide) (by decide)).2.mpr (by decide)

/-- A reservation that wraps the position of a pool of 16 bytes: the push claims to
succeed, and moves the position back to the start of the buffer. -/
theorem push_incorrect_wrapped :
    ¬ ∀ (pool : Pool U8) (data : List U8) (dataSize allocSize : PoolSize),
      Reaches (fun _ _ _ => True) pool → dataSize.toNat ≤ data.length →
      (allocSize = 0 ∨ dataSize ≤ allocSize) →
      PushCorrect pool (poolReserve dataSize allocSize)
        (poolPush true pool data dataSize allocSize) := by
  intro correct
  have reached : Reaches (fun _ _ _ => True)
      ({ data := [1, 1, 1, 1, 1, 1, 1, 1, 0, 0, 0, 0, 0, 0, 0, 0], allocSize := 16, pos := 8 } : Pool U8) := by
    have push : poolPush true (poolOpen true 16) [1, 1, 1, 1, 1, 1, 1, 1] 8 0 =
        .ok (0, ({ data := [1, 1, 1, 1, 1, 1, 1, 1, 0, 0, 0, 0, 0, 0, 0, 0], allocSize := 16, pos := 8 } :
          Pool U8)) := by decide
    exact .pushed (.opened 16) (by decide) (by decide) trivial push
  have wrong := correct _ [7] 1 0xFFFFFFF8 reached (by decide) (by decide)
  have pushed : poolPush true
      ({ data := [1, 1, 1, 1, 1, 1, 1, 1, 0, 0, 0, 0, 0, 0, 0, 0], allocSize := 16, pos := 8 } : Pool U8)
      [7] 1 0xFFFFFFF8 =
      .ok (8, { data := [1, 1, 1, 1, 1, 1, 1, 1, 7, 0, 0, 0, 0, 0, 0, 0], allocSize := 16, pos := 0 }) := by
    decide
  rw [pushed] at wrong
  revert wrong
  simp [PushCorrect, poolInvalidHandle, poolReserve]

end Koshka
