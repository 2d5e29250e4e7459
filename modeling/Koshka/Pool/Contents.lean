import Koshka.Pool
import Koshka.Data.Command

namespace Koshka

open Data

section Contents

variable {α β : Type} {change : α → β} {buffer source : List α} {start count : Nat}

def Pool.map (change : α → β) (pool : Pool α) : Pool β where
  data := pool.data.map change
  allocSize := pool.allocSize
  pos := pool.pos

theorem memcpy_map : memcpy (buffer.map change) start (source.map change) count =
    (memcpy buffer start source count).map (List.map change) := by
  simp only [memcpy, List.length_map]
  split
  · simp [overwrite, Except.map]
  · rfl

variable {pool : Pool α} {data : List α} {dataSize allocSize : PoolSize} {succeeds : Bool} {fault : Fault}

theorem poolStore_map : poolStore (pool.map change) (data.map change) dataSize allocSize =
    (poolStore pool data dataSize allocSize).map (Prod.map id (Pool.map change)) := by
  simp only [poolStore]
  rw [show (pool.map change).data = pool.data.map change from rfl, memcpy_map,
    show (pool.map change).pos = pool.pos from rfl]
  cases memcpy pool.data pool.pos.toNat data dataSize.toNat <;> rfl

theorem poolStore_error (failed : poolStore pool data dataSize allocSize = .error fault) :
    fault = .outOfBounds := by
  rw [poolStore] at failed
  rcases bind_eq_error.mp failed with copied | ⟨_, _, done⟩
  · exact memcpy_error copied
  · cases done

section Push

variable [OfNat α 0]

theorem calloc_map [OfNat β 0] (zero : change 0 = 0) (succeeds : Bool) (size : Nat) :
    (calloc succeeds size : List α).map change = calloc succeeds size := by
  unfold calloc
  split
  · rw [List.map_replicate, zero]
  · rfl

theorem poolGrow_map [OfNat β 0] (zero : change 0 = 0) : poolGrow succeeds (pool.map change) allocSize =
    (poolGrow succeeds pool allocSize).map (Option.map (Pool.map change)) := by
  have newsize : poolNewsize (pool.map change) allocSize = poolNewsize pool allocSize := rfl
  simp only [poolGrow, newsize, ← calloc_map zero]
  rw [show (pool.map change).data = pool.data.map change from rfl, memcpy_map,
    show (pool.map change).allocSize = pool.allocSize from rfl]
  split
  · cases succeeds with
    | true =>
        cases memcpy (calloc true (poolNewsize pool allocSize).toNat) 0 pool.data pool.allocSize.toNat <;> rfl
    | false => rfl
  · rfl

theorem poolPush_map [OfNat β 0] (change : α → β) (zero : change 0 = 0) :
    poolPush succeeds (pool.map change) (data.map change) dataSize allocSize =
      (poolPush succeeds pool data dataSize allocSize).map (Prod.map id (Pool.map change)) := by
  have room (size : PoolSize) : poolCanHold (pool.map change) size = poolCanHold pool size := rfl
  simp only [poolPush, room, poolGrow_map zero]
  split
  · exact poolStore_map
  · cases poolGrow succeeds pool (poolReserve dataSize allocSize) with
    | error fault => rfl
    | ok grown =>
        cases grown with
        | none => rfl
        | some grown => exact poolStore_map

theorem poolGrow_error (failed : poolGrow succeeds pool allocSize = .error fault) :
    fault = .assertFailed ∨ fault = .outOfBounds := by
  simp only [poolGrow] at failed
  split at failed
  · split at failed
    · rcases bind_eq_error.mp failed with copied | ⟨_, _, done⟩
      · exact Or.inr (memcpy_error copied)
      · cases done
    · cases failed
  · cases failed
    exact Or.inl rfl

theorem poolPush_error (failed : poolPush succeeds pool data dataSize allocSize = .error fault) :
    fault = .assertFailed ∨ fault = .outOfBounds := by
  rw [poolPush] at failed
  split at failed
  · exact Or.inr (poolStore_error failed)
  · rcases bind_eq_error.mp failed with growth | ⟨grown, _, stored⟩
    · exact poolGrow_error growth
    · cases grown with
      | none => cases stored
      | some grown => exact Or.inr (poolStore_error stored)

end Push

end Contents

end Koshka
