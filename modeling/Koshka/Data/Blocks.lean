import Mathlib.Algebra.Order.Ring.Nat
import Mathlib.Data.List.Basic

namespace Koshka.Data

/-! Consecutive blocks in a flat buffer.

A buffer that only ever grows at its end is a list of blocks laid one after the
other.  The list of blocks is the semantic model; the flat buffer is its
flattening, followed by whatever has not been handed out yet.
-/

def window {α : Type} (buffer : List α) (start count : Nat) : List α :=
  (buffer.drop start).take count

def overwrite {α : Type} (buffer : List α) (start : Nat) (values : List α) : List α :=
  buffer.take start ++ values ++ buffer.drop (start + values.length)

section Overwrite

variable {α : Type} {buffer values left middle right : List α} {start count : Nat}

theorem overwrite_middle (aligned : start = left.length) (same : values.length = middle.length) :
    overwrite (left ++ middle ++ right) start values = left ++ values ++ right := by
  subst aligned
  have dropped : (left ++ middle ++ right).drop (left.length + values.length) = right := by
    rw [same, List.append_assoc, List.drop_append, List.drop_append]
    simp
  rw [overwrite, dropped, List.append_assoc left middle right, List.take_left]

theorem overwrite_zero : overwrite buffer 0 values = values ++ buffer.drop values.length := by
  simp [overwrite]

theorem overwrite_length (room : start + values.length ≤ buffer.length) :
    (overwrite buffer start values).length = buffer.length := by
  simp only [overwrite, List.length_append, List.length_take, List.length_drop]
  omega

theorem overwrite_getElem? {index : Nat} (room : start + values.length ≤ buffer.length) :
    (overwrite buffer start values)[index]? =
      if start ≤ index ∧ index < start + values.length then values[index - start]? else buffer[index]? := by
  have front : (buffer.take start).length = start := by
    rw [List.length_take]
    omega
  rw [overwrite, List.append_assoc]
  by_cases before : index < start
  · rw [if_neg (by omega), List.getElem?_append_left (by omega), List.getElem?_take_of_lt before]
  · rw [List.getElem?_append_right (by omega), front]
    by_cases covered : index < start + values.length
    · rw [if_pos (by omega), List.getElem?_append_left (by omega)]
    · have behind : start + values.length + (index - start - values.length) = index := by omega
      rw [if_neg (by omega), List.getElem?_append_right (by omega), List.getElem?_drop, behind]

theorem window_middle (aligned : start = left.length) (size : count = middle.length) :
    window (left ++ middle ++ right) start count = middle := by
  subst aligned size
  simp [window, List.append_assoc]

end Overwrite

/-- The start of block `index` in the flat buffer. -/
def offset {α : Type} (blocks : List (List α)) (index : Nat) : Nat :=
  ((blocks.take index).map List.length).sum

section Offset

variable {α : Type} {blocks : List (List α)} {index other : Nat}

theorem offset_succ (bound : index < blocks.length) :
    offset blocks (index + 1) = offset blocks index + blocks[index].length := by
  rw [offset, List.take_succ_eq_append_getElem bound, List.map_append, List.sum_append]
  simp [offset]

theorem offset_eq_flatten_length : offset blocks index = (blocks.take index).flatten.length := by
  simp [offset, List.length_flatten]

theorem offset_length : offset blocks blocks.length = blocks.flatten.length := by
  simp [offset_eq_flatten_length]

theorem offset_append {more : List (List α)} (bound : index ≤ blocks.length) :
    offset (blocks ++ more) index = offset blocks index := by
  rw [offset, List.take_append_of_le_length bound, offset]

theorem offset_mono (le : index ≤ other) : offset blocks index ≤ offset blocks other := by
  obtain ⟨gap, rfl⟩ := Nat.exists_eq_add_of_le le
  rw [offset, offset, List.take_add]
  simp

/-- A block ends where the next one starts, so it ends no later than any
block behind it starts. -/
theorem offset_add_length_le (bound : index < blocks.length) (before : index < other) :
    offset blocks index + blocks[index].length ≤ offset blocks other := by
  rw [← offset_succ bound]
  exact offset_mono before

theorem block_inside (bound : index < blocks.length) :
    offset blocks index + blocks[index].length ≤ blocks.flatten.length := by
  rw [← offset_length]
  exact offset_add_length_le bound bound

theorem flatten_split (bound : index < blocks.length) :
    blocks.flatten = (blocks.take index).flatten ++ blocks[index] ++ (blocks.drop (index + 1)).flatten := by
  calc blocks.flatten = (blocks.take index ++ blocks.drop index).flatten := by
        rw [List.take_append_drop]
    _ = (blocks.take index).flatten ++ blocks[index] ++ (blocks.drop (index + 1)).flatten := by
        rw [List.drop_eq_getElem_cons bound, List.flatten_append, List.flatten_cons, List.append_assoc]

/-- Reading a block's own window gives the block back, whatever follows the
blocks in the buffer. -/
theorem window_block (bound : index < blocks.length) (rest : List α) :
    window (blocks.flatten ++ rest) (offset blocks index) blocks[index].length = blocks[index] := by
  rw [flatten_split bound, List.append_assoc _ _ rest]
  exact window_middle offset_eq_flatten_length rfl

theorem overwrite_block {values rest : List α} (bound : index < blocks.length)
    (same : values.length = blocks[index].length) :
    overwrite (blocks.flatten ++ rest) (offset blocks index) values =
      (blocks.set index values).flatten ++ rest := by
  rw [flatten_split bound, List.append_assoc _ _ rest,
    overwrite_middle offset_eq_flatten_length same, List.set_eq_take_append_cons_drop, if_pos bound]
  simp

end Offset

end Koshka.Data
