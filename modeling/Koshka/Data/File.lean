import Koshka.Data.Blocks

namespace Koshka.Data

/-! Files that are read from a position, with reads that come up short at the end.

What a read delivers and what it leaves to read depend on the rest of the file alone.
-/

structure File (α : Type) where
  content : List α
  pos : Nat

namespace File

variable {α : Type} {buffer : List α} {count target : Nat} {succeeds : Bool}

def opened (content : List α) : File α where
  content := content
  pos := 0

def rest (file : File α) : List α := file.content.drop file.pos

/-- A seek that fails does not move the position. -/
def seek (file : File α) (succeeds : Bool) (target : Nat) : File α :=
  if succeeds then { file with pos := target } else file

/-- The front of the buffer is replaced by what there is to read. -/
def read (file : File α) (buffer : List α) (count : Nat) : List α × File α :=
  let bytes := file.rest.take count
  (overwrite buffer 0 bytes, { file with pos := file.pos + bytes.length })

variable {file : File α}

@[simp] theorem seek_content : (file.seek succeeds target).content = file.content := by
  cases succeeds <;> rfl

theorem seek_rest : (file.seek succeeds target).rest =
    if succeeds then file.content.drop target else file.rest := by
  cases succeeds <;> rfl

theorem read_buffer : (file.read buffer count).1 = overwrite buffer 0 (file.rest.take count) := rfl

theorem read_rest (buffer : List α) : (file.read buffer count).2.rest = file.rest.drop count := by
  change file.content.drop (file.pos + (file.rest.take count).length) = file.rest.drop count
  rw [← List.drop_drop, List.length_take]
  change file.rest.drop (min count file.rest.length) = file.rest.drop count
  rcases Nat.le_total count file.rest.length with enough | short
  · rw [Nat.min_eq_left enough]
  · rw [Nat.min_eq_right short, List.drop_length, List.drop_of_length_le short]

/-- A read that the file has enough for replaces the buffer. -/
theorem read_whole (size : buffer.length = count) (enough : count ≤ file.rest.length) :
    (file.read buffer count).1 = file.rest.take count := by
  have full : (file.rest.take count).length = count := by rw [List.length_take, Nat.min_eq_left enough]
  rw [read_buffer, overwrite_zero, full, ← size, List.drop_length, List.append_nil]

end File

end Koshka.Data
