import Koshka.Data.Blocks

namespace Koshka

open Data

abbrev U8 := BitVec 8
abbrev U32 := BitVec 32
abbrev U64 := BitVec 64

/-- How a run can stop short of a result. -/
inductive Fault where
  /-- An `assert` does not hold. -/
  | assertFailed
  /-- A read or a write leaves the buffer it is made in. -/
  | outOfBounds
  /-- A shift by at least the width of the shifted value. -/
  | shiftOutOfRange
  /-- The fuel given to a loop or a recursion does not reach its end. -/
  | outOfFuel
deriving Repr, DecidableEq

def assert (condition : Prop) [Decidable condition] : Except Fault Unit :=
  if condition then .ok () else .error .assertFailed

@[simp] theorem assert_eq_ok {condition : Prop} [Decidable condition] {done : Unit} :
    assert condition = .ok done ↔ condition := by
  unfold assert
  split <;> simp_all

theorem assert_true {condition : Prop} [Decidable condition] (holds : condition) :
    assert condition = .ok () := if_pos holds

theorem assert_false {condition : Prop} [Decidable condition] (fails : ¬ condition) :
    assert condition = .error .assertFailed := if_neg fails

/-- A failed allocation is the empty buffer, so that every access through it is out of bounds. -/
def calloc {α : Type} [OfNat α 0] (succeeds : Bool) (count : Nat) : List α :=
  if succeeds then List.replicate count 0 else []

def memcpy {α : Type} (buffer : List α) (start : Nat) (source : List α) (count : Nat) :
    Except Fault (List α) :=
  if count ≤ source.length ∧ start + count ≤ buffer.length then
    .ok (overwrite buffer start (source.take count))
  else .error .outOfBounds

def memset {α : Type} (buffer : List α) (start : Nat) (value : α) (count : Nat) :
    Except Fault (List α) :=
  memcpy buffer start (List.replicate count value) count

section Memory

variable {α : Type} {buffer source : List α} {start count : Nat}

theorem memcpy_ok (enough : count ≤ source.length) (room : start + count ≤ buffer.length) :
    memcpy buffer start source count = .ok (overwrite buffer start (source.take count)) :=
  if_pos ⟨enough, room⟩

theorem memcpy_fault (outside : source.length < count ∨ buffer.length < start + count) :
    memcpy buffer start source count = .error .outOfBounds :=
  if_neg (by omega)

theorem memcpy_error {fault : Fault} (failed : memcpy buffer start source count = .error fault) :
    fault = .outOfBounds := by
  rw [memcpy] at failed
  split at failed
  · cases failed
  · cases failed
    rfl

theorem memset_ok {value : α} (room : start + count ≤ buffer.length) :
    memset buffer start value count = .ok (overwrite buffer start (List.replicate count value)) := by
  rw [memset, memcpy_ok (by simp) room, List.take_of_length_le (by simp)]

theorem memset_fault {value : α} (outside : buffer.length < start + count) :
    memset buffer start value count = .error .outOfBounds :=
  memcpy_fault (Or.inr outside)

end Memory

end Koshka
