import Koshka.Data.Blocks

namespace Koshka.Data

/-! Typed objects in an untyped buffer.

An object of `n` bytes occupies `n` cells, each of which remembers the object and
its own index in it.  An object can be read back only from the cell where it
starts, and only while all of its cells are still there: a partly overwritten
object, or one read at another type's address, is no object at all.
-/

inductive Cell (ω : Type) where
  | zero
  | fragment (object : ω) (index : Nat)
deriving Repr, DecidableEq

instance {ω : Type} : OfNat (Cell ω) 0 := ⟨.zero⟩

section Objects

variable {ω : Type} (size : ω → Nat)

def image (object : ω) : List (Cell ω) := (List.range (size object)).map (.fragment object)

/-- The object that starts at the first of `cells`. -/
def readObject [DecidableEq ω] : List (Cell ω) → Option ω
  | .fragment object 0 :: rest =>
      if (.fragment object 0 :: rest).take (size object) = image size object then some object
      else none
  | _ => none

@[simp] theorem image_length (object : ω) : (image size object).length = size object := by
  simp [image]

theorem image_cons {object : ω} (positive : 0 < size object) :
    ∃ rest, image size object = .fragment object 0 :: rest := by
  obtain ⟨count, found⟩ := Nat.exists_eq_add_of_lt positive
  exact ⟨_, by rw [image, found, Nat.zero_add, List.range_succ_eq_map, List.map_cons]⟩

theorem readObject_image [DecidableEq ω] {object : ω} (positive : 0 < size object)
    (rest : List (Cell ω)) : readObject size (image size object ++ rest) = some object := by
  obtain ⟨tail, cut⟩ := image_cons size positive
  have whole : (image size object ++ rest).take (size object) = image size object := by
    rw [← image_length size object, List.take_left]
  rw [cut, List.cons_append] at whole ⊢
  rw [readObject, if_pos (whole.trans cut.symm)]

def place (objects : List ω) (index : Nat) : Nat := ((objects.take index).map size).sum

variable {objects : List ω} {index other : Nat}

theorem offset_images : offset (objects.map (image size)) index = place size objects index := by
  simp only [offset, place, ← List.map_take, List.map_map]
  congr 2
  funext object
  exact image_length size object

theorem images_length :
    (objects.map (image size)).flatten.length = place size objects objects.length := by
  rw [← offset_images, ← offset_length, List.length_map]

@[simp] theorem place_zero : place size objects 0 = 0 := by simp [place]

theorem place_append_left (more : List ω) :
    place size (objects ++ more) objects.length = place size objects objects.length := by
  simp [place]

theorem place_succ (bound : index < objects.length) :
    place size objects (index + 1) = place size objects index + size objects[index] := by
  rw [place, List.take_succ_eq_append_getElem bound, List.map_append, List.sum_append]
  simp [place]

theorem place_mono (le : index ≤ other) : place size objects index ≤ place size objects other := by
  rw [← offset_images, ← offset_images]
  exact offset_mono le

theorem place_lt (bound : index < objects.length) (positive : 0 < size objects[index])
    (before : index < other) : place size objects index < place size objects other := by
  have next : place size objects (index + 1) ≤ place size objects other := place_mono size before
  rw [place_succ size bound] at next
  omega

theorem place_eq_sum : place size objects index = ((objects.map size).take index).sum := by
  rw [place, List.map_take]

theorem place_extends {more : List ω} (sizes : objects.map size <+: more.map size)
    (bound : index ≤ objects.length) : place size more index = place size objects index := by
  obtain ⟨rest, whole⟩ := sizes
  rw [place_eq_sum, place_eq_sum, ← whole, List.take_append_of_le_length (by simpa using bound)]

/-- An object laid out among others is read back at its place. -/
theorem readObject_place [DecidableEq ω] (bound : index < objects.length)
    (positive : 0 < size objects[index]) (rest : List (Cell ω)) :
    readObject size (((objects.map (image size)).flatten ++ rest).drop (place size objects index)) =
      some objects[index] := by
  have inside : index < (objects.map (image size)).length := by simpa using bound
  have start : place size objects index = ((objects.map (image size)).take index).flatten.length := by
    rw [← offset_images, offset_eq_flatten_length]
  rw [flatten_split inside, start, List.append_assoc, List.append_assoc, List.drop_left,
    List.getElem_map]
  exact readObject_image size positive _

theorem map_size_set {replacement : ω} (bound : index < objects.length)
    (same : size replacement = size objects[index]) :
    (objects.set index replacement).map size = objects.map size := by
  have inside : index < (objects.map size).length := by simpa using bound
  have entry : size objects[index] = (objects.map size)[index] := by simp
  rw [List.map_set, same, entry, List.set_getElem_self]

theorem place_set {replacement : ω} (bound : index < objects.length)
    (same : size replacement = size objects[index]) :
    place size (objects.set index replacement) other = place size objects other := by
  rw [place_eq_sum, place_eq_sum, map_size_set size bound same]

/-- Storing another object of the same size over one of them is replacing it. -/
theorem overwrite_place {replacement : ω} {rest : List (Cell ω)} (bound : index < objects.length)
    (same : size replacement = size objects[index]) :
    overwrite ((objects.map (image size)).flatten ++ rest) (place size objects index)
        (image size replacement) =
      ((objects.set index replacement).map (image size)).flatten ++ rest := by
  have inside : index < (objects.map (image size)).length := by simpa using bound
  have width : (image size replacement).length = (objects.map (image size))[index].length := by
    simp [same]
  rw [← offset_images, overwrite_block inside width, List.map_set]

/-- Only the first cell of an object can be read. -/
theorem readObject_some [DecidableEq ω] {cells : List (Cell ω)} {object : ω}
    (read : readObject size cells = some object) : ∃ rest, cells = .fragment object 0 :: rest := by
  unfold readObject at read
  split at read
  · split at read
    · cases read
      exact ⟨_, rfl⟩
    · cases read
  · cases read

/-- An object that is read is there as a whole. -/
theorem readObject_length [DecidableEq ω] {cells : List (Cell ω)} {object : ω}
    (read : readObject size cells = some object) : size object ≤ cells.length := by
  unfold readObject at read
  split at read
  · split at read
    · rename_i whole
      cases read
      rw [← image_length size object, ← whole, List.length_take]
      exact Nat.min_le_right ..
    · cases read
  · cases read

/-- What is read back was laid out there. -/
theorem readObject_inv [DecidableEq ω] {start count : Nat} {object : ω}
    (read : readObject size (((objects.map (image size)).flatten ++ List.replicate count 0).drop start) =
      some object) : ∃ index, objects[index]? = some object ∧ place size objects index = start := by
  induction objects generalizing start with
  | nil =>
      obtain ⟨rest, cells⟩ := readObject_some size read
      rw [List.map_nil, List.flatten_nil, List.nil_append, List.drop_replicate] at cells
      have member : Cell.fragment object 0 ∈ List.replicate (count - start) (0 : Cell ω) := by
        rw [cells]
        exact List.mem_cons_self
      cases List.eq_of_mem_replicate member
  | cons first objects ih =>
      rw [List.map_cons, List.flatten_cons, List.append_assoc] at read
      by_cases inside : start < size first
      · obtain ⟨rest, cells⟩ := readObject_some size read
        have entry := congrArg (·[0]?) cells
        simp only [List.getElem?_drop, Nat.add_zero, List.getElem?_cons_zero] at entry
        rw [List.getElem?_append_left (by simpa using inside), image, List.getElem?_map,
          List.getElem?_range inside] at entry
        cases entry
        exact ⟨0, rfl, place_zero size⟩
      · obtain ⟨beyond, rfl⟩ := Nat.exists_eq_add_of_le (Nat.le_of_not_lt inside)
        rw [List.drop_append, List.drop_of_length_le (by simp), image_length, Nat.add_sub_cancel_left,
          List.nil_append] at read
        obtain ⟨index, found, there⟩ := ih read
        refine ⟨index + 1, found, ?_⟩
        rw [place, List.take_succ_cons, List.map_cons, List.sum_cons, ← there, place]

end Objects

end Koshka.Data
