import Koshka.Regalloc.Mapping

namespace Koshka

open Data

def regAnswers (state : RegallocState) : List RegOp → List Int
  | [] => []
  | .alloc armRegId :: rest => (regAlloc state armRegId).1 :: regAnswers (regAlloc state armRegId).2 rest
  | .reset :: rest => regAnswers (regReset state) rest

/-- What a table answers that has served `ids`, and is replaced on each reset. -/
def tableAnswers (table : List (Slot U8)) (ids : List U8) : List RegOp → List Int
  | [] => []
  | .alloc armRegId :: rest =>
      resultOf (answer table ids armRegId) :: tableAnswers table (ids ++ [armRegId]) rest
  | .reset :: rest => tableAnswers resetTable [] rest

section Answers

variable {table : List (Slot U8)} {ids : List U8} {state : RegallocState} {history : List RegOp}

theorem Tracks.answers (tracks : Tracks table ids state) (small : IdsWithin 32 history) :
    regAnswers state history = tableAnswers table ids history := by
  induction history generalizing table ids state with
  | nil => rfl
  | cons op rest ih =>
      obtain ⟨range, later⟩ := List.forall_mem_cons.mp small
      cases op with
      | alloc armRegId =>
          obtain ⟨answered, next⟩ := tracks.alloc range
          rw [regAnswers, tableAnswers, answered, ih next later]
      | reset => exact ih (reset_tracks state) later

/-- A table spills in a history if some stretch asks for more distinct ids than it has slots. -/
theorem tableAnswers_spill (opened : (distinct ids).length ≤ (freeSlots table).length) :
    -1 ∉ tableAnswers table ids history ↔
      (distinct (ids ++ (stretches history).1)).length ≤ (freeSlots table).length ∧
        ∀ ids ∈ (stretches history).2, (distinct ids).length ≤ x86GpCount := by
  induction history generalizing table ids with
  | nil =>
      refine iff_of_true List.not_mem_nil ⟨?_, fun ids member => absurd member List.not_mem_nil⟩
      rw [stretches, List.append_nil]
      exact opened
  | cons op rest ih =>
      cases op with
      | alloc armRegId =>
          have first : (-1 : Int) = resultOf (answer table ids armRegId) ↔
              (freeSlots table).length < (distinct (ids ++ [armRegId])).length := by
            rw [show (-1 : Int) = resultOf none from rfl, resultOf_inj, eq_comm, answer_none_iff]
          have asked : ids ++ (stretches (.alloc armRegId :: rest)).1 =
              ids ++ [armRegId] ++ (stretches rest).1 := List.append_cons ids armRegId _
          have later : (stretches (.alloc armRegId :: rest)).2 = (stretches rest).2 := rfl
          rw [tableAnswers, List.mem_cons, first, not_or, Nat.not_lt, asked, later]
          constructor
          · intro both
            exact (ih both.1).mp both.2
          · intro both
            have next := Nat.le_trans (distinct_length_le (ids ++ [armRegId]) (stretches rest).1) both.1
            exact ⟨next, (ih next).mpr both⟩
      | reset =>
          have none : (distinct ([] : List U8)).length ≤ (freeSlots resetTable).length := Nat.zero_le _
          have count : (freeSlots resetTable).length = x86GpCount := by decide
          have asked : ids ++ (stretches (.reset :: rest)).1 = ids := List.append_nil ids
          have later : (stretches (.reset :: rest)).2 = (stretches rest).1 :: (stretches rest).2 := rfl
          rw [tableAnswers, ih none, List.nil_append, asked, later, and_iff_right opened, count,
            List.forall_mem_cons]

end Answers

/-- Every call of every history returns what the first-come table behind the bytes answers. -/
theorem regAlloc_answers (history : List RegOp) (ids : IdsWithin 32 history) :
    regAnswers regallocInitial history = tableAnswers initialTable [] history :=
  initial_tracks.answers ids

theorem regAlloc_answers_reset :
    regAnswers regallocInitial [.alloc 31, .alloc 4, .alloc 31, .reset, .alloc 4] =
      tableAnswers initialTable [] [.alloc 31, .alloc 4, .alloc 31, .reset, .alloc 4] :=
  regAlloc_answers [.alloc 31, .alloc 4, .alloc 31, .reset, .alloc 4] (by decide)

/-- No call is told to spill if and only if the program's first stretch asks for at most twelve
distinct registers, and each later one for at most fourteen. -/
theorem regAlloc_spills_iff (history : List RegOp) (ids : IdsWithin 32 history) :
    -1 ∉ regAnswers regallocInitial history ↔
      (distinct (stretches history).1).length ≤ 12 ∧
        ∀ ids ∈ (stretches history).2, (distinct ids).length ≤ 14 := by
  have count : (freeSlots initialTable).length = 12 := by decide
  rw [initial_tracks.answers ids, tableAnswers_spill (Nat.zero_le _), List.nil_append, count]
  rfl

theorem regAlloc_spills_iff_reset :
    -1 ∉ regAnswers regallocInitial [.alloc 31, .alloc 4, .alloc 31, .reset, .alloc 4] ↔
      (distinct [(31 : U8), 4, 31]).length ≤ 12 ∧ ∀ ids ∈ [[(4 : U8)]], (distinct ids).length ≤ 14 :=
  regAlloc_spills_iff [.alloc 31, .alloc 4, .alloc 31, .reset, .alloc 4] (by decide)

end Koshka
