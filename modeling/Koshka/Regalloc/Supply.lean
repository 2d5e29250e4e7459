import Koshka.Regalloc.Mapping

namespace Koshka

open Data

def regResults (state : RegallocState) : List U8 → List Int
  | [] => []
  | armRegId :: rest => (regAlloc state armRegId).1 :: regResults (regAlloc state armRegId).2 rest

/-- Some x86 register belongs to the ARM register. -/
def RegallocState.Maps (state : RegallocState) (armRegId : U8) : Prop := armRegId + 1 ∈ state.takenGp

instance (state : RegallocState) (armRegId : U8) : Decidable (state.Maps armRegId) :=
  inferInstanceAs (Decidable (_ ∈ _))

/-- The x86 register belongs to another ARM register. -/
def RegallocState.ClaimedByOther (state : RegallocState) (armRegId : U8) (reg : X86Reg) : Prop :=
  ∃ other : U8, other ≠ armRegId ∧ other.toNat ≤ 31 ∧ state.takenGp[reg.encoding]? = some (other + 1)

/-- The call says to spill only if it finds all x86 registers but RSP and RBP claimed. -/
def RegallocState.SpillsOnlyFull (state : RegallocState) (armRegId : U8) : Prop :=
  (regAlloc state armRegId).1 = -1 →
    ∀ reg : X86Reg, reg ≠ .rsp → reg ≠ .rbp → state.ClaimedByOther armRegId reg

section Supply

variable {table left right : List (Slot U8)} {requests ids : List U8}
  {state one two : RegallocState} {armRegId : U8}

/-- The search never reaches the slots of R14 and R15. -/
theorem regAlloc_drop (length : state.takenGp.length = x86GpCount + 2) :
    (regAlloc state armRegId).2.takenGp.drop x86GpCount = state.takenGp.drop x86GpCount := by
  unfold regAlloc
  split
  · rfl
  · dsimp only
    split
    · rename_i i searched search
      have width : searched.length = x86GpCount := by
        rw [regSearch_length search, List.length_take, length]
        rfl
      rw [← width, List.drop_left]
    · split
      · exact List.drop_set_of_lt (by decide)
      · split
        · exact List.drop_set_of_lt (by decide)
        · rfl

theorem Tracks.allocs_drop (tracks : Tracks table requests state) (small : ∀ id ∈ ids, id.toNat ≤ 32) :
    (regRun state (ids.map .alloc)).takenGp.drop x86GpCount = state.takenGp.drop x86GpCount := by
  induction ids generalizing requests state with
  | nil => rfl
  | cons id ids ih =>
      have next := (tracks.alloc (small id List.mem_cons_self)).2
      exact (ih next fun id member => small id (List.mem_cons_of_mem _ member)).trans
        (regAlloc_drop tracks.length)

/-- No call of the first stretch claims R14. -/
theorem r14_unclaimed (small : ∀ id ∈ ids, id.toNat ≤ 32) :
    ¬ (regRun regallocInitial (ids.map .alloc)).ClaimedByOther armRegId .r14 := by
  intro claimed
  obtain ⟨other, _, range, found⟩ := claimed
  have slot : (regRun regallocInitial (ids.map .alloc)).takenGp[14]? = some 0 := by
    rw [← Nat.add_zero 14, ← List.getElem?_drop]
    exact congrArg (·[0]?) (initial_tracks.allocs_drop small)
  have zero : (0 : U8) = other + 1 := Option.some.inj (slot.symm.trans found)
  bv_omega

/-- A register that was asked for is mapped as long as the table is open. -/
theorem Tracks.maps (tracks : Tracks table requests state) (asked : armRegId ∈ requests)
    (small : armRegId.toNat ≤ 32) (few : (distinct requests).length ≤ (freeSlots table).length) :
    state.Maps armRegId := by
  obtain ⟨_, service, served, fullSame, tableSame⟩ := tracks
  obtain ⟨opened, filled⟩ := served.opened few
  have member := mem_fill (mem_distinct.mpr asked) few
  rw [← filled, tableSame (fullSame ▸ opened)] at member
  obtain ⟨taken, inside, same⟩ := List.mem_map.mp member
  rw [slotOf_eq_taken small] at same
  subst same
  exact List.mem_of_mem_take inside

theorem resultOf_eq_neg_one {index : Option Nat} : resultOf index = -1 ↔ index = none := by
  rw [show (-1 : Int) = resultOf none from rfl, resultOf_inj]

/-- An unmapped register is refused once all free slots are taken. -/
theorem initial_refuses_iff (small : ∀ id ∈ ids, id.toNat ≤ 32) (range : armRegId.toNat ≤ 32)
    (unmapped : ¬ (regRun regallocInitial (ids.map .alloc)).Maps armRegId) :
    (regAlloc (regRun regallocInitial (ids.map .alloc)) armRegId).1 = -1 ↔
      12 ≤ (distinct ids).length := by
  have tracks := initial_tracks.allocs ids small
  rw [List.nil_append] at tracks
  have count : (freeSlots initialTable).length = 12 := by decide
  rw [(tracks.alloc range).1, resultOf_eq_neg_one, answer, count]
  by_cases closed : 12 < (distinct ids).length
  · rw [if_pos closed]
    exact iff_of_true rfl closed.le
  · have new : armRegId ∉ distinct ids := fun asked =>
      unmapped (tracks.maps (mem_distinct.mp asked) range (count ▸ Nat.le_of_not_lt closed))
    rw [if_neg closed, distinct_snoc, if_neg new, List.idxOf_append_of_notMem new, List.idxOf_cons_self,
      List.getElem?_eq_none_iff, count]
    rfl

/-- Two allocators give a run of calls the same results exactly when the tables behind them
answer alike. -/
theorem Tracks.results_eq_iff (first : Tracks left requests one) (second : Tracks right requests two)
    (small : ∀ id ∈ ids, id.toNat ≤ 32) :
    regResults one ids = regResults two ids ↔
      ∀ before id after, ids = before ++ id :: after →
        answer left (requests ++ before) id = answer right (requests ++ before) id := by
  induction ids generalizing requests one two with
  | nil => simp [regResults]
  | cons head ids ih =>
      have range := small head List.mem_cons_self
      obtain ⟨firstResult, firstNext⟩ := first.alloc range
      obtain ⟨secondResult, secondNext⟩ := second.alloc range
      have rest := ih firstNext secondNext fun id member => small id (List.mem_cons_of_mem _ member)
      rw [regResults, regResults, List.cons.injEq, rest, firstResult, secondResult, resultOf_inj]
      constructor
      · intro both before id after split
        obtain ⟨here, later⟩ := both
        cases before with
        | nil =>
            cases split
            simpa using here
        | cons other before =>
            cases split
            simpa using later before id after rfl
      · intro all
        refine ⟨by simpa using all [] head ids rfl, fun before id after split => ?_⟩
        simpa using all (head :: before) id after (by rw [split, List.cons_append])

/-- The first four free slots of the two tables are the same, and the fifth are not. -/
theorem freeSlots_agree_iff {count : Nat} :
    (∀ place < count, (freeSlots resetTable)[place]? = (freeSlots initialTable)[place]?) ↔ count ≤ 4 := by
  constructor
  · intro same
    by_contra more
    exact absurd (same 4 (Nat.not_le.mp more)) (by decide)
  · intro few place bound
    have four : ∀ place < 4,
      (freeSlots resetTable)[place]? = (freeSlots initialTable)[place]? := by decide
    exact four place (Nat.lt_of_lt_of_le bound few)

end Supply

/-- An unmapped register is spilled with R14 and R15 left as soon as twelve registers are mapped. -/
theorem regAlloc_spillsOnlyFull_iff (history : List U8) (armRegId : U8)
    (ids : ∀ id ∈ history, id.toNat ≤ 28 ∨ id = 30) (range : armRegId.toNat ≤ 31)
    (unmapped : ¬ (regRun regallocInitial (history.map .alloc)).Maps armRegId) :
    (regRun regallocInitial (history.map .alloc)).SpillsOnlyFull armRegId ↔
      (distinct history).length < 12 := by
  have small : ∀ id ∈ history, id.toNat ≤ 32 := by
    intro id member
    rcases ids id member with low | link
    · omega
    · subst link
      decide
  have refused := initial_refuses_iff small (Nat.le_succ_of_le range) unmapped
  constructor
  · intro onlyFull
    by_contra many
    exact r14_unclaimed small (onlyFull (refused.mpr (Nat.le_of_not_lt many)) .r14 (by decide) (by decide))
  · intro few spilled
    exact absurd (refused.mp spilled) (Nat.not_le.mpr few)

theorem regAlloc_spillsOnlyFull_iff_two :
    (regRun regallocInitial ([0, 30, 0].map .alloc)).SpillsOnlyFull 7 ↔
      (distinct [(0 : U8), 30, 0]).length < 12 :=
  regAlloc_spillsOnlyFull_iff [0, 30, 0] 7 (by decide) (by decide) (by decide)

/-- X12 is spilled after X0 to X11 although no register has R14 or R15. -/
theorem regAlloc_spills_early : ¬ ∀ (history : List U8) (armRegId : U8),
    (∀ id ∈ history, id.toNat ≤ 28 ∨ id = 30) → armRegId.toNat ≤ 31 →
      ¬ (regRun regallocInitial (history.map .alloc)).Maps armRegId →
        (regRun regallocInitial (history.map .alloc)).SpillsOnlyFull armRegId := by
  intro onlyFull
  have all := onlyFull [0, 1, 2, 3, 4, 5, 6, 7, 8, 9, 10, 11] 12 (by decide) (by decide) (by decide)
    (by decide) .r14 (by decide) (by decide)
  exact r14_unclaimed (by decide) all

/-- A reset allocator hands out RSP and RBP, so it differs from a fresh one at the fifth
distinct register. -/
theorem regReset_fresh_iff (history : List RegOp) (ids : List U8) (small : ∀ id ∈ ids, id.toNat ≤ 31) :
    regResults (regRun regallocInitial (history ++ [.reset])) ids = regResults regallocInitial ids ↔
      (distinct ids).length ≤ 4 := by
  have reset : regRun regallocInitial (history ++ [.reset]) = regReset (regRun regallocInitial history) :=
    regRun_append
  rw [reset, (reset_tracks _).results_eq_iff initial_tracks fun id member =>
    Nat.le_succ_of_le (small id member)]
  simp only [List.nil_append]
  rw [answers_agree_iff, freeSlots_agree_iff]

theorem regReset_fresh_iff_pair :
    regResults (regRun regallocInitial ([.alloc 5, .alloc 31] ++ [.reset])) [7, 31, 7] =
        regResults regallocInitial [7, 31, 7] ↔
      (distinct [(7 : U8), 31, 7]).length ≤ 4 :=
  regReset_fresh_iff [.alloc 5, .alloc 31] [7, 31, 7] (by decide)

/-- After a reset X4 gets RSP.  At the start of the program it gets RSI. -/
theorem regReset_not_fresh : ¬ ∀ (history : List RegOp) (ids : List U8),
    IdsWithin 31 history → (∀ id ∈ ids, id.toNat ≤ 31) →
      regResults (regRun regallocInitial (history ++ [.reset])) ids = regResults regallocInitial ids := by
  intro fresh
  exact absurd (fresh [] [0, 1, 2, 3, 4] (by decide) (by decide)) (by decide)

end Koshka
