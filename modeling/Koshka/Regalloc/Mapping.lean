import Koshka.Regalloc

namespace Koshka

open Data

section Results

variable {index : Option Nat} {i : Int}

theorem resultOf_nonneg : 0 ≤ resultOf index ↔ ∃ slot, index = some slot := by
  cases index with
  | none => exact iff_of_false (by decide) nofun
  | some slot => exact iff_of_true (Int.natCast_nonneg slot) ⟨slot, rfl⟩

theorem resultOf_inj {left right : Option Nat} : resultOf left = resultOf right ↔ left = right := by
  cases left <;> cases right <;> grind [resultOf]

end Results

/-- Between two resets, two calls that return a register return the same one exactly
when they ask for the same ARM register. -/
theorem regAlloc_same_iff (history : List RegOp) (between : List U8) (first second : U8)
    (ids : IdsWithin 32 history) (betweenIds : ∀ id ∈ between, id.toNat ≤ 32)
    (firstId : first.toNat ≤ 32) (secondId : second.toNat ≤ 32)
    (firstMapped : 0 ≤ (regAlloc (regRun regallocInitial history) first).1)
    (secondMapped : 0 ≤ (regAlloc (regRun regallocInitial
      (history ++ .alloc first :: between.map .alloc)) second).1) :
    (regAlloc (regRun regallocInitial history) first).1 =
        (regAlloc (regRun regallocInitial (history ++ .alloc first :: between.map .alloc)) second).1 ↔
      first = second := by
  have tracks := initial_tracks.run ids
  obtain ⟨firstResult, next⟩ := tracks.alloc firstId
  have later := next.allocs between betweenIds
  rw [List.append_assoc, List.singleton_append] at later
  have secondResult := (later.alloc secondId).1
  have unfolded : regRun regallocInitial (history ++ .alloc first :: between.map .alloc) =
      regRun (regAlloc (regRun regallocInitial history) first).2 (between.map .alloc) := by
    rw [regRun_append]
    rfl
  rw [unfolded] at secondMapped ⊢
  rw [firstResult] at firstMapped ⊢
  rw [secondResult] at secondMapped ⊢
  obtain ⟨left, firstAnswer⟩ := resultOf_nonneg.mp firstMapped
  obtain ⟨right, secondAnswer⟩ := resultOf_nonneg.mp secondMapped
  rw [resultOf_inj, firstAnswer, secondAnswer, Option.some.injEq]
  exact answer_inj firstAnswer secondAnswer

theorem regAlloc_same_iff_reset :
    (regAlloc (regRun regallocInitial [.alloc 3, .reset, .alloc 7]) 31).1 =
      (regAlloc (regRun regallocInitial [.alloc 3, .reset, .alloc 7, .alloc 31, .alloc 0]) 31).1 ↔
    (31 : U8) = 31 :=
  regAlloc_same_iff [.alloc 3, .reset, .alloc 7] [0] 31 31 (by decide) (by decide)
    (by decide) (by decide) (by decide) (by decide)

/-- The state in which a stretch of calls starts: the program's, or a reset's. -/
def StretchStart (start : List RegOp) : Prop :=
  start = [] ∨ ∃ earlier, start = earlier ++ [.reset]

theorem stretch_reset {earlier : List RegOp} {current : List (Slot U8) × List U8} :
    stretch (earlier ++ [.reset]) current = (resetTable, []) := by
  induction earlier generalizing current with
  | nil => rfl
  | cons op earlier ih => cases op <;> exact ih

theorem start_tracks {start : List RegOp} (begins : StretchStart start) (ids : IdsWithin 32 start) :
    Tracks (if start = [] then initialTable else resetTable) [] (regRun regallocInitial start) := by
  have tracks := initial_tracks.run ids
  rcases begins with rfl | ⟨earlier, rfl⟩
  · exact tracks
  · rw [stretch_reset] at tracks
    simpa using tracks

/-- How many distinct ARM registers a stretch can map. -/
def stretchCapacity (start : List RegOp) : Nat := if start = [] then 12 else x86GpCount

theorem stretchCapacity_eq (start : List RegOp) :
    stretchCapacity start =
      (freeSlots (if start = [] then initialTable else resetTable)).length := by
  unfold stretchCapacity
  split <;> decide

/-- A mapped register is found again as long as no more registers were asked for than
there are slots.  The first one too many sets `full`, and then every call says to spill. -/
theorem regAlloc_stays_iff (start : List RegOp) (before between : List U8) (armRegId : U8)
    (begins : StretchStart start) (startIds : IdsWithin 31 start)
    (ids : ∀ id ∈ before ++ armRegId :: between, id.toNat ≤ 31)
    (mapped : 0 ≤ (regAlloc (regRun regallocInitial (start ++ before.map .alloc)) armRegId).1) :
    (regAlloc (regRun regallocInitial (start ++ (before ++ armRegId :: between).map .alloc))
        armRegId).1 =
        (regAlloc (regRun regallocInitial (start ++ before.map .alloc)) armRegId).1 ↔
      (distinct (before ++ armRegId :: between)).length ≤ stretchCapacity start := by
  have small : armRegId.toNat ≤ 32 := Nat.le_succ_of_le (ids armRegId (by simp))
  have tracks := start_tracks begins (startIds.mono (by decide))
  have first := tracks.allocs before
    fun id member => Nat.le_succ_of_le (ids id (by simp [member]))
  have later := tracks.allocs (before ++ armRegId :: between)
    fun id member => Nat.le_succ_of_le (ids id member)
  rw [List.nil_append] at first later
  rw [regRun_append] at mapped ⊢
  rw [regRun_append]
  rw [(first.alloc small).1] at mapped ⊢
  obtain ⟨index, answered⟩ := resultOf_nonneg.mp mapped
  rw [(later.alloc small).1, resultOf_inj, answered, stretchCapacity_eq]
  exact answer_again answered

/-- After a reset, a fourteenth register still leaves the first one mapped. -/
theorem regAlloc_stays_iff_reset :
    (regAlloc (regRun regallocInitial
        ([.alloc 5, .reset] ++ ([2] ++ 29 :: [0, 1, 3, 4, 5, 6, 7, 8, 9, 10, 11, 12]).map .alloc)) 29).1 =
        (regAlloc (regRun regallocInitial ([.alloc 5, .reset] ++ [2].map .alloc)) 29).1 ↔
      (distinct ([2] ++ (29 : U8) :: [0, 1, 3, 4, 5, 6, 7, 8, 9, 10, 11, 12])).length ≤
        stretchCapacity [.alloc 5, .reset] :=
  regAlloc_stays_iff [.alloc 5, .reset] [2] [0, 1, 3, 4, 5, 6, 7, 8, 9, 10, 11, 12] 29
    (Or.inr ⟨[.alloc 5], rfl⟩) (by decide) (by decide) (by decide)

/-- X0 is mapped to RAX by the first call.  Twelve other registers later, the same call
says to spill it. -/
theorem regAlloc_forgets :
    ¬ ∀ (start : List RegOp) (before between : List U8) (armRegId : U8), StretchStart start →
      IdsWithin 31 start → (∀ id ∈ before ++ armRegId :: between, id.toNat ≤ 31) →
      0 ≤ (regAlloc (regRun regallocInitial (start ++ before.map .alloc)) armRegId).1 →
      (regAlloc (regRun regallocInitial (start ++ (before ++ armRegId :: between).map .alloc))
          armRegId).1 =
        (regAlloc (regRun regallocInitial (start ++ before.map .alloc)) armRegId).1 := by
  intro stays
  have same := stays [] [] [1, 2, 3, 4, 5, 6, 7, 8, 9, 10, 11, 12] 0 (Or.inl rfl) (by decide)
    (by decide) (by decide)
  exact absurd same (by decide)

/-- The result goes to RSP and RBP for their ARM counterparts, and for no other. -/
def RespectsReserved (armRegId : U8) (result : Int) : Prop :=
  (result = X86Reg.rsp.encoding → armRegId = 31) ∧
  (result = X86Reg.rbp.encoding → armRegId = 29) ∧
  (0 ≤ result → armRegId = 31 → result = X86Reg.rsp.encoding) ∧
  (0 ≤ result → armRegId = 29 → result = X86Reg.rbp.encoding)

def ReservedRespected (state : RegallocState) : List RegOp → Prop
  | [] => True
  | .alloc armRegId :: rest =>
      RespectsReserved armRegId (regAlloc state armRegId).1 ∧
        ReservedRespected (regAlloc state armRegId).2 rest
  | .reset :: rest => ReservedRespected (regReset state) rest

/-- The ids asked for before the first reset, and those of each stretch after one. -/
def stretches : List RegOp → List U8 × List (List U8)
  | [] => ([], [])
  | .alloc armRegId :: rest => (armRegId :: (stretches rest).1, (stretches rest).2)
  | .reset :: rest => ([], (stretches rest).1 :: (stretches rest).2)

/-- Before the first reset RSP and RBP are set apart: neither SP nor X29 may be among
the twelve distinct registers that get a register. -/
def FirstStretchOk (ids : List U8) : Prop :=
  ∀ place id, place < 12 → (distinct ids)[place]? = some id → id ≠ 29 ∧ id ≠ 31

/-- After a reset the fifth distinct register gets RSP and the sixth gets RBP. -/
def LaterStretchOk (ids : List U8) : Prop :=
  ∀ place id, place < x86GpCount → (distinct ids)[place]? = some id →
    (place = 4 ↔ id = 31) ∧ (place = 5 ↔ id = 29)

section Reserved

variable {table : List (Slot U8)} {requests ids : List U8} {state : RegallocState} {armRegId : U8}

theorem respectsReserved_resultOf {index : Option Nat} :
    RespectsReserved armRegId (resultOf index) ↔
      ∀ slot, index = some slot → (slot = 4 ↔ armRegId = 31) ∧ (slot = 5 ↔ armRegId = 29) := by
  cases index with
  | none => simp [RespectsReserved, resultOf, X86Reg.encoding]
  | some slot =>
      simp only [RespectsReserved, resultOf, X86Reg.encoding, Option.some.injEq, forall_eq']
      have nonneg : (0 : Int) ≤ (slot : Int) := Int.natCast_nonneg slot
      constructor
      · intro both
        obtain ⟨toSp, toBp, sp, bp⟩ := both
        exact ⟨⟨fun same => toSp (by omega), fun same => by have := sp nonneg same; omega⟩,
          ⟨fun same => toBp (by omega), fun same => by have := bp nonneg same; omega⟩⟩
      · intro both
        obtain ⟨sp, bp⟩ := both
        exact ⟨fun same => sp.mp (by omega), fun same => bp.mp (by omega),
          fun _ same => by have := sp.mpr same; omega, fun _ same => by have := bp.mpr same; omega⟩

theorem Tracks.reserved_iff (tracks : Tracks table requests state)
    (small : ∀ id ∈ ids, id.toNat ≤ 32) :
    ReservedRespected state (ids.map .alloc) ↔
      ∀ before id after slot, ids = before ++ id :: after →
        answer table (requests ++ before) id = some slot →
        (slot = 4 ↔ id = 31) ∧ (slot = 5 ↔ id = 29) := by
  induction ids generalizing requests state with
  | nil => simp [ReservedRespected]
  | cons first ids ih =>
      obtain ⟨result, next⟩ := tracks.alloc (small first List.mem_cons_self)
      have rest := ih next fun id member => small id (List.mem_cons_of_mem _ member)
      rw [List.map_cons, ReservedRespected, rest, result, respectsReserved_resultOf]
      constructor
      · intro both before id after slot split answered
        obtain ⟨head, tail⟩ := both
        cases before with
        | nil =>
            cases split
            exact head slot (by simpa using answered)
        | cons other before =>
            cases split
            exact tail before id after slot rfl (by simpa using answered)
      · intro all
        refine ⟨fun slot answered => all [] first ids slot rfl (by simpa using answered), ?_⟩
        intro before id after slot split answered
        exact all (first :: before) id after slot (by rw [split, List.cons_append])
          (by simpa using answered)

theorem Tracks.stretch_iff (tracks : Tracks table [] state) (small : ∀ id ∈ ids, id.toNat ≤ 32) :
    ReservedRespected state (ids.map .alloc) ↔
      ∀ (place slot : Nat) (id : U8), (freeSlots table)[place]? = some slot →
        (distinct ids)[place]? = some id → (slot = 4 ↔ id = 31) ∧ (slot = 5 ↔ id = 29) := by
  rw [tracks.reserved_iff small]
  simp only [List.nil_append]
  exact answers_iff fun slot id => (slot = 4 ↔ id = 31) ∧ (slot = 5 ↔ id = 29)

theorem initial_stretch_iff (small : ∀ id ∈ ids, id.toNat ≤ 32) :
    ReservedRespected regallocInitial (ids.map .alloc) ↔ FirstStretchOk ids := by
  have spared : ∀ slot ∈ freeSlots initialTable, slot ≠ 4 ∧ slot ≠ 5 := by decide
  have count : (freeSlots initialTable).length = 12 := by decide
  rw [initial_tracks.stretch_iff small]
  constructor
  · intro all place id bound asked
    have found := List.getElem?_eq_getElem (count ▸ bound)
    obtain ⟨sp, bp⟩ := all place _ id found asked
    obtain ⟨notSp, notBp⟩ := spared _ (List.mem_of_getElem? found)
    exact ⟨fun same => notBp (bp.mpr same), fun same => notSp (sp.mpr same)⟩
  · intro ok place slot id found asked
    obtain ⟨bound, _⟩ := List.getElem?_eq_some_iff.mp found
    obtain ⟨notSp, notBp⟩ := spared slot (List.mem_of_getElem? found)
    obtain ⟨notX29, notX31⟩ := ok place id (count ▸ bound) asked
    exact ⟨iff_of_false notSp notX31, iff_of_false notBp notX29⟩

theorem reset_stretch_iff (small : ∀ id ∈ ids, id.toNat ≤ 32) :
    ReservedRespected (regReset state) (ids.map .alloc) ↔ LaterStretchOk ids := by
  have slots : freeSlots resetTable = List.range x86GpCount := by decide
  rw [(reset_tracks state).stretch_iff small, slots]
  constructor
  · intro all place id bound asked
    exact all place place id (List.getElem?_range bound) asked
  · intro ok place slot id found asked
    obtain ⟨bound, get⟩ := List.getElem?_eq_some_iff.mp found
    rw [List.getElem_range] at get
    rw [List.length_range] at bound
    exact get ▸ ok place id bound asked

theorem reservedRespected_append {first second : List RegOp} :
    ReservedRespected state (first ++ second) ↔
      ReservedRespected state first ∧ ReservedRespected (regRun state first) second := by
  induction first generalizing state with
  | nil => simp [ReservedRespected, regRun]
  | cons op first ih =>
      cases op with
      | alloc armRegId =>
          simp only [List.cons_append, ReservedRespected, ih, and_assoc]
          rfl
      | reset =>
          simp only [List.cons_append, ReservedRespected, ih]
          rfl

/-- A history is its first stretch of calls, then a reset and the rest, if any. -/
theorem stretches_split (history : List RegOp) :
    match (stretches history).2 with
    | [] => history = (stretches history).1.map .alloc
    | next :: more => ∃ rest, history = (stretches history).1.map .alloc ++ .reset :: rest ∧
        stretches rest = (next, more) := by
  induction history with
  | nil => rfl
  | cons op rest ih =>
      cases op with
      | reset => exact ⟨rest, rfl, rfl⟩
      | alloc armRegId =>
          simp only [stretches]
          cases later : (stretches rest).2 with
          | nil =>
              rw [later] at ih
              rw [List.map_cons, ← ih]
          | cons next more =>
              rw [later] at ih
              obtain ⟨tail, split, found⟩ := ih
              exact ⟨tail, by rw [List.map_cons, List.cons_append, ← split], found⟩

theorem IdsWithin.of_append_map {first : List U8} (rest : List RegOp)
    (within : IdsWithin 32 (first.map .alloc ++ rest)) :
    (∀ id ∈ first, id.toNat ≤ 32) ∧ IdsWithin 32 rest :=
  ⟨fun id member => within (.alloc id) (by simp [member]),
    fun op member => within op (by simp [member])⟩

/-- Stretch by stretch: the first one by its own rule, each later one by the rule for a
table that a reset has cleared. -/
theorem reservedRespected_stretches (state : RegallocState) (history : List RegOp)
    {firstOk : List U8 → Prop}
    (within : IdsWithin 32 history)
    (first : ∀ ids : List U8, (∀ id ∈ ids, id.toNat ≤ 32) →
      (ReservedRespected state (ids.map .alloc) ↔ firstOk ids)) :
    ReservedRespected state history ↔
      firstOk (stretches history).1 ∧ ∀ ids ∈ (stretches history).2, LaterStretchOk ids := by
  induction later : (stretches history).2 generalizing state history firstOk with
  | nil =>
      have whole := stretches_split history
      rw [later] at whole
      have small := (IdsWithin.of_append_map [] (by rwa [List.append_nil, ← whole])).1
      have here := first _ small
      rw [← whole] at here
      simpa using here
  | cons next more ih =>
      have whole := stretches_split history
      rw [later] at whole
      obtain ⟨rest, split, found⟩ := whole
      obtain ⟨small, restWithin⟩ := IdsWithin.of_append_map _ (split ▸ within)
      have restWithin : IdsWithin 32 rest := fun op member =>
        restWithin op (List.mem_cons_of_mem _ member)
      have tail := ih (regReset (regRun state ((stretches history).1.map .alloc))) rest
        restWithin (fun ids small => reset_stretch_iff small) (by rw [found])
      have head := first _ small
      generalize (stretches history).1 = ids at *
      rw [split, reservedRespected_append, head, ReservedRespected, tail, found, List.forall_mem_cons]

end Reserved

/-- The law of the two reserved registers holds of a history exactly when no stretch of
calls asks for its registers in an order that breaks it. -/
theorem reservedRespected_iff (history : List RegOp) (ids : IdsWithin 31 history) :
    ReservedRespected regallocInitial history ↔
      FirstStretchOk (stretches history).1 ∧ ∀ ids ∈ (stretches history).2, LaterStretchOk ids :=
  reservedRespected_stretches _ _ (ids.mono (by decide)) fun _ small => initial_stretch_iff small

theorem reservedRespected_iff_reset :
    ReservedRespected regallocInitial
        [.alloc 3, .reset, .alloc 0, .alloc 1, .alloc 2, .alloc 3, .alloc 31, .alloc 29] ↔
      FirstStretchOk [3] ∧ ∀ ids ∈ [[(0 : U8), 1, 2, 3, 31, 29]], LaterStretchOk ids :=
  reservedRespected_iff
    [.alloc 3, .reset, .alloc 0, .alloc 1, .alloc 2, .alloc 3, .alloc 31, .alloc 29] (by decide)

/-- The stack pointer, asked for first, is mapped to RAX. -/
theorem reserved_not_respected :
    ¬ ∀ history, IdsWithin 31 history → ReservedRespected regallocInitial history := by
  intro respected
  have call := (respected [.alloc 31] (by decide)).1
  exact absurd (call.2.2.1 (by decide) rfl) (by decide)

end Koshka
