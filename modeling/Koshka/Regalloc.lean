import Koshka.Memory
import Koshka.Data.FirstCome

namespace Koshka

open Data

inductive X86Reg where
  | rax | rcx | rdx | rbx | rsp | rbp | rsi | rdi
  | r8 | r9 | r10 | r11 | r12 | r13 | r14 | r15
deriving Repr, DecidableEq

def X86Reg.encoding : X86Reg → Nat
  | .rax => 0 | .rcx => 1 | .rdx => 2 | .rbx => 3
  | .rsp => 4 | .rbp => 5 | .rsi => 6 | .rdi => 7
  | .r8 => 8 | .r9 => 9 | .r10 => 10 | .r11 => 11
  | .r12 => 12 | .r13 => 13 | .r14 => 14 | .r15 => 15

def x86GpCount : Nat := 14

structure RegallocState where
  takenGp : List U8
  full : Bool
deriving Repr, DecidableEq

def regallocInitial : RegallocState where
  takenGp := ((List.replicate (x86GpCount + 2) 0).set X86Reg.rsp.encoding 0xFF).set
    X86Reg.rbp.encoding 0xFF
  full := false

def regSearch (armRegId : U8) : List U8 → Option (Nat × List U8)
  | [] => none
  | taken :: rest =>
      if taken = armRegId then some (0, taken :: rest)
      else if taken = 0 then some (0, armRegId :: rest)
      else (regSearch armRegId rest).map fun (i, rest) => (i + 1, taken :: rest)

def regAlloc (state : RegallocState) (armRegId : U8) : Int × RegallocState :=
  if state.full then (-1, state)
  else
    let armRegId := armRegId + 1
    match regSearch armRegId (state.takenGp.take x86GpCount) with
    | some (i, searched) =>
        (i, { state with takenGp := searched ++ state.takenGp.drop x86GpCount })
    | none =>
        let takenGp :=
          if armRegId - 1 = 29 then state.takenGp.set X86Reg.rbp.encoding armRegId
          else if armRegId - 1 = 31 then state.takenGp.set X86Reg.rsp.encoding armRegId
          else state.takenGp
        (-1, { takenGp, full := true })

def regReset (_state : RegallocState) : RegallocState where
  takenGp := List.replicate (x86GpCount + 2) 0
  full := false

inductive RegOp where
  | alloc (armRegId : U8)
  | reset
deriving Repr, DecidableEq

def regStep (state : RegallocState) : RegOp → RegallocState
  | .alloc armRegId => (regAlloc state armRegId).2
  | .reset => regReset state

def regRun (state : RegallocState) (history : List RegOp) : RegallocState :=
  history.foldl regStep state

def RegOp.Within (limit : Nat) : RegOp → Prop
  | .alloc armRegId => armRegId.toNat ≤ limit
  | .reset => True

instance (limit : Nat) : DecidablePred (RegOp.Within limit)
  | .alloc _ => inferInstanceAs (Decidable (_ ≤ _))
  | .reset => inferInstanceAs (Decidable True)

def IdsWithin (limit : Nat) (history : List RegOp) : Prop :=
  ∀ op ∈ history, op.Within limit

instance (limit : Nat) (history : List RegOp) : Decidable (IdsWithin limit history) :=
  inferInstanceAs (Decidable (∀ op ∈ history, _))

theorem IdsWithin.mono {limit larger : Nat} {history : List RegOp} (within : IdsWithin limit history)
    (le : limit ≤ larger) : IdsWithin larger history := by
  intro op member
  cases op with
  | alloc armRegId => exact Nat.le_trans (within _ member) le
  | reset => trivial

theorem regRun_append {state : RegallocState} {first second : List RegOp} :
    regRun state (first ++ second) = regRun (regRun state first) second :=
  List.foldl_append ..

/-- A byte of `taken_gp` is an ARM register id plus one, zero for a free register and
`0xFF` for a reserved one. -/
def slotOf (taken : U8) : Slot U8 :=
  if taken = 0 then .free else if taken = 0xFF then .reserved else .taken (taken - 1)

def RegallocState.searched (state : RegallocState) : List (Slot U8) :=
  (state.takenGp.take x86GpCount).map slotOf

/-- What the program starts with: RSP and RBP are set apart. -/
def initialTable : List (Slot U8) :=
  List.replicate 4 .free ++ List.replicate 2 .reserved ++ List.replicate 8 .free

def resetTable : List (Slot U8) := List.replicate x86GpCount .free

/-- The result of `reg_alloc` for an answer of the table. -/
def resultOf : Option Nat → Int
  | some index => index
  | none => -1

/-- The state is the one of a table that has served `requests`. -/
structure Tracks (table : List (Slot U8)) (requests : List U8) (state : RegallocState) : Prop where
  length : state.takenGp.length = x86GpCount + 2
  service : ∃ service : Service U8, service.Served table requests ∧ service.full = state.full ∧
    (state.full = false → service.table = state.searched)

section Tracking

variable {table : List (Slot U8)} {requests ids : List U8} {state : RegallocState} {armRegId : U8}

theorem slotOf_eq_free {taken : U8} : slotOf taken = .free ↔ taken = 0 := by
  unfold slotOf
  split
  · simp_all
  · split <;> simp_all

theorem slotOf_eq_taken {taken : U8} (small : armRegId.toNat ≤ 32) :
    slotOf taken = .taken armRegId ↔ taken = armRegId + 1 := by
  have nonzero : armRegId + 1 ≠ 0 := by bv_omega
  have unreserved : armRegId + 1 ≠ 0xFF := by bv_omega
  unfold slotOf
  split
  · rename_i zero
    exact iff_of_false nofun fun same => nonzero (same.symm.trans zero)
  · split
    · rename_i reserved
      exact iff_of_false nofun fun same => unreserved (same.symm.trans reserved)
    · simp only [Slot.taken.injEq]
      constructor <;> intro same <;> bv_omega

theorem slotOf_succ (small : armRegId.toNat ≤ 32) : slotOf (armRegId + 1) = .taken armRegId :=
  (slotOf_eq_taken small).mpr rfl

/-- The search loop claims in the table behind the bytes. -/
theorem claim_searched (small : armRegId.toNat ≤ 32) (takenGp : List U8) :
    claim armRegId (takenGp.map slotOf) =
      (regSearch (armRegId + 1) takenGp).map fun (i, rest) => (i, rest.map slotOf) := by
  induction takenGp with
  | nil => rfl
  | cons taken rest ih =>
      simp only [List.map_cons, claim, regSearch, slotOf_eq_taken small, slotOf_eq_free]
      split
      · rfl
      · split
        · simp only [Option.map_some, List.map_cons, slotOf_succ small]
        · rw [ih]
          simp [Function.comp_def]

theorem regSearch_length {takenGp rest : List U8} {i : Nat}
    (found : regSearch armRegId takenGp = some (i, rest)) : rest.length = takenGp.length := by
  induction takenGp generalizing i rest with
  | nil => cases found
  | cons taken tail ih =>
      simp only [regSearch] at found
      split at found
      · cases found; rfl
      · split at found
        · cases found; rfl
        · obtain ⟨⟨j, inner⟩, search, same⟩ := Option.map_eq_some_iff.mp found
          cases same
          simp [ih search]

theorem initial_tracks : Tracks initialTable [] regallocInitial :=
  ⟨rfl, ⟨initialTable, false⟩, .fresh (by decide), rfl, fun _ => by decide⟩

theorem reset_tracks (state : RegallocState) : Tracks resetTable [] (regReset state) :=
  ⟨rfl, ⟨resetTable, false⟩, .fresh (by decide), rfl, fun _ => by
    change resetTable = (regReset regallocInitial).searched
    decide⟩

/-- One call answers as the table does, and goes on tracking it. -/
theorem Tracks.alloc (tracks : Tracks table requests state) (small : armRegId.toNat ≤ 32) :
    (regAlloc state armRegId).1 = resultOf (answer table requests armRegId) ∧
      Tracks table (requests ++ [armRegId]) (regAlloc state armRegId).2 := by
  obtain ⟨length, service, served, fullSame, tableSame⟩ := tracks
  obtain ⟨answered, next⟩ := served.serve armRegId
  cases full : state.full with
  | true =>
      rw [Service.serve_closed (fullSame.trans full)] at answered next
      rw [← answered]
      simp only [regAlloc, full, if_true]
      exact ⟨rfl, length, service, next, fullSame, tableSame⟩
  | false =>
      have opened : service.full = false := fullSame.trans full
      have claimed := claim_searched small (state.takenGp.take x86GpCount)
      change claim armRegId state.searched = _ at claimed
      rw [← tableSame full] at claimed
      simp only [regAlloc, full, Bool.false_eq_true, if_false]
      cases search : regSearch (armRegId + 1) (state.takenGp.take x86GpCount) with
      | some found =>
          obtain ⟨i, searched⟩ := found
          have width : searched.length = x86GpCount := by
            rw [regSearch_length search, List.length_take, length]
            rfl
          rw [search, Option.map_some] at claimed
          rw [Service.serve_granted opened claimed] at answered next
          rw [← answered]
          refine ⟨rfl, ?_, _, next, rfl, fun _ => ?_⟩
          · simp only [List.length_append, width, List.length_drop, length]
            rfl
          · simp only [RegallocState.searched, ← width, List.take_left]
      | none =>
          rw [search, Option.map_none] at claimed
          rw [Service.serve_refused opened claimed] at answered next
          rw [← answered]
          refine ⟨rfl, ?_, _, next, rfl, nofun⟩
          dsimp only
          split
          · simpa using length
          · split
            · simpa using length
            · exact length

theorem Tracks.allocs (ids : List U8) (tracks : Tracks table requests state)
    (small : ∀ id ∈ ids, id.toNat ≤ 32) :
    Tracks table (requests ++ ids) (regRun state (ids.map .alloc)) := by
  induction ids generalizing requests state with
  | nil => simpa [regRun] using tracks
  | cons id ids ih =>
      have next := ih (tracks.alloc (small id List.mem_cons_self)).2
        fun id member => small id (List.mem_cons_of_mem _ member)
      rwa [List.append_assoc] at next

end Tracking

/-- The table that the last reset of a history, or else the program's start, left, and
the ids asked for since. -/
def stretch : List RegOp → List (Slot U8) × List U8 → List (Slot U8) × List U8
  | [], current => current
  | .alloc armRegId :: rest, (table, ids) => stretch rest (table, ids ++ [armRegId])
  | .reset :: rest, _ => stretch rest (resetTable, [])

theorem Tracks.run {history : List RegOp} {table : List (Slot U8)} {ids : List U8}
    {state : RegallocState} (tracks : Tracks table ids state) (small : IdsWithin 32 history) :
    Tracks (stretch history (table, ids)).1 (stretch history (table, ids)).2 (regRun state history) := by
  induction history generalizing table ids state with
  | nil => exact tracks
  | cons op rest ih =>
      have later : IdsWithin 32 rest := fun op member => small op (List.mem_cons_of_mem _ member)
      cases op with
      | alloc armRegId => exact ih (tracks.alloc (small _ List.mem_cons_self)).2 later
      | reset => exact ih (reset_tracks state) later

end Koshka
