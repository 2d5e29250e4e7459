import Mathlib.Data.List.Induction
import Mathlib.Data.List.Nodup

namespace Koshka.Data

/-! A table whose free slots are handed out first come, first served.

A key that asks again gets its own slot back; a new key gets the first slot that is
still free.  Once a new key finds none, the table is closed, and refuses every later
request.  The list of distinct keys, in the order of their first requests, says all
there is to know about the table.
-/

inductive Slot (κ : Type) where
  | free
  | reserved
  | taken (key : κ)
deriving Repr, DecidableEq

section Table

variable {κ : Type} [DecidableEq κ]

/-- The first slot that is taken by `key` already, or free. -/
def claim (key : κ) : List (Slot κ) → Option (Nat × List (Slot κ))
  | [] => none
  | slot :: slots =>
      if slot = .taken key then some (0, slot :: slots)
      else if slot = .free then some (0, .taken key :: slots)
      else (claim key slots).map fun (index, rest) => (index + 1, slot :: rest)

omit [DecidableEq κ] in
/-- Give the free slots of a table to `keys`, in order. -/
def fill : List (Slot κ) → List κ → List (Slot κ)
  | [], _ => []
  | .free :: slots, key :: keys => .taken key :: fill slots keys
  | slot :: slots, keys => slot :: fill slots keys

omit [DecidableEq κ] in
def freeSlots : List (Slot κ) → List Nat
  | [] => []
  | .free :: slots => 0 :: (freeSlots slots).map (· + 1)
  | _ :: slots => (freeSlots slots).map (· + 1)

def Vacant (table : List (Slot κ)) : Prop :=
  ∀ slot ∈ table, slot = .free ∨ slot = .reserved

instance (table : List (Slot κ)) : Decidable (Vacant table) :=
  inferInstanceAs (Decidable (∀ slot ∈ table, _))

omit [DecidableEq κ] in
theorem freeSlots_sorted (table : List (Slot κ)) : (freeSlots table).Pairwise (· < ·) := by
  induction table with
  | nil => exact .nil
  | cons slot slots ih =>
      have shifted : ((freeSlots slots).map (· + 1)).Pairwise (· < ·) :=
        List.pairwise_map.mpr (ih.imp Nat.succ_lt_succ)
      cases slot with
      | free => exact .cons (by simp) shifted
      | reserved => exact shifted
      | taken key => exact shifted

omit [DecidableEq κ] in
theorem freeSlots_nodup (table : List (Slot κ)) : (freeSlots table).Nodup :=
  (freeSlots_sorted table).imp Nat.ne_of_lt

/-- Claiming in a table filled with `keys`: an old key finds its slot, a new key the
first one behind them. -/
theorem claim_fill {table : List (Slot κ)} {keys : List κ} (vacant : Vacant table)
    (few : keys.length ≤ (freeSlots table).length) (key : κ) :
    claim key (fill table keys) =
      if key ∈ keys then
        ((freeSlots table)[keys.idxOf key]?).map fun index => (index, fill table keys)
      else
        ((freeSlots table)[keys.length]?).map fun index => (index, fill table (keys ++ [key])) := by
  induction table generalizing keys with
  | nil =>
      have none_ : keys = [] := List.length_eq_zero_iff.mp (Nat.le_zero.mp few)
      subst none_
      rfl
  | cons slot slots ih =>
      have rest : Vacant slots := fun slot member => vacant slot (List.mem_cons_of_mem _ member)
      rcases vacant slot List.mem_cons_self with rfl | rfl
      · cases keys with
        | nil => simp [fill, claim, freeSlots]
        | cons first keys =>
            have fewer : keys.length ≤ (freeSlots slots).length := by
              simpa [freeSlots] using few
            by_cases same : first = key
            · subst same
              simp [fill, claim, freeSlots]
            · have other : key ≠ first := fun equal => same equal.symm
              simp only [fill, claim, Slot.taken.injEq, if_neg same, reduceCtorEq, if_false,
                ih rest fewer, List.mem_cons, other, false_or, List.idxOf_cons_ne _ same,
                freeSlots, List.length_cons, List.getElem?_cons_succ, List.getElem?_map,
                List.cons_append]
              split <;> simp [Function.comp_def]
      · have fewer : keys.length ≤ (freeSlots slots).length := by simpa [freeSlots] using few
        simp only [fill, claim, reduceCtorEq, if_false, ih rest fewer, freeSlots,
          List.getElem?_map]
        split <;> simp [Function.comp_def]

omit [DecidableEq κ] in
theorem mem_fill {table : List (Slot κ)} {keys : List κ} {key : κ} (member : key ∈ keys)
    (few : keys.length ≤ (freeSlots table).length) : Slot.taken key ∈ fill table keys := by
  induction table generalizing keys with
  | nil =>
      cases keys with
      | nil => cases member
      | cons first rest => simp [freeSlots] at few
  | cons slot slots ih =>
      cases slot with
      | free =>
          cases keys with
          | nil => cases member
          | cons first rest =>
              have fewer : rest.length ≤ (freeSlots slots).length := by simpa [freeSlots] using few
              rcases List.mem_cons.mp member with same | later
              · exact List.mem_cons.mpr (Or.inl (congrArg Slot.taken same))
              · exact List.mem_cons_of_mem _ (ih later fewer)
      | reserved => exact List.mem_cons_of_mem _ (ih member (by simpa [freeSlots] using few))
      | taken other => exact List.mem_cons_of_mem _ (ih member (by simpa [freeSlots] using few))

end Table

section Distinct

variable {κ : Type} [DecidableEq κ] {requests more : List κ} {key other : κ}

/-- The distinct keys of a list of requests, in the order of their first requests. -/
def distinct (requests : List κ) : List κ :=
  requests.foldl (fun keys key => if key ∈ keys then keys else keys ++ [key]) []

theorem distinct_snoc : distinct (requests ++ [key]) =
    if key ∈ distinct requests then distinct requests else distinct requests ++ [key] := by
  rw [distinct, List.foldl_append]
  rfl

theorem mem_distinct : key ∈ distinct requests ↔ key ∈ requests := by
  induction requests using List.reverseRecOn with
  | nil => simp [distinct]
  | append_singleton requests last ih =>
      rw [distinct_snoc]
      split
      · rename_i old
        rw [ih, List.mem_append, List.mem_singleton]
        constructor
        · exact Or.inl
        · intro either
          rcases either with member | rfl
          · exact member
          · exact ih.mp old
      · simp [ih]

theorem distinct_nodup : (distinct requests).Nodup := by
  induction requests using List.reverseRecOn with
  | nil => simp [distinct]
  | append_singleton requests last ih =>
      rw [distinct_snoc]
      split
      · exact ih
      · rename_i new
        exact List.nodup_append.mpr ⟨ih, by simp, by
          intro key member last' single
          rw [List.mem_singleton.mp single]
          exact fun same => new (same ▸ member)⟩

theorem distinct_extends (requests more : List κ) :
    distinct requests <+: distinct (requests ++ more) := by
  induction more using List.reverseRecOn with
  | nil => simp
  | append_singleton more last ih =>
      rw [← List.append_assoc, distinct_snoc]
      split
      · exact ih
      · exact ih.trans (List.prefix_append _ _)

theorem distinct_length_le (requests more : List κ) :
    (distinct requests).length ≤ (distinct (requests ++ more)).length :=
  (distinct_extends requests more).length_le

theorem idxOf_distinct_append (more : List κ) (member : key ∈ requests) :
    (distinct (requests ++ more)).idxOf key = (distinct requests).idxOf key := by
  obtain ⟨rest, whole⟩ := distinct_extends requests more
  rw [← whole, List.idxOf_append_of_mem (mem_distinct.mpr member)]

/-- The first request of the key at a place of the list of distinct keys. -/
theorem first_request {place : Nat} (found : (distinct requests)[place]? = some key) :
    ∃ before after, requests = before ++ key :: after ∧ (distinct before).length = place ∧
      (distinct (before ++ [key])).idxOf key = place := by
  obtain ⟨before, after, split, new⟩ :=
    List.eq_append_cons_of_mem (mem_distinct.mp (List.mem_of_getElem? found))
  have whole : requests = before ++ [key] ++ after := by rw [split]; simp
  have here : (distinct (before ++ [key])).idxOf key = place := by
    obtain ⟨bound, get⟩ := List.getElem?_eq_some_iff.mp found
    rw [← idxOf_distinct_append after (by simp), ← whole, ← get]
    exact distinct_nodup.idxOf_getElem place bound
  refine ⟨before, after, split, ?_, here⟩
  rw [← here, distinct_snoc, if_neg (fun member => new (mem_distinct.mp member)),
    List.idxOf_append_of_notMem (fun member => new (mem_distinct.mp member)),
    List.idxOf_cons_self, Nat.add_zero]

end Distinct

section Service

variable {κ : Type} [DecidableEq κ]

structure Service (κ : Type) where
  table : List (Slot κ)
  full : Bool

def Service.serve (service : Service κ) (key : κ) : Option Nat × Service κ :=
  if service.full then (none, service)
  else
    match claim key service.table with
    | some (index, table) => (some index, { service with table })
    | none => (none, { service with full := true })

/-- What a table that starts vacant answers to `key` after `requests`. -/
def answer (table : List (Slot κ)) (requests : List κ) (key : κ) : Option Nat :=
  if (freeSlots table).length < (distinct requests).length then none
  else (freeSlots table)[(distinct (requests ++ [key])).idxOf key]?

variable {table : List (Slot κ)} {requests before after : List κ} {key other : κ} {index : Nat}

theorem answer_none_iff : answer table requests key = none ↔
    (freeSlots table).length < (distinct (requests ++ [key])).length := by
  rw [answer]
  by_cases exceeded : (freeSlots table).length < (distinct requests).length
  · rw [if_pos exceeded]
    exact iff_of_true rfl (Nat.lt_of_lt_of_le exceeded (distinct_length_le requests [key]))
  · rw [if_neg exceeded, List.getElem?_eq_none_iff, distinct_snoc]
    split
    · rename_i old
      have inside := List.idxOf_lt_length_of_mem old
      exact iff_of_false (by omega) exceeded
    · rename_i new
      rw [List.idxOf_append_of_notMem new, List.idxOf_cons_self, Nat.add_zero, List.length_append,
        List.length_singleton, Nat.lt_succ_iff]

/-- What is left of a vacant table after `requests`. -/
structure Service.Served (table : List (Slot κ)) (requests : List κ) (service : Service κ) : Prop where
  vacant : Vacant table
  closed : (freeSlots table).length < (distinct requests).length → service.full = true
  opened : (distinct requests).length ≤ (freeSlots table).length →
    service.full = false ∧ service.table = fill table (distinct requests)

omit [DecidableEq κ] in
theorem fill_nil : fill table ([] : List κ) = table := by
  induction table with
  | nil => rfl
  | cons slot slots ih => cases slot <;> simp [fill, ih]

theorem Service.Served.fresh (vacant : Vacant table) :
    Service.Served table [] ⟨table, false⟩ :=
  ⟨vacant, fun exceeded => absurd exceeded (by simp [distinct]), fun _ => ⟨rfl, fill_nil.symm⟩⟩

theorem Service.serve_closed {service : Service κ} (closed : service.full = true) :
    service.serve key = (none, service) := by
  simp [serve, closed]

theorem Service.serve_granted {service : Service κ} {rest : List (Slot κ)}
    (opened : service.full = false) (granted : claim key service.table = some (index, rest)) :
    service.serve key = (some index, ⟨rest, false⟩) := by
  simp [serve, opened, granted]

theorem Service.serve_refused {service : Service κ} (opened : service.full = false)
    (refused : claim key service.table = none) :
    service.serve key = (none, ⟨service.table, true⟩) := by
  simp [serve, opened, refused]

/-- One request is answered as the list of distinct keys says, and leaves the table as
the longer list says. -/
theorem Service.Served.serve {service : Service κ} (served : service.Served table requests) (key : κ) :
    (service.serve key).1 = answer table requests key ∧
      (service.serve key).2.Served table (requests ++ [key]) := by
  by_cases exceeded : (freeSlots table).length < (distinct requests).length
  · have closed := served.closed exceeded
    have longer := distinct_length_le requests [key]
    rw [serve_closed closed, answer, if_pos exceeded]
    exact ⟨rfl, served.vacant, fun _ => closed, fun few => by omega⟩
  · obtain ⟨opened, filled⟩ := served.opened (Nat.le_of_not_lt exceeded)
    have claimed := claim_fill served.vacant (Nat.le_of_not_lt exceeded) key
    rw [← filled] at claimed
    rw [answer, if_neg exceeded]
    by_cases old : key ∈ distinct requests
    · -- an old key finds its slot, and nothing changes
      have inside : (distinct requests).idxOf key < (freeSlots table).length :=
        Nat.lt_of_lt_of_le (List.idxOf_lt_length_of_mem old) (Nat.le_of_not_lt exceeded)
      have same : distinct (requests ++ [key]) = distinct requests := by
        rw [distinct_snoc, if_pos old]
      rw [if_pos old, List.getElem?_eq_getElem inside, Option.map_some] at claimed
      rw [serve_granted opened claimed, same, List.getElem?_eq_getElem inside]
      exact ⟨rfl, served.vacant, fun more => absurd (same ▸ more) exceeded,
        fun _ => ⟨rfl, by rw [same]; exact filled⟩⟩
    · -- a new key takes the first free slot, or closes the table
      have longer : distinct (requests ++ [key]) = distinct requests ++ [key] := by
        rw [distinct_snoc, if_neg old]
      have count : (distinct (requests ++ [key])).length = (distinct requests).length + 1 := by
        rw [longer, List.length_append, List.length_singleton]
      have place : (distinct (requests ++ [key])).idxOf key = (distinct requests).length := by
        rw [longer, List.idxOf_append_of_notMem old, List.idxOf_cons_self, Nat.add_zero]
      rw [if_neg old] at claimed
      rw [place]
      by_cases room : (distinct requests).length < (freeSlots table).length
      · rw [List.getElem?_eq_getElem room, Option.map_some] at claimed
        rw [serve_granted opened claimed, List.getElem?_eq_getElem room]
        exact ⟨rfl, served.vacant, fun exceeded => by omega, fun _ => ⟨rfl, by rw [longer]⟩⟩
      · rw [List.getElem?_eq_none (Nat.le_of_not_lt room), Option.map_none] at claimed
        rw [serve_refused opened claimed, List.getElem?_eq_none (Nat.le_of_not_lt room)]
        exact ⟨rfl, served.vacant, fun _ => rfl, fun few => by omega⟩

/-- Every answered key has its place among the distinct keys, and got the slot of that
place. -/
theorem answer_eq_some_iff : answer table requests key = some index ↔
    (distinct requests).length ≤ (freeSlots table).length ∧
      (freeSlots table)[(distinct (requests ++ [key])).idxOf key]? = some index := by
  rw [answer]
  split
  · rename_i exceeded
    exact iff_of_false nofun fun few => absurd few.1 (Nat.not_le.mpr exceeded)
  · rename_i enough
    exact ⟨fun found => ⟨Nat.le_of_not_lt enough, found⟩, And.right⟩

/-- A key that was answered once gets the same answer until the table closes, and none
after that. -/
theorem answer_again (first : answer table before key = some index) :
    answer table (before ++ key :: after) key = some index ↔
      (distinct (before ++ key :: after)).length ≤ (freeSlots table).length := by
  have split : before ++ key :: after = before ++ [key] ++ after := by simp
  have found := (answer_eq_some_iff.mp first).2
  rw [answer_eq_some_iff, split, List.append_assoc _ after, idxOf_distinct_append _ (by simp)]
  exact and_iff_left found

/-- Two answered keys share a slot exactly when they are one key. -/
theorem answer_inj {left right : Nat} (first : answer table before key = some left)
    (second : answer table (before ++ key :: after) other = some right) :
    left = right ↔ key = other := by
  have split : before ++ key :: after ++ [other] = before ++ [key] ++ (after ++ [other]) := by simp
  have foundLeft := (answer_eq_some_iff.mp first).2
  have foundRight := (answer_eq_some_iff.mp second).2
  rw [← idxOf_distinct_append (after ++ [other]) (by simp), ← split] at foundLeft
  have member : key ∈ distinct (before ++ key :: after ++ [other]) := mem_distinct.mpr (by simp)
  constructor
  · intro equal
    subst equal
    obtain ⟨bound, _⟩ := List.getElem?_eq_some_iff.mp foundLeft
    have places := (List.getElem?_inj bound (freeSlots_nodup table)).mp
      (foundLeft.trans foundRight.symm)
    exact (List.idxOf_inj member).mp places
  · intro equal
    subst equal
    exact Option.some.inj (foundLeft.symm.trans foundRight)

/-- Something holds of every answer of a run exactly when it holds of every free slot
and the key at the same place among the distinct keys. -/
theorem answers_iff (property : Nat → κ → Prop) :
    (∀ before key after index, requests = before ++ key :: after →
        answer table before key = some index → property index key) ↔
      ∀ (place index : Nat) (key : κ), (freeSlots table)[place]? = some index →
        (distinct requests)[place]? = some key → property index key := by
  constructor
  · intro answers place index key slot found
    -- the first request of the key is the one that is answered with this slot
    obtain ⟨before, after, split, behind, here⟩ := first_request found
    refine answers before key after index split (answer_eq_some_iff.mpr ⟨?_, by rw [here]; exact slot⟩)
    obtain ⟨bound, _⟩ := List.getElem?_eq_some_iff.mp slot
    omega
  · intro places before key after index split answered
    obtain ⟨_, slot⟩ := answer_eq_some_iff.mp answered
    refine places _ index key slot ?_
    have whole : requests = before ++ [key] ++ after := by rw [split]; simp
    have member : key ∈ distinct requests := mem_distinct.mpr (by rw [whole]; simp)
    rw [← idxOf_distinct_append after (by simp), ← whole]
    exact List.getElem?_idxOf member

theorem answer_first {place : Nat} (behind : (distinct before).length = place)
    (here : (distinct (before ++ [key])).idxOf key = place) (room : place ≤ (freeSlots table).length) :
    answer table before key = (freeSlots table)[place]? := by
  rw [answer, if_neg (by omega), here]

/-- Two tables answer a run of requests alike exactly when their free slots agree at the
place of every distinct key. -/
theorem answers_agree_iff {left right : List (Slot κ)} :
    (∀ before key after, requests = before ++ key :: after →
        answer left before key = answer right before key) ↔
      ∀ place < (distinct requests).length, (freeSlots left)[place]? = (freeSlots right)[place]? := by
  constructor
  · intro agree
    have reached : ∀ place < (distinct requests).length, place ≤ (freeSlots left).length →
        place ≤ (freeSlots right).length → (freeSlots left)[place]? = (freeSlots right)[place]? := by
      intro place bound inLeft inRight
      obtain ⟨before, after, split, behind, here⟩ := first_request (List.getElem?_eq_getElem bound)
      rw [← answer_first behind here inLeft, ← answer_first behind here inRight]
      exact agree before _ after split
    intro place bound
    -- behind the end of the shorter list, both have ended
    rcases Nat.le_total (freeSlots left).length (freeSlots right).length with le | le
    · by_cases inLeft : place ≤ (freeSlots left).length
      · exact reached place bound inLeft (Nat.le_trans inLeft le)
      · have ends := reached _ (by omega) (Nat.le_refl _) le
        rw [List.getElem?_eq_none (Nat.le_refl _)] at ends
        have length := List.getElem?_eq_none_iff.mp ends.symm
        rw [List.getElem?_eq_none (by omega), List.getElem?_eq_none (by omega)]
    · by_cases inRight : place ≤ (freeSlots right).length
      · exact reached place bound (Nat.le_trans inRight le) inRight
      · have ends := reached _ (by omega) le (Nat.le_refl _)
        rw [List.getElem?_eq_none (Nat.le_refl (freeSlots right).length)] at ends
        have length := List.getElem?_eq_none_iff.mp ends
        rw [List.getElem?_eq_none (by omega), List.getElem?_eq_none (by omega)]
  · intro same before key after split
    have fewer : (distinct before).length ≤ (distinct requests).length := by
      rw [split]
      exact distinct_length_le before (key :: after)
    have place : (distinct (before ++ [key])).idxOf key < (distinct requests).length := by
      have longer := distinct_length_le (before ++ [key]) after
      rw [List.append_assoc, List.singleton_append, ← split] at longer
      have old : key ∈ distinct (before ++ [key]) := mem_distinct.mpr (by simp)
      exact Nat.lt_of_lt_of_le (List.idxOf_lt_length_of_mem old) longer
    have sizes : (freeSlots left).length = (freeSlots right).length ∨
        (distinct requests).length ≤ (freeSlots left).length ∧
          (distinct requests).length ≤ (freeSlots right).length := by
      by_contra differ
      rcases Nat.lt_trichotomy (freeSlots left).length (freeSlots right).length with less | equal | less
      · have ends := same (freeSlots left).length (by omega)
        rw [List.getElem?_eq_none (Nat.le_refl _)] at ends
        exact absurd (List.getElem?_eq_none_iff.mp ends.symm) (by omega)
      · exact differ (Or.inl equal)
      · have ends := same (freeSlots right).length (by omega)
        rw [List.getElem?_eq_none (Nat.le_refl (freeSlots right).length)] at ends
        exact absurd (List.getElem?_eq_none_iff.mp ends) (by omega)
    rw [answer, answer, same _ place]
    rcases sizes with equal | room
    · rw [equal]
    · rw [if_neg (by omega), if_neg (by omega)]

end Service

end Koshka.Data
