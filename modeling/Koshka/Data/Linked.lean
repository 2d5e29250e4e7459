import Mathlib.Tactic.Common

namespace Koshka.Data

/-! Programs whose instructions are linked, each to the next one.

A run follows the links and executes what it finds there.  Where the instructions at some addresses
do what the items of a list say, a run along them does what the list says.
-/

section Linked

variable {α ι κ σ : Type} {fetch : α → Option (ι × α)} {execute : ι → σ → Option σ}

/-- Execute `count` instructions, from the one at the address on. -/
def runLinked (fetch : α → Option (ι × α)) (execute : ι → σ → Option σ) : Nat → α → σ → Option σ
  | 0, _, state => some state
  | count + 1, address, state => do
      let (instr, next) ← fetch address
      let state ← execute instr state
      runLinked fetch execute count next state

/-- An instruction at the address does what the item says, and leads to `next`. -/
def Implements (fetch : α → Option (ι × α)) (execute : ι → σ → Option σ) (effect : κ → σ → σ)
    (address : α) (item : κ) (next : Option α) : Prop :=
  ∃ instr target, fetch address = some (instr, target) ∧
    (∀ state, execute instr state = some (effect item state)) ∧
    ∀ expected, next = some expected → target = expected

/-- The items are implemented at the addresses, which are linked in their order. -/
def ImplementsAll (fetch : α → Option (ι × α)) (execute : ι → σ → Option σ) (effect : κ → σ → σ)
    (addresses : List α) (items : List κ) : Prop :=
  ∀ (index : Nat) (address : α) (item : κ), addresses[index]? = some address →
    items[index]? = some item →
    Implements fetch execute effect address item addresses[index + 1]?

variable {effect : κ → σ → σ} {addresses : List α} {items : List κ} {index count : Nat} {address : α}

theorem runLinked_effects (length : addresses.length = items.length)
    (implements : ImplementsAll fetch execute effect addresses items)
    (start : addresses[index]? = some address) (inside : index + count ≤ items.length) (state : σ) :
    runLinked fetch execute count address state =
      some (((items.drop index).take count).foldl (fun state item => effect item state) state) := by
  induction count generalizing index address state with
  | zero => rfl
  | succ count ih =>
      have bound : index < items.length := by omega
      obtain ⟨instr, target, found, executes, linked⟩ :=
        implements index address items[index] start (List.getElem?_eq_getElem bound)
      have first : (items.drop index).take (count + 1) =
          items[index] :: (items.drop (index + 1)).take count := by
        rw [List.drop_eq_getElem_cons bound, List.take_succ_cons]
      rw [runLinked, found, first, List.foldl_cons]
      simp only [Option.bind_eq_bind, Option.bind_some, executes]
      -- the last link of a run is not followed
      cases count with
      | zero => rfl
      | succ count =>
          have next : index + 1 < addresses.length := by omega
          have successor : addresses[index + 1]? = some addresses[index + 1] :=
            List.getElem?_eq_getElem next
          rw [linked addresses[index + 1] successor]
          exact ih successor (by omega) _

end Linked

end Koshka.Data
