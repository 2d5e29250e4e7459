import Koshka.Imlgen.Arena

namespace Koshka.Iml

open Data

/-- Nothing was moved, and no expression was changed. -/
structure Keeps (before after : List Stored) : Prop where
  sizes : before.map Stored.size <+: after.map Stored.size
  expressions : ∀ (index : Nat) (expr : Expression), before[index]? = some (.expression expr) →
    after[index]? = some (.expression expr)

def arenaBefore (env : Environment) (plans : List Plan) (arena : Arena) (index : Nat) : Arena :=
  (plans.take index).foldl (fun arena plan => (plan.store env arena).2) arena

section Keeps

variable {first second third objects : List Stored} {arena : Arena} {index : Nat} {next : PoolHandle}

theorem Keeps.of_extends (extends_ : first <+: second) : Keeps first second where
  sizes := by
    obtain ⟨rest, rfl⟩ := extends_
    rw [List.map_append]
    exact List.prefix_append _ _
  expressions index expr found := by
    obtain ⟨rest, rfl⟩ := extends_
    obtain ⟨bound, _⟩ := List.getElem?_eq_some_iff.mp found
    rwa [List.getElem?_append_left bound]

theorem Keeps.trans (one : Keeps first second) (two : Keeps second third) : Keeps first third where
  sizes := one.sizes.trans two.sizes
  expressions index expr found := two.expressions index expr (one.expressions index expr found)

theorem Keeps.place_eq (keeps : Keeps first second) (bound : index ≤ first.length) :
    place Stored.size second index = place Stored.size first index :=
  place_extends Stored.size keeps.sizes bound

theorem Keeps.used_le {final : Arena} (keeps : Keeps arena.objects final.objects) :
    arena.used ≤ final.used := by
  obtain ⟨rest, whole⟩ := keeps.sizes
  rw [Arena.used, Arena.used, ← whole, List.sum_append]
  exact Nat.le_add_right _ _

theorem Arena.link_keeps : Keeps arena.objects (arena.link index next).objects := by
  unfold Arena.link
  split
  · rename_i instr found
    obtain ⟨bound, stored⟩ := List.getElem?_eq_some_iff.mp found
    refine ⟨?_, fun other expr there => ?_⟩
    · have same : Stored.size (.instruction { instr with next }) = Stored.size arena.objects[index] := by
        rw [stored]
        rfl
      have sizes := map_size_set Stored.size bound same
      exact sizes ▸ List.prefix_refl _
    · have apart : index ≠ other := by
        intro equal
        subst equal
        rw [found] at there
        cases there
      rw [List.getElem?_set_ne apart]
      exact there
  · exact .of_extends (List.prefix_refl _)

end Keeps

section Layout

variable {env : Environment} {arena : Arena} {plans : List Plan} {index : Nat} {planned : Plan}

theorem Arena.link_other {other : Nat} {next : PoolHandle} (apart : index ≠ other) :
    (arena.link index next).objects[other]? = arena.objects[other]? := by
  unfold Arena.link
  split
  · rw [List.getElem?_set_ne apart]
  · rfl

theorem arenaBefore_zero : arenaBefore env plans arena 0 = arena := rfl

theorem arenaBefore_succ : arenaBefore env (planned :: plans) arena (index + 1) =
    arenaBefore env plans (planned.store env arena).2 index := by
  rw [arenaBefore, List.take_succ_cons, List.foldl_cons, arenaBefore]

/-- Where the instruction of one plan is in the end, and what it has become: its `next`
is the handle of the following one. -/
structure Laid (env : Environment) (plans : List Plan) (arena : Arena) (index : Nat)
    (instr : Instruction × Arena) :
    Prop where
  handle : (layPlans env plans arena).1[index]? = some (BitVec.ofNat 32
    (place Stored.size (layPlans env plans arena).2.objects instr.2.objects.length))
  stored : (layPlans env plans arena).2.objects[instr.2.objects.length]? = some (.instruction
    { instr.1 with next := (layPlans env plans arena).1[index + 1]?.getD instr.1.next })
  keeps : Keeps instr.2.objects (layPlans env plans arena).2.objects
  behind : arena.objects.length ≤ instr.2.objects.length

theorem layPlans_laid (placed : Placed env plans arena) (found : plans[index]? = some planned) :
    Laid env plans arena index (planned.lay env (arenaBefore env plans arena index)) := by
  induction plans generalizing arena index with
  | nil => cases found
  | cons first plans ih =>
      obtain ⟨granted, placed⟩ := placed
      have tree : arena.objects <+: (first.lay env arena).2.objects := Tree.lay_extends first.tree
      have width := Plan.store_length granted
      have later : (first.store env arena).2.objects <+:
          (layPlans env plans (first.store env arena).2).2.objects := layPlans_extends plans
      obtain ⟨stored, address⟩ := Plan.store_found granted later
      have linked : ∀ other, other ≤ (layPlans env plans (first.store env arena).2).2.objects.length →
          place Stored.size (layPlans env (first :: plans) arena).2.objects other =
            place Stored.size (layPlans env plans (first.store env arena).2).2.objects other :=
        fun other bound => Keeps.place_eq Arena.link_keeps bound
      have kept : Keeps (first.store env arena).2.objects (layPlans env (first :: plans) arena).2.objects :=
        (Keeps.of_extends (layPlans_extends plans)).trans Arena.link_keeps
      have inside := tree.length_le
      cases index with
      | zero =>
          simp only [List.getElem?_cons_zero, Option.some.injEq] at found
          subst found
          obtain ⟨bound, _⟩ := List.getElem?_eq_some_iff.mp stored
          rw [arenaBefore_zero]
          refine ⟨?_, ?_, (Keeps.of_extends (Arena.push_extends _)).trans kept, inside⟩
          · rw [linked _ (Nat.le_of_lt bound)]
            exact congrArg some address
          · have head : (layPlans env (first :: plans) arena).1[0 + 1]? =
                (layPlans env plans (first.store env arena).2).1.head? := List.head?_eq_getElem?.symm
            rw [head, ← List.headD_eq_head?_getD, layPlans, Arena.link_found stored]
            exact List.getElem?_set_self bound
      | succ index =>
          rw [arenaBefore_succ]
          obtain ⟨address, stored, keeps, behind⟩ := ih placed found
          obtain ⟨bound, _⟩ := List.getElem?_eq_some_iff.mp stored
          refine ⟨?_, (Arena.link_other (by omega)).trans stored, keeps.trans Arena.link_keeps, by omega⟩
          rw [linked _ (Nat.le_of_lt bound)]
          exact address

theorem layPlans_length : (layPlans env plans arena).1.length = plans.length := by
  induction plans generalizing arena with
  | nil => rfl
  | cons first plans ih => exact congrArg (· + 1) ih

theorem layPlans_getElem? {handle : PoolHandle}
    (found : (layPlans env plans arena).1[index]? = some handle) :
    ∃ planned, plans[index]? = some planned := by
  obtain ⟨bound, _⟩ := List.getElem?_eq_some_iff.mp found
  rw [layPlans_length] at bound
  exact ⟨_, List.getElem?_eq_getElem bound⟩

theorem Arena.link_used {next : PoolHandle} : (arena.link index next).used = arena.used := by
  rw [used_eq_place, used_eq_place]
  have keeps : Keeps arena.objects (arena.link index next).objects := Arena.link_keeps
  have width : (arena.link index next).objects.length = arena.objects.length := by
    unfold Arena.link
    split
    · exact List.length_set
    · rfl
  rw [width, keeps.place_eq (Nat.le_refl _)]

/-- While the places stay inside `u32`, later instructions have larger handles. -/
theorem layPlans_increasing (placed : Placed env plans arena)
    (inside : (layPlans env plans arena).2.used < 2 ^ 32) :
    (layPlans env plans arena).1.Pairwise (· < ·) := by
  induction plans generalizing arena with
  | nil => exact List.Pairwise.nil
  | cons first plans ih =>
      obtain ⟨granted, placed⟩ := placed
      have width := Plan.store_length granted
      have later : (first.store env arena).2.objects <+:
          (layPlans env plans (first.store env arena).2).2.objects := layPlans_extends plans
      obtain ⟨stored, address⟩ := Plan.store_found granted later
      rw [layPlans, Arena.link_used] at inside
      refine List.Pairwise.cons (fun handle member => ?_) (ih placed inside)
      obtain ⟨place, found⟩ := List.mem_iff_getElem?.mp member
      obtain ⟨planned, there⟩ := layPlans_getElem? found
      have laid := layPlans_laid placed there
      have behind := laid.behind
      obtain ⟨bound, _⟩ := List.getElem?_eq_some_iff.mp stored
      obtain ⟨otherBound, _⟩ := List.getElem?_eq_some_iff.mp laid.stored
      have apart := place_lt Stored.size bound (Stored.size_positive _) (Nat.lt_of_lt_of_le
        (Nat.lt_of_lt_of_eq (Nat.lt_succ_self _) width.symm) behind)
      have limit := Arena.place_le_used (Nat.le_of_lt otherBound)
      change (first.store env arena).1 < handle
      rw [address, Option.some.inj (found.symm.trans laid.handle), BitVec.lt_def,
        BitVec.toNat_ofNat, BitVec.toNat_ofNat, Nat.mod_eq_of_lt (by omega), Nat.mod_eq_of_lt (by omega)]
      exact apart

end Layout

end Koshka.Iml
