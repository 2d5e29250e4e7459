import Mathlib.Data.List.Nodup
import Koshka.Imlgen.Failures
import Koshka.Imlgen.Outcome

namespace Koshka.Iml

open Data

/-! Who refers to what in the IML pool.

Every handle that a push returns is stored exactly once: in the node that the pushed operand belongs to,
or in the instruction before.  What is referred to is counted against what is stored, and both
sides are carried through the layout: a push that is refused loses an object, with its references, and
leaves a reference to nothing behind.
-/

/-- The handles at which the objects lie. -/
def handlesOf (objects : List Stored) : List PoolHandle :=
  (List.range objects.length).map fun index => BitVec.ofNat 32 (place Stored.size objects index)

/-- All handles that the objects keep. -/
def references (objects : List Stored) : List PoolHandle := objects.flatMap Stored.handles

def Instruction.operands (instr : Instruction) : List PoolHandle :=
  match instr.payload with
  | .math math => math.expr.handles
  | .branch _ => []

/-- The object, if its push is refused. -/
def Arena.lost (env : Environment) (arena : Arena) (object : Stored) : List Stored :=
  if arena.grants env object.size then [] else [object]

/-- The expressions whose push is refused. -/
def Tree.lost (env : Environment) : Tree → Arena → List Stored
  | .value _, _ => []
  | .blank, _ => []
  | .node _ left right, arena =>
      let leftLaid := left.lay env arena
      let rightLaid := right.lay env leftLaid.2
      let pushed := (rightLaid.2.push env (.expression leftLaid.1)).2
      left.lost env arena ++ right.lost env leftLaid.2 ++
        rightLaid.2.lost env (.expression leftLaid.1) ++ pushed.lost env (.expression rightLaid.1)

def lostAll (env : Environment) : List Plan → Arena → List Stored
  | [], _ => []
  | plan :: plans, arena => plan.tree.lost env arena ++ lostAll env plans (plan.store env arena).2

def Tree.blanks : Tree → Nat
  | .value _ => 0
  | .blank => 1
  | .node _ left right => left.blanks + right.blanks

/-- The references of blank operands, two for each. -/
def Plan.unset (plan : Plan) : Nat :=
  match plan.instr.payload with
  | .math _ => 2 * plan.tree.blanks
  | .branch _ => 0

/-- What has come to the pool refers to what has come to it, each to each, but for the roots, which refer to it
from outside, the references that are unset, and those that are lost. -/
structure Owns (before after : Arena) (lost : List Stored) (roots : List PoolHandle) (unset : Nat) : Prop where
  owned : ∀ handle, (references after.objects).count handle + (references lost).count handle +
      roots.count handle + (handlesOf before.objects).count handle =
    (references before.objects).count handle + (handlesOf after.objects).count handle +
      (List.replicate unset (0 : PoolHandle)).count handle +
      (List.replicate lost.length poolInvalidHandle).count handle

section Owns

variable {env : Environment} {before middle after arena : Arena} {lost more : List Stored}
  {roots others : List PoolHandle} {unset rest : Nat} {object : Stored} {instr : Instruction}
  {objects same : List Stored} {index : Nat} {next : PoolHandle}

theorem handlesOf_concat : handlesOf (objects ++ [object]) =
    handlesOf objects ++ [BitVec.ofNat 32 (place Stored.size objects objects.length)] := by
  rw [handlesOf, List.length_append, List.length_singleton, List.range_succ, List.map_append, List.map_singleton,
    place_append_left]
  congr 1
  refine List.map_congr_left fun index member => ?_
  rw [place_extends Stored.size (by simp) (Nat.le_of_lt (List.mem_range.mp member))]

theorem handlesOf_congr (sizes : objects.map Stored.size = same.map Stored.size) :
    handlesOf objects = handlesOf same := by
  have length : objects.length = same.length := by simpa using congrArg List.length sizes
  simp only [handlesOf, place_eq_sum, sizes, length]

theorem references_append : references (objects ++ same) = references objects ++ references same :=
  List.flatMap_append

theorem references_singleton : references [object] = object.handles := List.flatMap_singleton ..

theorem Instruction.handles_eq : instr.handles = instr.operands ++ [instr.next] := by
  cases payload : instr.payload <;> simp only [handles, operands, payload, List.nil_append]

theorem Owns.refl : Owns arena arena [] [] 0 := ⟨fun handle => by simp [references]⟩

theorem Owns.trans (one : Owns before middle lost roots unset) (two : Owns middle after more others rest) :
    Owns before after (lost ++ more) (roots ++ others) (unset + rest) := by
  refine ⟨fun handle => ?_⟩
  have first := one.owned handle
  have second := two.owned handle
  rw [references_append, List.length_append, ← List.replicate_append_replicate,
    ← List.replicate_append_replicate]
  simp only [List.count_append]
  omega

theorem Owns.perm (owns : Owns before after lost roots unset) (same : roots.Perm others) :
    Owns before after lost others unset :=
  ⟨fun handle => by rw [← same.count_eq]; exact owns.owned handle⟩

theorem Owns.last (owns : Owns before after lost (next :: roots) unset) :
    Owns before after lost (roots ++ [next]) unset := owns.perm (List.perm_append_singleton next roots).symm

/-- A reference that is not set refers to nothing that has come. -/
theorem Owns.blank (owns : Owns before after lost roots unset) :
    Owns before after lost (0 :: roots) (unset + 1) := by
  refine ⟨fun handle => ?_⟩
  have counted := owns.owned handle
  rw [List.replicate_succ, List.count_cons, List.count_cons]
  omega

theorem Owns.push (env : Environment) (object : Stored)
    (owns : Owns before after lost (object.handles ++ roots) unset) : Owns before (after.push env object).2
      (lost ++ after.lost env object) ((after.push env object).1 :: roots) unset := by
  refine ⟨fun handle => ?_⟩
  have counted := owns.owned handle
  rw [List.count_append] at counted
  rw [Arena.push_objects, Arena.lost]
  cases granted : after.grants env object.size with
  | true =>
      have handed : (after.push env object).1 = after.top := by rw [Arena.push, granted, if_pos rfl]
      rw [if_pos rfl, if_pos rfl, handlesOf_concat, ← after.used_eq_place, handed, List.append_nil]
      simp only [references_append, references_singleton, List.count_append, List.count_cons, List.count_nil,
        Arena.top]
      omega
  | false =>
      have handed : (after.push env object).1 = poolInvalidHandle := by
        rw [Arena.push, granted, if_neg Bool.false_ne_true]
      rw [if_neg Bool.false_ne_true, if_neg Bool.false_ne_true, handed, List.append_nil, List.length_append,
        List.length_singleton, List.replicate_succ]
      simp only [references_append, references_singleton, List.count_append, List.count_cons]
      omega

theorem references_set {old : Stored} (found : objects[index]? = some old) (object : Stored)
    (handle : PoolHandle) :
    (references (objects.set index object)).count handle + old.handles.count handle =
      (references objects).count handle + object.handles.count handle := by
  obtain ⟨bound, rfl⟩ := List.getElem?_eq_some_iff.mp found
  have split : objects = objects.take index ++ objects[index] :: objects.drop (index + 1) := by simp
  have changed := List.set_eq_take_append_cons_drop (l := objects) (i := index) (a := object)
  rw [if_pos bound] at changed
  rw [changed]
  conv => rhs; rw [split]
  simp only [references, List.flatMap_append, List.flatMap_cons, List.count_append]
  omega

/-- An instruction gets the handle of the next one. -/
theorem Owns.link (owns : Owns before after lost (next :: roots) (unset + 1))
    (found : after.objects[index]? = some (.instruction instr)) (free : instr.next = 0) :
    Owns before (after.link index next) lost roots unset := by
  refine ⟨fun handle => ?_⟩
  have counted := owns.owned handle
  obtain ⟨bound, stored⟩ := List.getElem?_eq_some_iff.mp found
  have changed := references_set found (.instruction { instr with next }) handle
  have sizes : (after.objects.set index (.instruction { instr with next })).map Stored.size =
      after.objects.map Stored.size := by
    refine map_size_set Stored.size bound ?_
    rw [stored]
    rfl
  simp only [Stored.handles, Instruction.handles_eq, free, List.count_append] at changed
  rw [Arena.link_found found]
  change (references (after.objects.set index (.instruction { instr with next }))).count handle + _ + _ + _ =
    _ + (handlesOf (after.objects.set index (.instruction { instr with next }))).count handle + _ + _
  rw [handlesOf_congr sizes]
  rw [List.replicate_succ, List.count_cons, List.count_cons] at counted
  simp only [Instruction.operands, List.count_cons, List.count_nil] at changed
  omega

variable {planned : Plan} {plans : List Plan}

theorem Tree.lay_owns (tree : Tree) (arena : Arena) :
    Owns arena (tree.lay env arena).2 (tree.lost env arena) (tree.lay env arena).1.handles (2 * tree.blanks) := by
  induction tree generalizing arena with
  | value operand => exact .refl
  | blank => exact Owns.refl.blank.blank
  | node op left right ihLeft ihRight =>
      have operands := (ihLeft arena).trans (ihRight (left.lay env arena).2)
      rw [← Nat.mul_add] at operands
      have first := operands.push env (.expression (left.lay env arena).1)
      have second := first.last.push env (.expression (right.lay env (left.lay env arena).2).1)
      exact ⟨(second.perm (List.Perm.swap ..)).owned⟩

theorem Plan.store_owns (granted : (planned.lay env arena).2.grants env 48 = true)
    (free : planned.instr.next = 0)
    (bare : ∀ branch, planned.instr.payload = .branch branch → planned.tree = .blank) :
    Owns arena (planned.store env arena).2 (planned.tree.lost env arena) [(planned.store env arena).1]
      (planned.unset + 1) := by
  have kept : (planned.lay env arena).2.lost env (.instruction (planned.lay env arena).1) = [] :=
    if_pos granted
  have operands : Owns arena (planned.lay env arena).2 (planned.tree.lost env arena)
      (planned.lay env arena).1.operands planned.unset := by
    cases payload : planned.instr.payload with
    | math math =>
        have laid : Owns arena (planned.lay env arena).2 (planned.tree.lost env arena)
            (planned.tree.lay env arena).1.handles (2 * planned.tree.blanks) := planned.tree.lay_owns arena
        simpa only [Instruction.operands, Plan.lay_math payload, Plan.unset, payload] using laid
    | branch branch =>
        have tree := bare branch payload
        simp only [Plan.lay, Instruction.withExpr, Instruction.operands, payload, Plan.unset, tree, Tree.lost]
        exact .refl
  have whole : Owns arena (planned.lay env arena).2 (planned.tree.lost env arena)
      ((planned.lay env arena).1.operands ++ [0]) (planned.unset + 1) := operands.blank.last
  have handles : Stored.handles (.instruction (planned.lay env arena).1) ++ [] =
      (planned.lay env arena).1.operands ++ [0] := by
    rw [List.append_nil, Stored.handles, Instruction.handles_eq, Plan.lay_next, free]
  rw [← handles] at whole
  have stored := whole.push env
  rwa [kept, List.append_nil] at stored

/-- No decoder sets `next`, and only instructions without operands are branches. -/
theorem plan_bare {word : U32} (found : plan word = some planned) (branch : InstrBranch)
    (payload : planned.instr.payload = .branch branch) : planned.tree = .blank := by
  cases plan_planned found with
  | addsubImm member => cases payload
  | logicalImm member accepted => cases payload
  | logicalShift member accepted => cases payload
  | addsubShift member accepted => cases payload
  | branchImm member => rfl
  | branchReg member => rfl
  | blank data branch => rfl

theorem layPlans_owns (placed : Placed env (planned :: plans) arena)
    (words : ∀ other ∈ planned :: plans, ∃ word, plan word = some other) :
    Owns arena (layPlans env (planned :: plans) arena).2 (lostAll env (planned :: plans) arena)
      [(planned.store env arena).1] (((planned :: plans).map Plan.unset).sum + 1) := by
  induction plans generalizing planned arena with
  | nil =>
      obtain ⟨granted, -⟩ := placed
      obtain ⟨word, found⟩ := words planned List.mem_cons_self
      have free : (planned.lay env arena).1.next = 0 := Plan.lay_next.trans (plan_next found)
      obtain ⟨stored, -⟩ := Plan.store_found granted (List.prefix_refl _)
      have owns := Plan.store_owns granted (plan_next found) (plan_bare found)
      rw [layPlans, lostAll, lostAll, List.append_nil]
      simp only [layPlans, List.headD_nil, free, List.map_singleton, List.sum_singleton]
      exact owns.blank.link stored free
  | cons second plans ih =>
      obtain ⟨granted, placed⟩ := placed
      obtain ⟨found, later⟩ := List.forall_mem_cons.mp words
      obtain ⟨word, found⟩ := found
      have free : (planned.lay env arena).1.next = 0 := Plan.lay_next.trans (plan_next found)
      have extends_ : (planned.store env arena).2.objects <+:
          (layPlans env (second :: plans) (planned.store env arena).2).2.objects := layPlans_extends _
      obtain ⟨stored, -⟩ := Plan.store_found granted extends_
      have first := Plan.store_owns granted (plan_next found) (plan_bare found)
      have both := (first.trans (ih placed later)).perm (List.Perm.swap ..)
      have unset : planned.unset + 1 + (((second :: plans).map Plan.unset).sum + 1) =
          ((planned :: second :: plans).map Plan.unset).sum + 1 + 1 := by
        simp only [List.map_cons, List.sum_cons]
        omega
      rw [unset] at both
      exact both.link stored free

theorem handlesOf_nodup (inside : arena.used < 2 ^ 32) : (handlesOf arena.objects).Nodup := by
  refine List.nodup_range.map_on fun one first two second same => ?_
  rw [List.mem_range] at first second
  have below (index : Nat) (bound : index < arena.objects.length) :
      place Stored.size arena.objects index < 2 ^ 32 :=
    Nat.lt_of_le_of_lt (Arena.place_le_used (Nat.le_of_lt bound)) inside
  have places := congrArg BitVec.toNat same
  rw [BitVec.toNat_ofNat, BitVec.toNat_ofNat, Nat.mod_eq_of_lt (below one first),
    Nat.mod_eq_of_lt (below two second)] at places
  rcases Nat.lt_trichotomy one two with less | equal | more
  · have apart := place_lt Stored.size first (Stored.size_positive _) less
    omega
  · exact equal
  · have apart := place_lt Stored.size second (Stored.size_positive _) more
    omega

end Owns

/-- The program of a returned run owns every object of its pool once: the handle of the first instruction and
all that the objects keep, those included whose push was refused, are the handles of the objects, and else
0 (for the last `next` and for blank operands) or the invalid handle (for each refused push). -/
theorem imlgen_owned (env : Environment) (fuel : Nat) (code : List U8) (size : U32) (machine : Machine)
    (length : code.length = size.toNat) (run : imlgen env fuel code size = .ok machine) :
    let plans := (wordsOf code).filterMap plan
    let lost := lostAll env plans (.initial size)
    ∃ (objects : List Stored) (first : PoolHandle),
      machine.program.imlPool.Holds (objects.map (image Stored.size)) ∧ (handlesOf objects).Nodup ∧
      .returned 0 first ∈ machine.trace ∧
      (first :: (references objects ++ references lost)).Perm
        (handlesOf objects ++ List.replicate ((plans.map Plan.unset).sum + 1) 0 ++
          List.replicate lost.length poolInvalidHandle) := by
  obtain ⟨plans, planning, nonempty, placed, models, -, traced⟩ := imlgen_models length run
  simp only [filterMap_planned planning]
  cases plans with
  | nil => exact absurd rfl nonempty
  | cons planned plans =>
      have words : ∀ other ∈ planned :: plans, ∃ word, plan word = some other := by
        intro other member
        obtain ⟨index, there⟩ := List.mem_iff_getElem?.mp member
        obtain ⟨word, -, found⟩ := planned_word planning there
        exact ⟨word, found⟩
      have owns := layPlans_owns placed words
      refine ⟨_, (planned.store env (.initial size)).1, models.stored, handlesOf_nodup ?_, ?_, ?_⟩
      · rw [← models.pos.2]
        exact machine.program.imlPool.pos.isLt
      · rw [traced]
        exact returned_mem_callTrace.mpr ⟨0, rfl, (BitVec.add_zero _).symm⟩
      · refine List.perm_iff_count.mpr fun handle => ?_
        have counted := owns.owned handle
        have empty : (handlesOf (Arena.initial size).objects).count handle = 0 := rfl
        have none : (references (Arena.initial size).objects).count handle = 0 := rfl
        simp only [List.count_cons, List.count_append, List.count_nil, empty, none] at counted ⊢
        omega

/-- `orn x0, x1, x2` has a blank operand, and `add x0, x1, #1` loses its second one. -/
theorem imlgen_owned_orn :
    (∃ machine objects first, imlgen .calm 1 [0x20, 0x00, 0x22, 0xAA] 4 = .ok machine ∧
      machine.program.imlPool.Holds (objects.map (image Stored.size)) ∧
      (first :: references objects).Perm (handlesOf objects ++ [0, 0, 0])) ∧
    ∃ machine objects first, imlgen oneFailure 1 [0x20, 4, 0, 0x91] 4 = .ok machine ∧
      machine.program.imlPool.Holds (objects.map (image Stored.size)) ∧
      (first :: references objects).Perm (handlesOf objects ++ [0, poolInvalidHandle]) := by
  constructor
  · have returned : (imlgen .calm 1 [0x20, 0x00, 0x22, 0xAA] 4).isOk = true := by decide +kernel
    obtain ⟨machine, run⟩ := eq_ok_of_isOk returned
    obtain ⟨objects, first, holds, -, -, owned⟩ := imlgen_owned .calm 1 [0x20, 0x00, 0x22, 0xAA] 4 machine rfl run
    have kept : lostAll .calm ((wordsOf [0x20, 0x00, 0x22, 0xAA]).filterMap plan) (.initial 4) = [] := by
      decide +kernel
    have blanks : (((wordsOf [0x20, 0x00, 0x22, 0xAA]).filterMap plan).map Plan.unset).sum = 2 := by
      decide +kernel
    rw [kept, blanks] at owned
    exact ⟨machine, objects, first, run, holds, by simpa [references, List.replicate] using owned⟩
  · obtain ⟨machine, run⟩ : ∃ machine, imlgen oneFailure 1 [0x20, 4, 0, 0x91] 4 = .ok machine := ⟨_, rfl⟩
    obtain ⟨objects, first, holds, -, -, owned⟩ := imlgen_owned oneFailure 1 [0x20, 4, 0, 0x91] 4 machine rfl run
    have gone : lostAll oneFailure ((wordsOf [0x20, 4, 0, 0x91]).filterMap plan) (.initial 4) =
        [.expression { isValue := true, payload := .value { type := .immediate, payload := .imm 1 } }] := by decide
    have blanks : (((wordsOf [0x20, 4, 0, 0x91]).filterMap plan).map Plan.unset).sum = 0 := by decide +kernel
    rw [gone, blanks] at owned
    refine ⟨machine, objects, first, run, holds, ?_⟩
    simpa [references, List.replicate, Stored.handles, Expression.handles] using owned

end Koshka.Iml
