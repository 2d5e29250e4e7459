import Koshka.Imlgen.Resolve

namespace Koshka.Iml

open Data Arm

/-- The tag says which member of the union was written. -/
def Expression.Tagged (expr : Expression) : Prop :=
  match expr.payload with
  | .value _ => expr.isValue = true
  | .expr _ => expr.isValue = false

/-- An expression held by the object at `bound` roots a finite tree: every handle on
the way leads to an expression that was stored before the object that holds it, and
every way ends at a value. -/
inductive Expression.Rooted (pool : ImlPool) : PoolHandle → Expression → Prop
  | value {bound : PoolHandle} {operand : Operand} :
      Rooted pool bound { isValue := true, payload := .value operand }
  | node {bound : PoolHandle} {node : ExprOp} {left right : Expression} (beforeLeft : node.left < bound)
      (beforeRight : node.right < bound) (foundLeft : expressionAt pool node.left = some left)
      (foundRight : expressionAt pool node.right = some right) (restLeft : Rooted pool node.left left)
      (restRight : Rooted pool node.right right) :
      Rooted pool bound { isValue := false, payload := .expr node }

/-- The pool starts with a value. -/
def ZeroLeaf (pool : ImlPool) : Prop :=
  ∃ operand, expressionAt pool 0 = some { isValue := true, payload := .value operand }

def Tree.operators : Tree → Nat
  | .value _ | .blank => 0
  | .node _ left right => left.operators + right.operators + 1

def Tree.Blanks : Tree → Prop
  | .value _ => False
  | .blank => True
  | .node _ left right => left.Blanks ∨ right.Blanks

def Tree.Placed (env : Environment) : Tree → Arena → Prop
  | .value _, _ | .blank, _ => True
  | .node _ left right, arena =>
      let left' := left.lay env arena
      let right' := right.lay env left'.2
      left.Placed env arena ∧ right.Placed env left'.2 ∧ right'.2.grants env 24 = true ∧
        (right'.2.push env (.expression left'.1)).2.grants env 24 = true

def Clean (env : Environment) (start count : Nat) : Prop :=
  ∀ slot, start ≤ slot → slot < start + count → env.stale slot = false

theorem clean_zero {env : Environment} {start : Nat} : Clean env start 0 := by
  intro slot lower upper
  omega

theorem clean_add {env : Environment} {start first second : Nat} :
    Clean env start (first + second) ↔ Clean env start first ∧ Clean env (start + first) second := by
  constructor
  · intro clean
    exact ⟨fun slot lower upper => clean slot lower (by omega),
      fun slot lower upper => clean slot (by omega) (by omega)⟩
  · intro both slot lower upper
    obtain ⟨low, high⟩ := both
    by_cases inside : slot < start + first
    · exact low slot lower inside
    · exact high slot (by omega) (by omega)

theorem clean_one {env : Environment} {start : Nat} : Clean env start 1 ↔ env.stale start = false := by
  constructor
  · intro clean
    exact clean start (Nat.le_refl _) (Nat.lt_succ_self _)
  · intro clean slot lower upper
    have same : slot = start := by omega
    rwa [same]

section Trees

variable {env : Environment} {machine : Machine} {arena final : Arena} {tree : Tree} {bound : PoolHandle}

theorem Arena.push_slots (object : Stored) : (arena.push env object).2.slots = arena.slots := by
  unfold Arena.push
  split <;> rfl

theorem Tree.lay_slots (env : Environment) :
    (tree.lay env arena).2.slots = arena.slots + tree.operators := by
  induction tree generalizing arena with
  | value operand => rfl
  | blank => rfl
  | node op left right ihLeft ihRight =>
      simp only [Tree.lay, Arena.takeSlot, Arena.push_slots, ihLeft, ihRight, Tree.operators,
        Nat.add_assoc]

theorem Expression.rooted_node {pool : ImlPool} {tag : Bool} {node : ExprOp} :
    Expression.Rooted pool bound { isValue := tag, payload := .expr node } ↔
      tag = false ∧
        (node.left < bound ∧
          ∃ left, expressionAt pool node.left = some left ∧ left.Rooted pool node.left) ∧
        (node.right < bound ∧
          ∃ right, expressionAt pool node.right = some right ∧ right.Rooted pool node.right) := by
  constructor
  · intro rooted
    cases rooted with
    | node beforeLeft beforeRight foundLeft foundRight restLeft restRight =>
        exact ⟨rfl, ⟨beforeLeft, _, foundLeft, restLeft⟩, ⟨beforeRight, _, foundRight, restRight⟩⟩
  · intro both
    obtain ⟨rfl, ⟨beforeLeft, _, foundLeft, restLeft⟩, ⟨beforeRight, _, foundRight, restRight⟩⟩ := both
    exact .node beforeLeft beforeRight foundLeft foundRight restLeft restRight

theorem Expression.rooted_blank : Expression.blank.Rooted machine.program.imlPool bound ↔
    0 < bound ∧ ZeroLeaf machine.program.imlPool := by
  constructor
  · intro rooted
    cases rooted with
    | node before _ found _ rest _ =>
        refine ⟨before, ?_⟩
        cases rest with
        | value => exact ⟨_, found⟩
        | node below => exact absurd below (BitVec.not_lt_zero)
  · intro both
    obtain ⟨positive, operand, found⟩ := both
    exact .node positive positive found found .value .value

theorem Arena.grants_of_found {object expr : Expression} (models : machine.Models final)
    (found : expressionAt machine.program.imlPool (arena.push env (.expression object)).1 = some expr) :
    arena.grants env 24 = true := by
  by_contra refused
  have invalid : (arena.push env (.expression object)).1 = poolInvalidHandle := by
    unfold push
    exact congrArg Prod.fst (if_neg refused)
  rw [invalid, expressionAt, models.invalid] at found
  cases found

/-- While the arena fits into the pool, a handle is the number of bytes before it. -/
theorem Arena.push_toNat {expr : Expression} (models : machine.Models final)
    (keeps : Keeps (arena.push env (.expression expr)).2.objects final.objects)
    (granted : arena.grants env 24 = true) :
    (arena.push env (.expression expr)).1.toNat = arena.used ∧ arena.used + 24 ≤ final.used := by
  have grows := keeps.used_le
  rw [Arena.push_expression_used granted] at grows
  have range := machine.program.imlPool.pos.isLt
  rw [models.pos.2] at range
  refine ⟨?_, grows⟩
  rw [Arena.push_expression_top granted, Arena.top, BitVec.toNat_ofNat]
  exact Nat.mod_eq_of_lt (by omega)

theorem Arena.operand_rooted {expr : Expression} (models : machine.Models final)
    (keeps : Keeps (arena.push env (.expression expr)).2.objects final.objects)
    (below : (arena.push env (.expression expr)).2.used ≤ bound.toNat) :
    ((arena.push env (.expression expr)).1 < bound ∧ ∃ found,
        expressionAt machine.program.imlPool (arena.push env (.expression expr)).1 = some found ∧
        found.Rooted machine.program.imlPool (arena.push env (.expression expr)).1) ↔
      arena.grants env 24 = true ∧
      expr.Rooted machine.program.imlPool (arena.push env (.expression expr)).1 := by
  constructor
  · intro both
    obtain ⟨_, found, there, rooted⟩ := both
    have granted := Arena.grants_of_found models there
    cases there.symm.trans (Arena.pushed_expression models granted keeps)
    exact ⟨granted, rooted⟩
  · intro both
    obtain ⟨granted, rooted⟩ := both
    refine ⟨?_, expr, Arena.pushed_expression models granted keeps, rooted⟩
    rw [Arena.push_expression_used granted] at below
    rw [BitVec.lt_def, (Arena.push_toNat models keeps granted).1]
    omega

theorem ZeroLeaf.apart {pool : ImlPool} {handle : PoolHandle} (leaf : ZeroLeaf pool)
    (found : expressionAt pool handle = some .blank) : 0 < handle := by
  obtain ⟨operand, zero⟩ := leaf
  by_contra start
  have same : handle = 0 := BitVec.le_zero_iff.mp (BitVec.not_lt.mp start)
  rw [same] at found
  cases found.symm.trans zero

/-- The tree of a laid expression is rooted where all its parts got their place, all
its tags were clean, and a blank operand points at a value. -/
theorem Tree.lay_rooted (models : machine.Models final)
    (keeps : Keeps (tree.lay env arena).2.objects final.objects)
    (below : (tree.lay env arena).2.used ≤ bound.toNat)
    (positive : tree = .blank → ZeroLeaf machine.program.imlPool → 0 < bound) :
    (tree.lay env arena).1.Rooted machine.program.imlPool bound ↔
      tree.Placed env arena ∧ Clean env arena.slots tree.operators ∧
        (tree.Blanks → ZeroLeaf machine.program.imlPool) := by
  induction tree generalizing arena bound with
  | value operand => exact ⟨fun _ => ⟨trivial, clean_zero, False.elim⟩, fun _ => .value⟩
  | blank =>
      rw [Tree.lay, Expression.rooted_blank]
      constructor
      · intro rooted
        exact ⟨trivial, clean_zero, fun _ => rooted.2⟩
      · intro held
        have leaf := held.2.2 trivial
        exact ⟨positive rfl leaf, leaf⟩
  | node op left right ihLeft ihRight =>
      have rightKeeps := (Keeps.of_extends (Arena.push_extends _)).trans keeps
      have leftKeeps := (Keeps.of_extends (Arena.push_extends _)).trans rightKeeps
      have pushed : ((right.lay env (left.lay env arena).2).2.push env
          (.expression (left.lay env arena).1)).2.used ≤
            ((Tree.node op left right).lay env arena).2.used :=
        (Keeps.of_extends (Arena.push_extends _)).used_le
      rw [Tree.lay, Expression.rooted_node,
        Arena.operand_rooted models rightKeeps (Nat.le_trans pushed below),
        Arena.operand_rooted models keeps below]
      have leftRooted := and_congr_right fun granted => @ihLeft arena
        ((right.lay env (left.lay env arena).2).2.push env (.expression (left.lay env arena).1)).1
        ((Keeps.of_extends (Tree.lay_extends right)).trans leftKeeps)
        (by
          rw [(Arena.push_toNat models rightKeeps granted).1]
          exact (Keeps.of_extends (Tree.lay_extends right)).used_le)
        (by
          intro equal leaf
          subst equal
          exact leaf.apart (Arena.pushed_expression models granted rightKeeps))
      have rightRooted := and_congr_right fun granted => @ihRight (left.lay env arena).2
        (((right.lay env (left.lay env arena).2).2.push env
          (.expression (left.lay env arena).1)).2.push env
          (.expression (right.lay env (left.lay env arena).2).1)).1
        leftKeeps
        (by
          rw [(Arena.push_toNat models keeps granted).1]
          exact (Keeps.of_extends (Arena.push_extends _)).used_le)
        (by
          intro equal leaf
          subst equal
          exact leaf.apart (Arena.pushed_expression models granted keeps))
      rw [leftRooted, rightRooted]
      simp only [Arena.push_slots, Tree.lay_slots env, Tree.Placed, Tree.operators, Tree.Blanks,
        clean_add, clean_one, or_imp]
      constructor
      · intro both
        obtain ⟨tag, ⟨grantedLeft, placedLeft, cleanLeft, leafLeft⟩, grantedRight, placedRight,
          cleanRight, leafRight⟩ := both
        exact ⟨⟨placedLeft, placedRight, grantedLeft, grantedRight⟩,
          ⟨⟨cleanLeft, cleanRight⟩, by rw [← Nat.add_assoc]; exact tag⟩, leafLeft, leafRight⟩
      · intro both
        obtain ⟨⟨placedLeft, placedRight, grantedLeft, grantedRight⟩,
          ⟨⟨cleanLeft, cleanRight⟩, tag⟩, leafLeft, leafRight⟩ := both
        exact ⟨by rw [Nat.add_assoc]; exact tag, ⟨grantedLeft, placedLeft, cleanLeft, leafLeft⟩,
          grantedRight, placedRight, cleanRight, leafRight⟩

end Trees

end Koshka.Iml
