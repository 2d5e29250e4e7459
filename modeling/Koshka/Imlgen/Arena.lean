import Koshka.Imlgen.Plan

namespace Koshka.Iml

open Data

/-! The IML pool as what it is for: a sequence of objects, each at the address it was
given when it was stored.

Every command on the pool has a counterpart on the arena that cannot fail.  A command
that returns has done what its counterpart does, so that everything about the pool of
a returned program can be read off a list of objects.
-/

structure Arena where
  objects : List Stored
  allocSize : PoolSize
  callocs : Nat
  slots : Nat
deriving Repr, DecidableEq

namespace Arena

def used (arena : Arena) : Nat := (arena.objects.map Stored.size).sum

def top (arena : Arena) : PoolHandle := BitVec.ofNat 32 arena.used

def canHold (arena : Arena) (size : Nat) : Bool :=
  decide (arena.top + BitVec.ofNat 32 size < arena.allocSize)

/-- Whether the next object gets its place: there is room, or `calloc` makes room. -/
def grants (env : Environment) (arena : Arena) (size : Nat) : Bool :=
  arena.canHold size || env.calloc arena.callocs

def grown (arena : Arena) (size : Nat) : PoolSize :=
  if arena.canHold size then arena.allocSize
  else BitVec.ofNat 32 ((arena.allocSize + BitVec.ofNat 32 size).toNat * 3 / 2)

def push (env : Environment) (arena : Arena) (object : Stored) : PoolHandle × Arena :=
  if arena.grants env object.size then
    (arena.top, { arena with
      objects := arena.objects ++ [object]
      allocSize := arena.grown object.size
      callocs := arena.callocs + 1 })
  else (poolInvalidHandle, { arena with callocs := arena.callocs + 1 })

def takeSlot (arena : Arena) : Arena := { arena with slots := arena.slots + 1 }

def link (arena : Arena) (index : Nat) (next : PoolHandle) : Arena :=
  match arena.objects[index]? with
  | some (.instruction instr) =>
      { arena with objects := arena.objects.set index (.instruction { instr with next }) }
  | _ => arena

end Arena

def Tree.lay (env : Environment) : Tree → Arena → Expression × Arena
  | .value operand, arena => ({ isValue := true, payload := .value operand }, arena)
  | .blank, arena => (.blank, arena)
  | .node op left right, arena =>
      let left := left.lay env arena
      let right := right.lay env left.2
      let leftHandle := right.2.push env (.expression left.1)
      let rightHandle := leftHandle.2.push env (.expression right.1)
      ({ isValue := env.stale rightHandle.2.slots
         payload := .expr {
          op, signedOp := false, carry := false, left := leftHandle.1, right := rightHandle.1 } },
        rightHandle.2.takeSlot)

def Plan.lay (env : Environment) (plan : Plan) (arena : Arena) : Instruction × Arena :=
  let expr := plan.tree.lay env arena
  (plan.instr.withExpr expr.1, expr.2)

/-- The instruction of one plan, behind its expressions. -/
def Plan.store (env : Environment) (plan : Plan) (arena : Arena) : PoolHandle × Arena :=
  (plan.lay env arena).2.push env (.instruction (plan.lay env arena).1)

/-- The instructions of the remaining words, with their handles. -/
def layPlans (env : Environment) : List Plan → Arena → List PoolHandle × Arena
  | [], arena => ([], arena)
  | plan :: plans, arena =>
      let handle := plan.store env arena
      let rest := layPlans env plans handle.2
      (handle.1 :: rest.1,
        rest.2.link (plan.lay env arena).2.objects.length (rest.1.headD (plan.lay env arena).1.next))

def Placed (env : Environment) : List Plan → Arena → Prop
  | [], _ => True
  | plan :: plans, arena =>
      (plan.lay env arena).2.grants env 48 = true ∧ Placed env plans (plan.store env arena).2

section Sizes

theorem Stored.size_toNat (object : Stored) : (BitVec.ofNat 32 object.size).toNat = object.size := by
  cases object <;> rfl

theorem Stored.size_positive (object : Stored) : 0 < object.size := by
  cases object <;> exact Nat.succ_pos _

theorem Arena.used_eq_place (arena : Arena) :
    arena.used = place Stored.size arena.objects arena.objects.length := by
  simp [used, place]

theorem Arena.place_le_used {arena : Arena} {index : Nat} (bound : index ≤ arena.objects.length) :
    place Stored.size arena.objects index ≤ arena.used := by
  rw [arena.used_eq_place]
  exact place_mono Stored.size bound

end Sizes

section Growth

variable {env : Environment} {arena : Arena} {index : Nat} {next : PoolHandle}

theorem Arena.push_objects (object : Stored) :
    (arena.push env object).2.objects =
      arena.objects ++ if arena.grants env object.size then [object] else [] := by
  unfold Arena.push
  split
  · rfl
  · exact (List.append_nil _).symm

theorem Arena.push_used {object : Stored} (granted : arena.grants env object.size = true) :
    (arena.push env object).2.used = arena.used + object.size := by
  rw [used, push_objects, if_pos granted, List.map_append, List.sum_append, used]
  rfl

theorem Arena.push_expression_used {expr : Expression} (granted : arena.grants env 24 = true) :
    (arena.push env (.expression expr)).2.used = arena.used + 24 :=
  Arena.push_used (show arena.grants env (Stored.size (.expression expr)) = true from granted)

theorem Arena.push_expression_top {expr : Expression} (granted : arena.grants env 24 = true) :
    (arena.push env (.expression expr)).1 = arena.top := by
  rw [Arena.push, if_pos (show arena.grants env (Stored.size (.expression expr)) = true from granted)]

theorem Arena.push_extends (object : Stored) : arena.objects <+: (arena.push env object).2.objects := by
  rw [Arena.push_objects]
  exact List.prefix_append _ _

theorem Tree.lay_extends (tree : Tree) : arena.objects <+: (tree.lay env arena).2.objects := by
  induction tree generalizing arena with
  | value operand => exact List.prefix_refl _
  | blank => exact List.prefix_refl _
  | node op left right ihLeft ihRight =>
      exact ((ihLeft.trans ihRight).trans (Arena.push_extends _)).trans (Arena.push_extends _)

theorem Arena.link_found {instr : Instruction}
    (found : arena.objects[index]? = some (.instruction instr)) :
    arena.link index next =
      { arena with objects := arena.objects.set index (.instruction { instr with next }) } := by
  rw [Arena.link, found]

theorem Arena.link_take {count : Nat} (outside : count ≤ index) :
    (arena.link index next).objects.take count = arena.objects.take count := by
  unfold Arena.link
  split
  · rw [List.take_set, List.set_eq_of_length_le (by simp [outside])]
  · rfl

theorem Arena.link_extends {objects : List Stored} (before : objects <+: arena.objects)
    (outside : objects.length ≤ index) : objects <+: (arena.link index next).objects := by
  rw [List.prefix_iff_eq_take] at before ⊢
  rw [Arena.link_take outside]
  exact before

theorem layPlans_extends (plans : List Plan) :
    arena.objects <+: (layPlans env plans arena).2.objects := by
  induction plans generalizing arena with
  | nil => exact List.prefix_refl _
  | cons planned plans ih =>
      have tree : arena.objects <+: (planned.lay env arena).2.objects := Tree.lay_extends planned.tree
      exact Arena.link_extends ((tree.trans (Arena.push_extends _)).trans ih) tree.length_le

/-- An object that got its place is found there, whatever came after it. -/
theorem Arena.pushed_found {object : Stored} {objects : List Stored}
    (granted : arena.grants env object.size = true)
    (later : (arena.push env object).2.objects <+: objects) :
    objects[arena.objects.length]? = some object ∧
      (arena.push env object).1 = BitVec.ofNat 32 (place Stored.size objects arena.objects.length) := by
  rw [Arena.push_objects, if_pos granted] at later
  obtain ⟨rest, rfl⟩ := later
  refine ⟨by simp, ?_⟩
  rw [List.append_assoc, place_append_left, Arena.push, if_pos granted, Arena.top, arena.used_eq_place]

theorem Arena.expression_found {expr : Expression} {objects : List Stored}
    (granted : arena.grants env 24 = true)
    (later : (arena.push env (.expression expr)).2.objects <+: objects) :
    objects[arena.objects.length]? = some (.expression expr) ∧
      (arena.push env (.expression expr)).1 =
        BitVec.ofNat 32 (place Stored.size objects arena.objects.length) :=
  Arena.pushed_found (show arena.grants env (Stored.size (.expression expr)) = true from granted) later

theorem Plan.store_found {planned : Plan} {objects : List Stored}
    (granted : (planned.lay env arena).2.grants env 48 = true)
    (later : (planned.store env arena).2.objects <+: objects) :
    objects[(planned.lay env arena).2.objects.length]? = some (.instruction (planned.lay env arena).1) ∧
      (planned.store env arena).1 =
        BitVec.ofNat 32 (place Stored.size objects (planned.lay env arena).2.objects.length) :=
  Arena.pushed_found (show _ = true from granted) later

theorem Plan.store_length {planned : Plan} (granted : (planned.lay env arena).2.grants env 48 = true) :
    (planned.store env arena).2.objects.length = (planned.lay env arena).2.objects.length + 1 := by
  have room : (planned.lay env arena).2.grants env
      (Stored.size (.instruction (planned.lay env arena).1)) = true := granted
  rw [Plan.store, Arena.push_objects, if_pos room, List.length_append, List.length_singleton]

end Growth

end Koshka.Iml
