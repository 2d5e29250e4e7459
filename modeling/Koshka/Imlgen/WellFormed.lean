import Koshka.Imlgen.Rooted
import Koshka.Imlgen.Translation

namespace Koshka.Iml

open Data Arm

/-- Every stored expression is tagged as what it is, and every stored instruction that
writes a register roots a tree. -/
structure WellFormed (pool : ImlPool) : Prop where
  tagged : ∀ handle expr, expressionAt pool handle = some expr → expr.Tagged
  rooted : ∀ handle instr, instructionAt pool handle = some instr → instr.var = .math →
    ∃ math, instr.payload = .math math ∧ math.expr.Tagged ∧ math.expr.Rooted pool handle

/-- `calloc` gives every push of these sizes the larger buffer that it needs. -/
def CallocServes (env : Environment) : (capacity pos : PoolSize) → (callocs : Nat) → List Nat → Prop
  | _, _, _, [] => True
  | capacity, pos, callocs, size :: rest =>
      if pos + BitVec.ofNat 32 size < capacity then
        CallocServes env capacity (pos + BitVec.ofNat 32 size) (callocs + 1) rest
      else env.calloc callocs = true ∧
        CallocServes env (BitVec.ofNat 32 ((capacity + BitVec.ofNat 32 size).toNat * 3 / 2))
          (pos + BitVec.ofNat 32 size) (callocs + 1) rest

def Arena.Serves (env : Environment) (arena : Arena) (sizes : List Nat) : Prop :=
  CallocServes env arena.allocSize arena.top arena.callocs sizes

def operatorsOf (words : List U32) : Nat :=
  (words.map fun word => ((plan word).map (·.tree.operators)).getD 0).sum

/-- Decoding the word leaves an expression blank: it is not translated, or negates. -/
def LeavesBlank (word : U32) : Prop :=
  ¬ (DataProcessing word ∨ UnconditionalBranch word) ∨ (LogicalShifted word ∧ N word = true)

instance (word : U32) : Decidable (LeavesBlank word) := inferInstanceAs (Decidable (_ ∨ _))

section Supply

variable {env : Environment} {arena : Arena} {rest : List Nat} {plans : List Plan}

theorem Arena.serves_cons (object : Stored) : arena.Serves env (object.size :: rest) ↔
    arena.grants env object.size = true ∧ (arena.push env object).2.Serves env rest := by
  have moved (granted : arena.grants env object.size = true) :
      (arena.push env object).2.top = arena.top + BitVec.ofNat 32 object.size := by
    rw [top, Arena.push_used granted, BitVec.ofNat_add, top]
  by_cases room : arena.top + BitVec.ofNat 32 object.size < arena.allocSize
  · have held : arena.canHold object.size = true := decide_eq_true room
    have granted : arena.grants env object.size = true := by rw [grants, held, Bool.true_or]
    rw [Serves, CallocServes, if_pos room, Serves, moved granted, and_iff_right granted]
    simp only [push, if_pos granted, grown, if_pos held]
  · have full : arena.canHold object.size = false := decide_eq_false room
    have granted : arena.grants env object.size =
      env.calloc arena.callocs := by rw [grants, full, Bool.false_or]
    rw [Serves, CallocServes, if_neg room, granted]
    refine and_congr_right fun answer => ?_
    have place := granted.trans answer
    rw [Serves, moved place]
    simp only [push, if_pos place, grown, full, Bool.false_eq_true, if_false]

theorem Tree.serves_append {tree : Tree} : arena.Serves env (tree.requests ++ rest) ↔
    tree.Placed env arena ∧ (tree.lay env arena).2.Serves env rest := by
  induction tree generalizing arena rest with
  | value operand => exact (and_iff_right trivial).symm
  | blank => exact (and_iff_right trivial).symm
  | node op left right ihLeft ihRight =>
      have pushes : ([24, 24] : List Nat) ++ rest =
          Stored.size (.expression (left.lay env arena).1) ::
            Stored.size (.expression (right.lay env (left.lay env arena).2).1) :: rest := rfl
      simp only [Tree.requests, List.append_assoc, ihLeft, ihRight, pushes, Arena.serves_cons,
        Tree.Placed, and_assoc]
      rfl

theorem Plan.serves_append {planned : Plan} : arena.Serves env (planned.requests ++ rest) ↔
    planned.tree.Placed env arena ∧ (planned.lay env arena).2.grants env 48 = true ∧
      (planned.store env arena).2.Serves env rest := by
  rw [Plan.requests, List.append_assoc, Tree.serves_append]
  exact and_congr_right fun _ => Arena.serves_cons (.instruction (planned.lay env arena).1)

/-- What holds of every plan in the arena it is laid in, holds of the first one and of
all others. -/
theorem forall_arenaBefore {planned : Plan} (property : Plan → Arena → Prop) :
    (∀ (index : Nat) (found : Plan), (planned :: plans)[index]? = some found →
      property found (arenaBefore env (planned :: plans) arena index)) ↔
    property planned arena ∧ ∀ (index : Nat) (found : Plan), plans[index]? = some found →
      property found (arenaBefore env plans (planned.store env arena).2 index) := by
  constructor
  · intro every
    refine ⟨every 0 planned rfl, fun index found there => ?_⟩
    rw [← arenaBefore_succ]
    exact every (index + 1) found there
  · intro both index found there
    obtain ⟨first, others⟩ := both
    cases index with
    | zero =>
        cases there
        exact first
    | succ index =>
        rw [arenaBefore_succ]
        exact others index found there

theorem plans_serve : arena.Serves env (plans.flatMap Plan.requests) ↔
    Placed env plans arena ∧ ∀ (index : Nat) (planned : Plan), plans[index]? = some planned →
      planned.tree.Placed env (arenaBefore env plans arena index) := by
  induction plans generalizing arena with
  | nil => simp [Arena.Serves, CallocServes, Placed]
  | cons planned plans ih =>
      rw [List.flatMap_cons, Plan.serves_append, ih,
        forall_arenaBefore fun planned arena => planned.tree.Placed env arena, Placed]
      tauto

theorem Plan.store_slots (env : Environment) {planned : Plan} :
    (planned.store env arena).2.slots = arena.slots + planned.tree.operators := by
  rw [Plan.store, Arena.push_slots]
  exact Tree.lay_slots env

theorem plans_clean : Clean env arena.slots (plans.map (·.tree.operators)).sum ↔
    ∀ (index : Nat) (planned : Plan), plans[index]? = some planned →
      Clean env (arenaBefore env plans arena index).slots planned.tree.operators := by
  induction plans generalizing arena with
  | nil => simp [clean_zero]
  | cons planned plans ih =>
      rw [List.map_cons, List.sum_cons, clean_add, ← Plan.store_slots env, ih,
        forall_arenaBefore fun planned arena => Clean env arena.slots planned.tree.operators]

end Supply

section Provenance

variable {env : Environment} {arena : Arena} {tree : Tree} {plans : List Plan} {planned : Plan}

/-- A tree stores expressions only, and none of them with a wrong tag in clean slots. -/
theorem Tree.lay_stores (env : Environment) (tree : Tree) (arena : Arena) : ∃ exprs : List Expression,
    (tree.lay env arena).2.objects = arena.objects ++ exprs.map .expression ∧
      (Clean env arena.slots tree.operators → (tree.lay env arena).1.Tagged ∧
      ∀ expr ∈ exprs, expr.Tagged) := by
  have push (arena : Arena) (expr : Expression) : ∃ exprs : List Expression, exprs ⊆ [expr] ∧
      (arena.push env (.expression expr)).2.objects = arena.objects ++ exprs.map .expression := by
    rw [Arena.push_objects]
    split
    · exact ⟨[expr], List.Subset.refl _, rfl⟩
    · exact ⟨[], List.nil_subset _, rfl⟩
  induction tree generalizing arena with
  | value operand => exact ⟨[], (List.append_nil _).symm, fun _ =>
      ⟨rfl, fun _ member => absurd member List.not_mem_nil⟩⟩
  | blank => exact ⟨[], (List.append_nil _).symm, fun _ =>
      ⟨rfl, fun _ member => absurd member List.not_mem_nil⟩⟩
  | node op left right ihLeft ihRight =>
      obtain ⟨leftExprs, leftObjects, leftTagged⟩ := @ihLeft arena
      obtain ⟨rightExprs, rightObjects, rightTagged⟩ := @ihRight (left.lay env arena).2
      obtain ⟨first, firstOnly, firstObjects⟩ :=
        push (right.lay env (left.lay env arena).2).2 (left.lay env arena).1
      obtain ⟨second, secondOnly, secondObjects⟩ := push
        ((right.lay env (left.lay env arena).2).2.push env (.expression (left.lay env arena).1)).2
        (right.lay env (left.lay env arena).2).1
      refine ⟨leftExprs ++ rightExprs ++ first ++ second, ?_, fun clean => ?_⟩
      · simp only [Tree.lay, Arena.takeSlot, secondObjects, firstObjects, rightObjects,
          leftObjects, List.map_append, List.append_assoc]
      · rw [Tree.operators, clean_add, clean_add, clean_one] at clean
        obtain ⟨⟨leftClean, rightClean⟩, tag⟩ := clean
        obtain ⟨leftRoot, leftAll⟩ := leftTagged leftClean
        rw [← Tree.lay_slots env] at rightClean
        obtain ⟨rightRoot, rightAll⟩ := rightTagged rightClean
        refine ⟨?_, fun expr member => ?_⟩
        · rw [← Nat.add_assoc, ← Tree.lay_slots env, ← Tree.lay_slots env] at tag
          simp only [Tree.lay, Expression.Tagged, Arena.push_slots, tag]
        · simp only [List.mem_append] at member
          rcases member with ((member | member) | member) | member
          · exact leftAll expr member
          · exact rightAll expr member
          · rwa [List.mem_singleton.mp (firstOnly member)]
          · rwa [List.mem_singleton.mp (secondOnly member)]

/-- Every object that the plans add is the instruction of one of them, or one of its
expressions. -/
theorem layPlans_stores {index : Nat} {object : Stored} (placed : Placed env plans arena)
    (behind : arena.objects.length ≤ index)
    (found : (layPlans env plans arena).2.objects[index]? = some object) :
    (∃ expr, object = .expression expr ∧
    (Clean env arena.slots (plans.map (·.tree.operators)).sum → expr.Tagged)) ∨
      ∃ (number : Nat) (planned : Plan), plans[number]? = some planned ∧
        index = (planned.lay env (arenaBefore env plans arena number)).2.objects.length := by
  induction plans generalizing arena with
  | nil => exact absurd found (by simp [layPlans, behind])
  | cons first plans ih =>
      obtain ⟨granted, placed⟩ := placed
      have width := Plan.store_length granted
      have later : (first.lay env arena).2.objects <+:
          (layPlans env plans (first.store env arena).2).2.objects :=
        (Arena.push_extends _).trans (layPlans_extends plans)
      by_cases here : (first.lay env arena).2.objects.length = index
      · exact Or.inr ⟨0, first, rfl, by rw [arenaBefore_zero, here]⟩
      rw [layPlans, Arena.link_other here] at found
      rw [List.map_cons, List.sum_cons, clean_add, ← Plan.store_slots env]
      by_cases before : index < (first.lay env arena).2.objects.length
      · refine Or.inl ?_
        obtain ⟨exprs, objects, tagged⟩ := Tree.lay_stores env first.tree arena
        obtain ⟨rest, whole⟩ := later
        change (first.lay env arena).2.objects = _ at objects
        rw [← whole, List.getElem?_append_left before, objects, List.getElem?_append_right behind,
          List.getElem?_map, Option.map_eq_some_iff] at found
        obtain ⟨expr, there, rfl⟩ := found
        exact ⟨expr, rfl, fun clean => (tagged clean.1).2 expr (List.mem_of_getElem? there)⟩
      · rcases ih placed (by omega) found with ⟨expr, same, tagged⟩ | ⟨number, planned, there, same⟩
        · exact Or.inl ⟨expr, same, fun clean => tagged clean.2⟩
        · exact Or.inr ⟨number + 1, planned, there, by rw [arenaBefore_succ]; exact same⟩

inductive Tree.Starts : Tree → Operand → Prop
  | leaf {op : MathOp} {operand : Operand} {right : Tree} (none : right.requests = []) :
      Starts (.node op (.value operand) right) operand
  | left {op : MathOp} {operand : Operand} {left right : Tree} (starts : Starts left operand) :
      Starts (.node op left right) operand
  | right {op : MathOp} {operand : Operand} {left right : Tree} (none : left.requests = [])
      (starts : Starts right operand) : Starts (.node op left right) operand

theorem Tree.lay_none (none : tree.requests = []) : (tree.lay env arena).2 = arena := by
  cases tree with
  | value operand => rfl
  | blank => rfl
  | node op left right => simp [Tree.requests] at none

theorem Tree.Starts.stored {operand : Operand} (starts : tree.Starts operand)
    (placed : tree.Placed env arena) :
    (tree.lay env arena).2.objects[arena.objects.length]? =
      some (.expression { isValue := true, payload := .value operand }) := by
  induction starts generalizing arena with
  | @leaf op operand right none =>
      obtain ⟨_, _, granted, _⟩ := placed
      have alone : (right.lay env arena).2 = arena := Tree.lay_none none
      change (right.lay env arena).2.grants env 24 = true at granted
      rw [alone] at granted
      have later : (arena.push env
          (.expression { isValue := true, payload := .value operand })).2.objects <+:
          ((Tree.node op (.value operand) right).lay env arena).2.objects := by
        change _ <+: (((right.lay env arena).2.push env
          (.expression { isValue := true, payload := .value operand })).2.push env _).2.objects
        rw [alone]
        exact Arena.push_extends _
      exact (Arena.expression_found granted later).1
  | @left op operand left right starts ih =>
      obtain ⟨rest, whole⟩ : (left.lay env arena).2.objects <+:
          ((Tree.node op left right).lay env arena).2.objects :=
        ((Tree.lay_extends right).trans (Arena.push_extends _)).trans (Arena.push_extends _)
      have found := ih placed.1
      obtain ⟨bound, _⟩ := List.getElem?_eq_some_iff.mp found
      rw [← whole, List.getElem?_append_left bound]
      exact found
  | @right op operand left right none starts ih =>
      obtain ⟨rest, whole⟩ : (right.lay env (left.lay env arena).2).2.objects <+:
          ((Tree.node op left right).lay env arena).2.objects :=
        (Arena.push_extends _).trans (Arena.push_extends _)
      rw [← whole]
      have same : (left.lay env arena).2 = arena := Tree.lay_none none
      have found := ih placed.2.1
      rw [same] at found ⊢
      obtain ⟨bound, _⟩ := List.getElem?_eq_some_iff.mp found
      rw [List.getElem?_append_left bound]
      exact found

end Provenance

section Words

variable {word : U32} {planned : Plan}

theorem Tree.shifted_starts (word : U32) :
    Tree.shifted word = .source (Rm word) ∨ ∃ operand, (Tree.shifted word).Starts operand := by
  unfold Tree.shifted
  split
  · exact Or.inr ⟨_, .leaf rfl⟩
  · exact Or.inl rfl

theorem Tree.Starts.of_second {op : MathOp} {register : BitVec 5} {second : Tree}
    (starts : second.requests = [] ∨ ∃ operand, second.Starts operand) :
    ∃ operand, (Tree.node op (.source register) second).Starts operand := by
  rcases starts with none | ⟨operand, starts⟩
  · exact ⟨_, .leaf none⟩
  · exact ⟨operand, .right rfl starts⟩

theorem plan_starts (found : plan word = some planned) (data : DataProcessing word) :
    ∃ operand, planned.tree.Starts operand := by
  have shifted := Tree.shifted_starts word
  have second : (Tree.shifted word).requests = [] ∨ ∃ operand, (Tree.shifted word).Starts operand :=
    shifted.imp_left fun plain => congrArg Tree.requests plain
  simp only [plan, DataProcessing] at found data
  repeat' split at found
  all_goals cases found
  · refine Tree.Starts.of_second ?_
    split
    · exact Or.inr ⟨_, .leaf rfl⟩
    · exact Or.inl rfl
  · exact Tree.Starts.of_second (Or.inl rfl)
  · refine Tree.Starts.of_second ?_
    split
    · rcases shifted with plain | ⟨operand, starts⟩
      · refine Or.inr ⟨sourceOperand (Rm word), ?_⟩
        rw [plain]
        exact .leaf rfl
      · exact Or.inr ⟨operand, .left starts⟩
    · exact second
  · exact Tree.Starts.of_second second
  all_goals simp_all

theorem planBranch_variant (word : U32) (page : L2BranchPage) :
    (planBranch word page).instr.var = .branch := by
  obtain ⟨branch, shape⟩ := decodeBranchUnconditional_branch word page
  rw [planBranch, shape]

theorem plan_variant (found : plan word = some planned) :
    (planned.instr.var = .math ∧ ∃ math, planned.instr.payload = .math math) ∨
      (planned.tree = .blank ∧ planned.instr.var = .branch ∧ UnconditionalBranch word) := by
  simp only [plan] at found
  repeat' split at found
  all_goals cases found
  · exact Or.inl ⟨rfl, _, rfl⟩
  · exact Or.inl ⟨rfl, _, rfl⟩
  · exact Or.inl ⟨rfl, _, rfl⟩
  · exact Or.inl ⟨rfl, _, rfl⟩
  · exact Or.inr ⟨rfl, planBranch_variant _ _, Or.inl ‹_›⟩
  · exact Or.inr ⟨rfl, planBranch_variant _ _, Or.inr ‹_›⟩
  · exact Or.inl ⟨rfl, _, rfl⟩

theorem Tree.shifted_blanks (word : U32) : ¬ (Tree.shifted word).Blanks := by
  unfold Tree.shifted
  split <;> simp [Tree.Blanks, Tree.source, Tree.constant]

theorem logicalShifted_alone (shifted : LogicalShifted word) :
    ¬ AddSubImmediate word ∧ ¬ LogicalImmediate word ∧ ¬ UnconditionalBranch word := by
  simp only [UnconditionalBranch, logicalShifted_iff, addSubImmediate_iff, logicalImmediate_iff,
    branchImmediate_iff, branchRegister_iff] at shifted ⊢
  simp [shifted]

theorem leavesBlank_of_data (data : DataProcessing word) :
    LeavesBlank word ↔ LogicalShifted word ∧ N word = true :=
  or_iff_right fun neither => neither (Or.inl data)

theorem plan_blanks (found : plan word = some planned) (math : planned.instr.var = .math) :
    planned.tree.Blanks ↔ LeavesBlank word := by
  have shifted := Tree.shifted_blanks word
  simp only [plan] at found
  repeat' split at found
  all_goals cases found
  · rename_i immediate
    rw [leavesBlank_of_data (Or.inl immediate)]
    refine iff_of_false ?_ fun both => (logicalShifted_alone both.1).1 immediate
    intro either
    rcases either with first | second
    · exact first
    · revert second
      split <;> simp [Tree.Blanks, Tree.constant]
  · rename_i immediate _
    rw [leavesBlank_of_data (Or.inr (Or.inl immediate))]
    refine iff_of_false ?_ fun both => (logicalShifted_alone both.1).2.1 immediate
    simp [planLogicalImm, Tree.Blanks, Tree.source, Tree.constant]
  · rename_i register _
    rw [leavesBlank_of_data (Or.inr (Or.inr (Or.inl register))), and_iff_right register]
    cases negate : N word <;> simp [planLogicalShift, Tree.Blanks, Tree.source, negate, shifted]
  · rename_i other register _
    rw [leavesBlank_of_data (Or.inr (Or.inr (Or.inr register)))]
    refine iff_of_false ?_ fun both => other both.1
    simp [planAddsubShift, Tree.Blanks, Tree.source, shifted]
  · cases (planBranch_variant _ _).symm.trans math
  · cases (planBranch_variant _ _).symm.trans math
  · refine iff_of_true trivial (Or.inl ?_)
    simp [DataProcessing, UnconditionalBranch, *]

theorem plan_tree (found : plan word = some planned) (data : ¬ DataProcessing word) :
    planned.tree = .blank := by
  simp only [DataProcessing, not_or] at data
  simp only [plan, if_neg data.1, if_neg data.2.1, if_neg data.2.2.1, if_neg data.2.2.2] at found
  repeat' split at found
  all_goals cases found
  all_goals rfl

end Words

section Program

variable {env : Environment} {machine : Machine} {arena : Arena} {plans : List Plan} {index : Nat} {planned : Plan}
  {word : U32}

theorem ZeroLeaf.positive {pool : ImlPool} {handle : PoolHandle} {instr : Instruction}
    (leaf : ZeroLeaf pool)
    (found : instructionAt pool handle = some instr) : 0 < handle := by
  obtain ⟨operand, zero⟩ := leaf
  by_contra start
  have same : handle = 0 := BitVec.le_zero_iff.mp (BitVec.not_lt.mp start)
  rw [same, instructionAt] at found
  rw [expressionAt] at zero
  split at zero
  · rename_i there
    rw [there] at found
    cases found
  · cases zero

theorem Plan.lay_variant : (planned.lay env arena).1.var = planned.instr.var := by
  unfold Plan.lay Instruction.withExpr
  split
  · rfl
  · rfl

theorem Laid.rooted_iff (models : machine.Models (layPlans env plans arena).2) {before : Arena}
    (laid : Laid env plans arena index (planned.lay env before)) :
    (planned.tree.lay env before).1.Rooted machine.program.imlPool (BitVec.ofNat 32
        (place Stored.size (layPlans env plans arena).2.objects (planned.lay env before).2.objects.length)) ↔
      planned.tree.Placed env before ∧ Clean env before.slots planned.tree.operators ∧
        (planned.tree.Blanks → ZeroLeaf machine.program.imlPool) := by
  obtain ⟨bound, _⟩ := List.getElem?_eq_some_iff.mp laid.stored
  refine Tree.lay_rooted models laid.keeps ?_ fun _ leaf =>
    leaf.positive (models.instructionAt laid.stored)
  rw [models.address bound, laid.keeps.place_eq (Nat.le_refl _), Arena.used_eq_place]
  exact Nat.le_refl _

theorem zeroLeaf_of_data {size : U32} (models : machine.Models (layPlans env plans (.initial size)).2)
    (laid : Laid env plans (.initial size) 0 (planned.lay env (.initial size)))
    (stored : planned.tree.Placed env (.initial size)) (found : plan word = some planned)
    (data : DataProcessing word) : ZeroLeaf machine.program.imlPool := by
  obtain ⟨operand, starts⟩ := plan_starts found data
  have there := models.expressionAt (laid.keeps.expressions _ _ (starts.stored stored))
  change expressionAt machine.program.imlPool (BitVec.ofNat 32 (place Stored.size _ 0)) = _ at there
  rw [place_zero] at there
  exact ⟨operand, there⟩

theorem data_of_zeroLeaf {size : U32} (models : machine.Models (layPlans env plans (.initial size)).2)
    (laid : Laid env plans (.initial size) 0 (planned.lay env (.initial size)))
    (found : plan word = some planned) (leaf : ZeroLeaf machine.program.imlPool) :
    DataProcessing word := by
  by_contra other
  have stored := models.instructionAt laid.stored
  have empty : (planned.lay env (.initial size)).2.objects.length = 0 := by
    rw [Plan.lay, plan_tree found other]
    rfl
  rw [empty, place_zero] at stored
  exact absurd (leaf.positive stored) (BitVec.lt_irrefl _)

theorem operatorsOf_planned {words : List U32} (planning : words.map plan = plans.map some) :
    operatorsOf words = (plans.map (·.tree.operators)).sum := by
  have each : operatorsOf words =
    ((words.map plan).map fun found => (found.map (·.tree.operators)).getD 0).sum := by
    rw [operatorsOf, List.map_map]
    rfl
  rw [each, planning, List.map_map]
  rfl

/-- What a program needs of its environment and of its words. -/
structure TreesSupported (env : Environment) (words : List U32) : Prop where
  served : CallocServes env (BitVec.ofNat 32 (words.length * 48)) 0 2 (requestsOf words)
  clean : ∀ slot, slot < operatorsOf words → env.stale slot = false
  blanks : (∃ word, words.head? = some word ∧ DataProcessing word) ∨ ∀ word ∈ words, ¬ LeavesBlank word

variable {fuel : Nat} {code : List U8} {size : U32}

theorem serves_initial (length : code.length = size.toNat)
    (planning : (wordsOf code).map plan = plans.map some) :
    (Arena.initial size).Serves env (plans.flatMap Plan.requests) ↔
      CallocServes env (BitVec.ofNat 32 ((wordsOf code).length * 48)) 0 2 (requestsOf (wordsOf code)) := by
  have count : (size / 4).toNat = (wordsOf code).length := by
    rw [wordsOf_length, length]
    rfl
  rw [requestsOf_planned planning, Arena.Serves, Arena.initial, count]
  rfl

theorem clean_initial (planning : (wordsOf code).map plan = plans.map some) :
    Clean env (Arena.initial size).slots (plans.map (·.tree.operators)).sum ↔
      ∀ slot, slot < operatorsOf (wordsOf code) → env.stale slot = false := by
  rw [operatorsOf_planned planning]
  change (∀ slot, 0 ≤ slot → slot < 0 + _ → _) ↔ _
  simp only [Nat.zero_le, forall_const, Nat.zero_add]

theorem WellFormed.supported (length : code.length = size.toNat)
    (run : imlgen env fuel code size = .ok machine)
    (formed : WellFormed machine.program.imlPool) : TreesSupported env (wordsOf code) := by
  obtain ⟨plans, planning, nonempty, placed, models, _, _⟩ := imlgen_models length run
  -- every tree got all its places, in clean slots
  have sound : ∀ (index : Nat) (planned : Plan), plans[index]? = some planned →
      planned.tree.Placed env (arenaBefore env plans (.initial size) index) ∧
        Clean env (arenaBefore env plans (.initial size) index).slots planned.tree.operators ∧
        (planned.instr.var = .math → planned.tree.Blanks → ZeroLeaf machine.program.imlPool) := by
    intro index planned there
    obtain ⟨word, _, found⟩ := planned_word planning there
    have laid := layPlans_laid placed there
    rcases plan_variant found with ⟨variant, math, payload⟩ | ⟨blank, branch, _⟩
    · obtain ⟨root, shape, _, rooted⟩ := formed.rooted _ _ (models.instructionAt laid.stored)
        (Plan.lay_variant.trans variant)
      cases (Plan.lay_math payload).symm.trans shape
      obtain ⟨trees, clean, leaf⟩ := (laid.rooted_iff models).mp rooted
      exact ⟨trees, clean, fun _ => leaf⟩
    · rw [blank]
      exact ⟨trivial, clean_zero, fun math => absurd (branch.symm.trans math) nofun⟩
  refine ⟨(serves_initial length planning).mp
    (plans_serve.mpr ⟨placed, fun index planned there => (sound index planned there).1⟩),
    (clean_initial planning).mp (plans_clean.mpr fun index planned there =>
    (sound index planned there).2.1), ?_⟩
  -- a blank operand needs a value at zero, which only a data-processing word stores first
  by_contra neither
  simp only [not_or, not_forall, not_not] at neither
  obtain ⟨other, word, member, blanks⟩ := neither
  obtain ⟨index, there⟩ := List.mem_iff_getElem?.mp member
  obtain ⟨planned, planAt, found⟩ := planned_plan planning there
  have math : planned.instr.var = .math := by
    rcases plan_variant found with ⟨variant, _⟩ | ⟨_, _, branch⟩
    · exact variant
    · rcases blanks with neither | ⟨shifted, _⟩
      · exact absurd (Or.inr branch) neither
      · exact absurd branch (logicalShifted_alone shifted).2.2
  have leaf := (sound index planned planAt).2.2 math ((plan_blanks found math).mpr blanks)
  obtain ⟨first, rest, rfl⟩ := List.exists_cons_of_ne_nil nonempty
  obtain ⟨firstWord, start, firstFound⟩ := planned_word planning (List.getElem?_cons_zero)
  refine other ⟨firstWord, by rw [List.head?_eq_getElem?, start], ?_⟩
  exact data_of_zeroLeaf models (layPlans_laid placed List.getElem?_cons_zero) firstFound leaf

theorem TreesSupported.wellFormed (length : code.length = size.toNat)
    (run : imlgen env fuel code size = .ok machine)
    (supported : TreesSupported env (wordsOf code)) : WellFormed machine.program.imlPool := by
  obtain ⟨plans, planning, nonempty, placed, models, _, _⟩ := imlgen_models length run
  have stored := (plans_serve.mp ((serves_initial length planning).mpr supported.served)).2
  have clean : Clean env (Arena.initial size).slots (plans.map (·.tree.operators)).sum :=
    (clean_initial planning).mpr supported.clean
  have each := plans_clean.mp clean
  -- the first word stores a value at zero, or nothing refers to it
  have leaf (word : U32) (member : word ∈ wordsOf code) (blanks : LeavesBlank word) :
      ZeroLeaf machine.program.imlPool := by
    rcases supported.blanks with ⟨firstWord, start, data⟩ | none
    · obtain ⟨planned, planAt, found⟩ := planned_plan planning (List.head?_eq_getElem? ▸ start)
      exact zeroLeaf_of_data models (layPlans_laid placed planAt) (stored 0 planned planAt) found data
    · exact absurd blanks (none word member)
  constructor
  · intro handle expr read
    obtain ⟨index, there, _⟩ := models.expressionAt_inv read
    rcases layPlans_stores placed (Nat.zero_le _) there with ⟨_, same, tagged⟩ | ⟨number, planned,
      planAt, same⟩
    · cases same
      exact tagged clean
    · have laid := layPlans_laid placed planAt
      rw [same] at there
      cases there.symm.trans laid.stored
  · intro handle instr read variant
    obtain ⟨index, there, rfl⟩ := models.instructionAt_inv read
    rcases layPlans_stores placed (Nat.zero_le _) there with ⟨_, same, _⟩ | ⟨number, planned, planAt, rfl⟩
    · cases same
    obtain ⟨word, wordAt, found⟩ := planned_word planning planAt
    have laid := layPlans_laid placed planAt
    cases there.symm.trans laid.stored
    rcases plan_variant found with ⟨math, root, payload⟩ | ⟨_, branch, _⟩
    · obtain ⟨_, _, tagged⟩ :=
        Tree.lay_stores env planned.tree (arenaBefore env plans (.initial size) number)
      refine ⟨_, Plan.lay_math payload, (tagged (each number planned planAt)).1,
        (laid.rooted_iff models).mpr
        ⟨stored number planned planAt, each number planned planAt, fun blanks => ?_⟩⟩
      exact leaf word (List.mem_of_getElem? wordAt) ((plan_blanks found math).mp blanks)
    · exact absurd (branch.symm.trans (Plan.lay_variant.symm.trans variant)) nofun

theorem callocServes_of_memory {capacity pos : PoolSize} {callocs : Nat} {sizes : List Nat}
    (memory : ∀ count, env.calloc count = true) : CallocServes env capacity pos callocs sizes := by
  induction sizes generalizing capacity pos callocs with
  | nil => trivial
  | cons size rest ih =>
      unfold CallocServes
      split
      · exact ih
      · exact ⟨memory callocs, ih⟩

end Program

/-- The trees of a returned program are well formed exactly if `calloc` refused no push,
every stack slot that an operator was made in held a zero for its tag, and no operand
was left blank, or the first word stores a value where blank operands point. -/
theorem imlgen_wellFormed_iff (env : Environment) (fuel : Nat) (code : List U8) (size : U32)
    (machine : Machine)
    (length : code.length = size.toNat) (run : imlgen env fuel code size = .ok machine) :
    WellFormed machine.program.imlPool ↔ TreesSupported env (wordsOf code) :=
  ⟨WellFormed.supported length run, TreesSupported.wellFormed length run⟩

/-- `add x0, x1, #1`. -/
theorem imlgen_wellFormed_iff_add :
    ∃ machine, imlgen .calm 1 [0x20, 0x04, 0x00, 0x91] 4 = .ok machine ∧
    WellFormed machine.program.imlPool := by
  obtain ⟨machine, run⟩ := eq_ok_of_isOk
    (show (imlgen .calm 1 [0x20, 0x04, 0x00, 0x91] 4).isOk = true by decide +kernel)
  refine ⟨machine, run, (imlgen_wellFormed_iff .calm 1 [0x20, 0x04, 0x00, 0x91] 4 machine rfl run).mpr ?_⟩
  exact ⟨callocServes_of_memory fun _ => rfl, fun _ _ => rfl, Or.inl ⟨0x91000420, rfl, by decide⟩⟩

/-- A program of one `ldr x0, [x1]`: the zero instruction refers to itself. -/
theorem wellFormed_fails_load :
    ¬ ∀ (env : Environment) (fuel : Nat) (code : List U8) (size : U32) (machine : Machine),
      code.length = size.toNat → imlgen env fuel code size = .ok machine →
      WellFormed machine.program.imlPool := by
  intro always
  obtain ⟨machine, run⟩ := eq_ok_of_isOk
    (show (imlgen .calm 1 [0x20, 0x00, 0x40, 0xF9] 4).isOk = true by decide +kernel)
  rcases ((always _ _ _ _ _ rfl run).supported rfl run).blanks with ⟨word, start, data⟩ | none
  · obtain rfl : 0xF9400020 = word := Option.some.inj start
    exact absurd data (by decide)
  · exact none 0xF9400020 List.mem_cons_self (by decide)

end Koshka.Iml
