import Koshka.Imlgen.Layout
import Koshka.Imlgen.Refinement

namespace Koshka.Iml

open Data Arm

/-! Instructions with the handles of their expressions followed.

A node of the operator constructor is read as an operator, whatever its tag says, and
the second operand of a negation is not read.
-/

inductive Resolved where
  | value (operand : Operand)
  | negation (signedOp carry : Bool) (operand : Resolved)
  | operation (op : MathOp) (signedOp carry : Bool) (left right : Resolved)
deriving Repr, DecidableEq

inductive Expression.Resolves (pool : ImlPool) : Expression → Resolved → Prop
  | value {operand : Operand} :
      Resolves pool { isValue := true, payload := .value operand } (.value operand)
  | negation {tag : Bool} {node : ExprOp} {expr : Expression} {operand : Resolved} (unary : node.op = .neg)
      (found : expressionAt pool node.left = some expr) (rest : Resolves pool expr operand) :
      Resolves pool { isValue := tag, payload := .expr node } (.negation node.signedOp node.carry operand)
  | operation {tag : Bool} {node : ExprOp} {leftExpr rightExpr : Expression} {left right : Resolved}
      (binary : node.op ≠ .neg) (foundLeft : expressionAt pool node.left = some leftExpr)
      (foundRight : expressionAt pool node.right = some rightExpr) (restLeft : Resolves pool leftExpr left)
      (restRight : Resolves pool rightExpr right) :
      Resolves pool { isValue := tag, payload := .expr node }
        (.operation node.op node.signedOp node.carry left right)

/-- The expression with its handles followed, down to a depth. -/
def Expression.resolve (pool : ImlPool) : Nat → Expression → Option Resolved
  | 0, _ => none
  | depth + 1, expr =>
      match expr.payload with
      | .value operand => some (.value operand)
      | .expr node =>
          if node.op = .neg then do
            let operand ← expressionAt pool node.left
            let operand ← operand.resolve pool depth
            return .negation node.signedOp node.carry operand
          else do
            let left ← expressionAt pool node.left
            let right ← expressionAt pool node.right
            let left ← left.resolve pool depth
            let right ← right.resolve pool depth
            return .operation node.op node.signedOp node.carry left right

def Resolved.depth : Resolved → Nat
  | .value _ => 1
  | .negation _ _ operand => operand.depth + 1
  | .operation _ _ _ left right => max left.depth right.depth + 1

def Instruction.record (instr : Instruction) : Instruction :=
  { instr.withExpr .blank with next := 0 }

theorem Expression.Resolves.resolve {pool : ImlPool} {expr : Expression} {resolved : Resolved} {depth : Nat}
    (resolves : expr.Resolves pool resolved)
    (enough : resolved.depth ≤ depth) : expr.resolve pool depth = some resolved := by
  induction resolves generalizing depth with
  | value =>
      cases depth with
      | zero => cases enough
      | succ depth => rfl
  | negation unary found rest ih =>
      cases depth with
      | zero => cases enough
      | succ depth =>
          simp only [Expression.resolve, unary, if_true, found, Option.bind_eq_bind, Option.bind_some,
            ih (Nat.le_of_succ_le_succ enough)]
          rfl
  | operation binary foundLeft foundRight restLeft restRight ihLeft ihRight =>
      cases depth with
      | zero => cases enough
      | succ depth =>
          have inner := Nat.le_of_succ_le_succ enough
          simp only [Expression.resolve, binary, if_false, foundLeft, foundRight, Option.bind_eq_bind,
            Option.bind_some, ihLeft (Nat.le_trans (Nat.le_max_left _ _) inner),
            ihRight (Nat.le_trans (Nat.le_max_right _ _) inner)]
          rfl

structure ResolvedInstruction where
  record : Instruction
  expr : Option Resolved
deriving Repr, DecidableEq

inductive Instruction.Resolves (pool : ImlPool) (instr : Instruction) : ResolvedInstruction → Prop
  | math {math : InstrMath} {expr : Resolved} (payload : instr.payload = .math math)
      (resolves : math.expr.Resolves pool expr) :
      Resolves pool instr { record := instr.record, expr := some expr }
  | branch {branch : InstrBranch} (payload : instr.payload = .branch branch) :
      Resolves pool instr { record := instr.record, expr := none }

def Tree.resolved : Tree → Option Resolved
  | .value operand => some (.value operand)
  | .blank => none
  | .node op left right =>
      if op = .neg then left.resolved.map (.negation false false)
      else do
        let left ← left.resolved
        let right ← right.resolved
        return .operation op false false left right

def Plan.resolved (plan : Plan) : Option ResolvedInstruction :=
  match plan.instr.payload with
  | .math _ => plan.tree.resolved.map fun expr => { record := plan.instr.record, expr := some expr }
  | .branch _ => some { record := plan.instr.record, expr := none }

section Unique

variable {pool : ImlPool} {expr : Expression} {instr : Instruction}

theorem Expression.Resolves.unique {one two : Resolved} (first : expr.Resolves pool one)
    (second : expr.Resolves pool two) : one = two := by
  induction first generalizing two with
  | value =>
      cases second
      rfl
  | negation unary found rest ih =>
      cases second with
      | negation _ again other =>
          cases found.symm.trans again
          rw [ih other]
      | operation binary => exact absurd unary binary
  | operation binary foundLeft foundRight restLeft restRight ihLeft ihRight =>
      cases second with
      | negation unary => exact absurd unary binary
      | operation _ againLeft againRight otherLeft otherRight =>
          cases foundLeft.symm.trans againLeft
          cases foundRight.symm.trans againRight
          rw [ihLeft otherLeft, ihRight otherRight]

theorem Instruction.Resolves.unique {one two : ResolvedInstruction} (first : instr.Resolves pool one)
    (second : instr.Resolves pool two) : one = two := by
  cases first with
  | math payload resolves =>
      cases second with
      | math again other =>
          cases payload.symm.trans again
          rw [resolves.unique other]
      | branch again => cases payload.symm.trans again
  | branch payload =>
      cases second with
      | math again => cases payload.symm.trans again
      | branch => rfl

end Unique

section Plans

variable {word : U32} {planned : Plan}

theorem Tree.source_resolved (register : BitVec 5) :
    (Tree.source register).resolved = some (.value (sourceOperand register)) := rfl

theorem Tree.node_resolved {op : MathOp} {left right : Tree} {leftExpr rightExpr : Resolved}
    (binary : op ≠ .neg)
    (leftResolved : left.resolved = some leftExpr) (rightResolved : right.resolved = some rightExpr) :
    (Tree.node op left right).resolved = some (.operation op false false leftExpr rightExpr) := by
  rw [Tree.resolved, if_neg binary, leftResolved, rightResolved]
  rfl

theorem shiftTypeTable_binary (index : BitVec 2) : shiftTypeTable index ≠ .neg := by
  revert index
  decide

theorem bitwiseOpTable_binary (index : BitVec 2) : bitwiseOpTable index ≠ .neg := by
  revert index
  decide

theorem addsubOp_binary (add : Bool) : (if add then MathOp.add else .sub) ≠ .neg := by
  revert add
  decide

def shiftedOperand (word : U32) : Resolved :=
  if 0 < imm6 word then
    .operation (shiftTypeTable (shift word)) false false (.value (sourceOperand (Rm word)))
      (.value { type := .immediate, payload := .imm ((imm6 word).setWidth 64) })
  else .value (sourceOperand (Rm word))

theorem Tree.shifted_resolved (word : U32) :
    (Tree.shifted word).resolved = some (shiftedOperand word) := by
  unfold Tree.shifted shiftedOperand
  split
  · exact Tree.node_resolved (shiftTypeTable_binary _) rfl rfl
  · rfl

/-- What the four decoders of data-processing words build as their second operand. -/
def addsubImmOperand (word : U32) : Resolved :=
  let constant : Resolved := .value { type := .immediate, payload := .imm ((imm12 word).setWidth 64) }
  if shift word = 1 then
    .operation .lsl false false constant (.value { type := .immediate, payload := .imm 12 })
  else constant

def logicalImmOperand (word : U32) : Resolved :=
  .value { type := .immediate, payload := .imm ((lowMask word).setWidth 64) }

def logicalShiftOperand (word : U32) : Resolved :=
  if N word then .negation false false (shiftedOperand word) else shiftedOperand word

def ResolvedInstruction.ofMath (word : U32) (op : MathOp) (setFlags touchedFlags : Bool)
    (second : Resolved) :
    ResolvedInstruction where
  record := .ofMath ((Rd word).setWidth 8) setFlags .blank (sf word) touchedFlags
  expr := some (.operation op false false (.value (sourceOperand (Rn word))) second)

theorem planAddsubImm_resolved : (planAddsubImm word).resolved =
    some (.ofMath word (if op word then .add else .sub) (S word) false (addsubImmOperand word)) := by
  have second : (if shift word = 1 then
      Tree.node .lsl (.constant ((imm12 word).setWidth 64)) (.constant 12)
      else .constant ((imm12 word).setWidth 64)).resolved = some (addsubImmOperand word) := by
    unfold addsubImmOperand
    split
    · exact Tree.node_resolved (by decide) rfl rfl
    · rfl
  exact congrArg (Option.map _) (Tree.node_resolved (addsubOp_binary _) (Tree.source_resolved _) second)

theorem planLogicalImm_resolved : (planLogicalImm word).resolved =
    some (.ofMath word (bitwiseOpTable (opc word)) (opc word = 3) (opc word = 3) (logicalImmOperand word)) :=
  congrArg (Option.map _) (Tree.node_resolved (bitwiseOpTable_binary _) (Tree.source_resolved _) rfl)

theorem planLogicalShift_resolved : (planLogicalShift word).resolved =
    some (.ofMath word (bitwiseOpTable (opc word)) (opc word = 3) (opc word = 3) (logicalShiftOperand word)) := by
  have second : (if N word then Tree.node .neg (.shifted word) .blank else .shifted word).resolved =
      some (logicalShiftOperand word) := by
    unfold logicalShiftOperand
    split
    · rw [Tree.resolved, if_pos rfl, Tree.shifted_resolved]
      rfl
    · exact Tree.shifted_resolved word
  exact congrArg (Option.map _) (Tree.node_resolved (bitwiseOpTable_binary _) (Tree.source_resolved _) second)

theorem planAddsubShift_resolved : (planAddsubShift word).resolved =
    some (.ofMath word (if op word then .add else .sub) (S word) (S word) (shiftedOperand word)) :=
  congrArg (Option.map _)
    (Tree.node_resolved (addsubOp_binary _) (Tree.source_resolved _) (Tree.shifted_resolved word))

theorem planBranch_resolved (page : L2BranchPage) :
    (planBranch word page).resolved =
    some { record := (planBranch word page).instr.record, expr := none } := by
  obtain ⟨branch, shape⟩ := decodeBranchUnconditional_branch word page
  simp only [Plan.resolved, planBranch, shape]

theorem plan_resolved (found : plan word = some planned)
    (implemented : DataProcessing word ∨ UnconditionalBranch word) :
    ∃ resolved, planned.resolved = some resolved := by
  simp only [plan, DataProcessing, UnconditionalBranch] at found implemented
  repeat' split at found
  all_goals cases found
  · exact ⟨_, planAddsubImm_resolved⟩
  · exact ⟨_, planLogicalImm_resolved⟩
  · exact ⟨_, planLogicalShift_resolved⟩
  · exact ⟨_, planAddsubShift_resolved⟩
  · exact ⟨_, planBranch_resolved _⟩
  · exact ⟨_, planBranch_resolved _⟩
  · simp_all

end Plans

section Laid

variable {env : Environment} {machine : Machine} {arena final : Arena} {planned : Plan}

theorem Arena.pushed_expression {expr : Expression} (models : machine.Models final)
    (granted : arena.grants env 24 = true)
    (keeps : Keeps (arena.push env (.expression expr)).2.objects final.objects) :
    expressionAt machine.program.imlPool (arena.push env (.expression expr)).1 = some expr := by
  obtain ⟨found, address⟩ := Arena.expression_found granted (List.prefix_refl _)
  obtain ⟨bound, _⟩ := List.getElem?_eq_some_iff.mp found
  rw [address, ← keeps.place_eq (Nat.le_of_lt bound)]
  exact models.expressionAt (keeps.expressions _ _ found)

theorem Arena.grants_of_memory (memory : ∀ count, env.calloc count = true) (size : Nat) :
    arena.grants env size = true := by
  rw [Arena.grants, memory, Bool.or_true]

/-- Every operand that is read finds room.  The second one of a negation is not read. -/
def Tree.supplied (env : Environment) : Tree → Arena → Bool
  | .value _, _ | .blank, _ => true
  | .node op left right, arena =>
      let left' := left.lay env arena
      let right' := right.lay env left'.2
      left.supplied env arena && right'.2.grants env 24 &&
        (op = .neg || (right.supplied env left'.2 && (right'.2.push env (.expression left'.1)).2.grants env 24))

theorem Tree.supplied_of_memory (memory : ∀ count, env.calloc count = true) (tree : Tree) :
    tree.supplied env arena = true := by
  induction tree generalizing arena with
  | value operand => rfl
  | blank => rfl
  | node op left right ihLeft ihRight =>
      rw [Tree.supplied, ihLeft, ihRight, Arena.grants_of_memory memory, Arena.grants_of_memory memory]
      exact Bool.or_true _

theorem Tree.supplied_resolves {tree : Tree} {resolved : Resolved} (models : machine.Models final)
    (keeps : Keeps (tree.lay env arena).2.objects final.objects) (form : tree.resolved = some resolved)
    (supplied : tree.supplied env arena = true) :
    (tree.lay env arena).1.Resolves machine.program.imlPool resolved := by
  induction tree generalizing arena resolved with
  | value operand =>
      cases form
      exact .value
  | blank => cases form
  | node op left right ihLeft ihRight =>
      simp only [Tree.supplied, Bool.and_eq_true, Bool.or_eq_true, decide_eq_true_eq] at supplied
      obtain ⟨⟨suppliedLeft, grantedLeft⟩, rest⟩ := supplied
      -- the arenas in between only grow into the last one
      have rightKeeps := (Keeps.of_extends (Arena.push_extends _)).trans keeps
      have leftKeeps := (Keeps.of_extends (Arena.push_extends _)).trans rightKeeps
      have before := (Keeps.of_extends (Tree.lay_extends right)).trans leftKeeps
      have foundLeft := Arena.pushed_expression models grantedLeft rightKeeps
      unfold Tree.resolved at form
      split at form
      · rename_i unary
        obtain ⟨operand, leftForm, rfl⟩ := Option.map_eq_some_iff.mp form
        exact .negation unary foundLeft (ihLeft before leftForm suppliedLeft)
      · rename_i binary
        obtain ⟨suppliedRight, grantedRight⟩ := rest.resolve_left binary
        have foundRight := Arena.pushed_expression models grantedRight keeps
        simp only [Option.bind_eq_bind, Option.bind_eq_some_iff, Option.pure_def,
          Option.some.injEq] at form
        obtain ⟨leftResolved, leftForm, rightResolved, rightForm, rfl⟩ := form
        exact .operation binary foundLeft foundRight (ihLeft before leftForm suppliedLeft)
          (ihRight leftKeeps rightForm suppliedRight)

/-- A handle leads to an expression only if its push found room, and to the one that was pushed. -/
theorem Arena.found_expression {expr other : Expression} (models : machine.Models final)
    (keeps : Keeps (arena.push env (.expression expr)).2.objects final.objects)
    (found : expressionAt machine.program.imlPool (arena.push env (.expression expr)).1 = some other) :
    arena.grants env 24 = true ∧ other = expr := by
  cases granted : arena.grants env 24 with
  | true =>
      rw [Arena.pushed_expression models granted keeps] at found
      exact ⟨rfl, (Option.some.inj found).symm⟩
  | false =>
      have refused : arena.grants env (Stored.size (.expression expr)) = false := granted
      rw [Arena.push, refused, if_neg Bool.false_ne_true, expressionAt, models.invalid] at found
      cases found

/-- A tree that has lost an operand cannot be followed. -/
theorem Tree.supplied_of_resolve {tree : Tree} {resolved : Resolved} {depth : Nat}
    (models : machine.Models final) (keeps : Keeps (tree.lay env arena).2.objects final.objects)
    (followed : (tree.lay env arena).1.resolve machine.program.imlPool depth = some resolved) :
    tree.supplied env arena = true := by
  induction tree generalizing arena depth resolved with
  | value operand => rfl
  | blank => rfl
  | node op left right ihLeft ihRight =>
      cases depth with
      | zero => cases followed
      | succ depth =>
          have rightKeeps := (Keeps.of_extends (Arena.push_extends _)).trans keeps
          have leftKeeps := (Keeps.of_extends (Arena.push_extends _)).trans rightKeeps
          have before := (Keeps.of_extends (Tree.lay_extends right)).trans leftKeeps
          simp only [Tree.supplied, Bool.and_eq_true, Bool.or_eq_true, decide_eq_true_eq]
          simp only [Tree.lay, Expression.resolve, Option.bind_eq_bind] at followed
          by_cases unary : op = .neg
          · rw [if_pos unary] at followed
            obtain ⟨_, found, rest⟩ := Option.bind_eq_some_iff.mp followed
            obtain ⟨_, operand, _⟩ := Option.bind_eq_some_iff.mp rest
            obtain ⟨granted, rfl⟩ := Arena.found_expression models rightKeeps found
            exact ⟨⟨ihLeft before operand, granted⟩, .inl unary⟩
          · rw [if_neg unary] at followed
            obtain ⟨_, foundLeft, rest⟩ := Option.bind_eq_some_iff.mp followed
            obtain ⟨_, foundRight, rest⟩ := Option.bind_eq_some_iff.mp rest
            obtain ⟨_, first, rest⟩ := Option.bind_eq_some_iff.mp rest
            obtain ⟨_, second, _⟩ := Option.bind_eq_some_iff.mp rest
            obtain ⟨grantedLeft, rfl⟩ := Arena.found_expression models rightKeeps foundLeft
            obtain ⟨grantedRight, rfl⟩ := Arena.found_expression models keeps foundRight
            exact ⟨⟨ihLeft before first, grantedLeft⟩, .inr ⟨ihRight leftKeeps second, grantedRight⟩⟩

theorem Instruction.record_withExpr (instr : Instruction) (expr : Expression) (next : PoolHandle) :
    { instr.withExpr expr with next }.record = instr.record := by
  cases instr with
  | mk var payload => cases payload <;> rfl

theorem Plan.lay_math {math : InstrMath} (payload : planned.instr.payload = .math math) :
    (planned.lay env arena).1.payload = .math { math with expr := (planned.tree.lay env arena).1 } := by
  simp only [Plan.lay, Instruction.withExpr, payload]

/-- The instruction of a plan resolves to the form of the plan, whatever its `next`. -/
theorem Plan.supplied_resolves {resolved : ResolvedInstruction} (models : machine.Models final)
    (keeps : Keeps (planned.lay env arena).2.objects final.objects)
    (form : planned.resolved = some resolved) (supplied : planned.tree.supplied env arena = true)
    (next : PoolHandle) :
    { (planned.lay env arena).1 with next }.Resolves machine.program.imlPool resolved := by
  have record := Instruction.record_withExpr planned.instr (planned.tree.lay env arena).1 next
  cases payload : planned.instr.payload with
  | math math =>
      simp only [Plan.resolved, payload, Option.map_eq_some_iff] at form
      obtain ⟨expr, treeForm, rfl⟩ := form
      rw [← record]
      exact .math (Plan.lay_math payload) (Tree.supplied_resolves models keeps treeForm supplied)
  | branch branch =>
      simp only [Plan.resolved, payload, Option.some.injEq] at form
      rw [← form, ← record]
      have shape : (planned.lay env arena).1.payload = .branch branch := by
        simp only [Plan.lay, Instruction.withExpr, payload]
      exact .branch shape

theorem Plan.lay_expr {math : InstrMath} {next : PoolHandle}
    (stored : { (planned.lay env arena).1 with next }.payload = .math math) :
    math.expr = (planned.tree.lay env arena).1 := by
  cases payload : planned.instr.payload with
  | math own =>
      cases stored.symm.trans (Plan.lay_math payload)
      rfl
  | branch branch =>
      simp only [Plan.lay, Instruction.withExpr, payload] at stored
      cases stored

theorem Plan.supplied_of_resolves {form : ResolvedInstruction} {expr : Resolved} {next : PoolHandle}
    (models : machine.Models final) (keeps : Keeps (planned.lay env arena).2.objects final.objects)
    (resolves : { (planned.lay env arena).1 with next }.Resolves machine.program.imlPool form)
    (formula : form.expr = some expr) : planned.tree.supplied env arena = true := by
  cases resolves with
  | math stored tree =>
      rw [Plan.lay_expr stored] at tree
      exact Tree.supplied_of_resolve models keeps (tree.resolve (Nat.le_refl _))
  | branch payload => cases formula

theorem Plan.lay_resolves {resolved : ResolvedInstruction} (memory : ∀ count, env.calloc count = true)
    (models : machine.Models final) (keeps : Keeps (planned.lay env arena).2.objects final.objects)
    (form : planned.resolved = some resolved) (next : PoolHandle) :
    { (planned.lay env arena).1 with next }.Resolves machine.program.imlPool resolved :=
  Plan.supplied_resolves models keeps form (Tree.supplied_of_memory memory planned.tree) next

end Laid

/-- What `decode` builds for a word in a program whose IML pool was just opened. -/
def DecodedAlone (word : U32) (result : DecodeResult) (pool : ImlPool) : Prop :=
  ∃ (env : Environment) (before after : Machine) (initSize : PoolSize),
    (∀ count, env.calloc count = true) ∧ before.program.imlPool = poolOpen true initSize ∧
      Returns (decode env word) before result after ∧ after.program.imlPool = pool

section Alone

variable {word : U32} {result : DecodeResult} {pool : ImlPool}

theorem Machine.Models.of_opened {machine : Machine} {initSize : PoolSize}
    (opened : machine.program.imlPool = poolOpen true initSize) :
    machine.Models { objects := [], allocSize := initSize, callocs := machine.callocs, slots := machine.slots } :=
  ⟨by rw [opened]; exact poolOpen_holds initSize, by rw [opened]; rfl, rfl, rfl⟩

theorem DecodedAlone.resolves (alone : DecodedAlone word result pool) :
    ∃ planned, plan word = some planned ∧
      ∀ resolved, planned.resolved = some resolved → result.instr.Resolves pool resolved := by
  obtain ⟨env, before, after, initSize, memory, opened, run, rfl⟩ := alone
  obtain ⟨planned, found, building⟩ := decode_returns.mp run
  refine ⟨planned, found, fun resolved form => ?_⟩
  obtain ⟨instr, models, _⟩ := Plan.build_models (.of_opened opened) building
  rw [instr]
  exact Plan.lay_resolves memory models (.of_extends (List.prefix_refl _)) form _

end Alone

end Koshka.Iml
