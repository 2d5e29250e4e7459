import Koshka.Data.Related
import Koshka.Imlgen.Outcome

namespace Koshka.Iml

open Data

/-! What the stack held before a run.

The operator constructor leaves the tag of its expression as it finds it, so that bytes of the stack get
into the pool.  Two runs that differ in these tags alone are taken side by side.  The bytes of an object
that belong to no member are stale as well, and have no place in the model.
-/

/-- The tag of an operator means nothing. -/
def Expression.untagged (expr : Expression) : Expression :=
  match expr.payload with
  | .expr _ => { expr with isValue := false }
  | .value _ => expr

def Instruction.untagged (instr : Instruction) : Instruction :=
  match instr.payload with
  | .math math => instr.withExpr math.expr.untagged
  | .branch _ => instr

def Stored.untagged : Stored → Stored
  | .expression expr => .expression expr.untagged
  | .instruction instr => .instruction instr.untagged

/-- The machines differ in the tags of operators only. -/
structure Machine.Agrees (one two : Machine) : Prop where
  allocSize : one.program.imlPool.allocSize = two.program.imlPool.allocSize
  pos : one.program.imlPool.pos = two.program.imlPool.pos
  callocs : one.callocs = two.callocs
  slots : one.slots = two.slots
  rest : one.SameRest two
  stored : (∃ first second : Arena, one.Models first ∧ two.Models second ∧
    first.objects.map Stored.untagged = second.objects.map Stored.untagged) ∨
    (one.Unopened ∧ two.Unopened)

section Tags

variable {object other : Stored} {expr : Expression} {instr : Instruction} {next : PoolHandle}

theorem Stored.untagged_size : object.untagged.size = object.size := by
  cases object <;> rfl

theorem Stored.size_of_untagged (same : object.untagged = other.untagged) : object.size = other.size := by
  rw [← object.untagged_size, same, other.untagged_size]

theorem Instruction.untagged_withExpr (instr : Instruction) (expr : Expression) :
    (instr.withExpr expr).untagged = instr.withExpr expr.untagged := by
  cases instr with
  | mk var payload => cases payload <;> rfl

theorem Instruction.untagged_next : { instr with next }.untagged = { instr.untagged with next } := by
  cases instr with
  | mk var payload => cases payload <;> rfl

theorem Instruction.next_untagged : instr.untagged.next = instr.next := by
  cases instr with
  | mk var payload => cases payload <;> rfl

theorem untagged_instruction (same : (Stored.instruction instr).untagged = other.untagged) :
    ∃ twin, other = .instruction twin ∧ instr.untagged = twin.untagged := by
  cases other with
  | expression expr => cases same
  | instruction twin => exact ⟨twin, rfl, Stored.instruction.inj same⟩

end Tags

section Agreement

variable {env other : Environment} {one two : Machine} {first second : Arena} {handle : PoolHandle}
  {object twin : Stored}

theorem Machine.Agrees.symm (agrees : one.Agrees two) : two.Agrees one where
  allocSize := agrees.allocSize.symm
  pos := agrees.pos.symm
  callocs := agrees.callocs.symm
  slots := agrees.slots.symm
  rest := ⟨agrees.rest.armPool.symm, agrees.rest.entryPoint.symm, agrees.rest.decodedInstrs.symm,
    agrees.rest.trace.symm⟩
  stored := by
    rcases agrees.stored with ⟨first, second, modelsOne, modelsTwo, same⟩ | ⟨closedOne, closedTwo⟩
    · exact Or.inl ⟨second, first, modelsTwo, modelsOne, same.symm⟩
    · exact Or.inr ⟨closedTwo, closedOne⟩

theorem untagged_sizes (same : first.objects.map Stored.untagged = second.objects.map Stored.untagged) :
    first.objects.map Stored.size = second.objects.map Stored.size := by
  have sizes (objects : List Stored) : objects.map Stored.size =
    (objects.map Stored.untagged).map Stored.size := by
    rw [List.map_map]
    exact List.map_congr_left fun object _ => object.untagged_size.symm
  rw [sizes, same, ← sizes]

/-- What is read at a handle in the one is read there in the other, but for a tag. -/
theorem Machine.Agrees.reads (agrees : one.Agrees two)
    (read : readObject Stored.size (poolGetdata one.program.imlPool handle) = some object) :
    ∃ twin, readObject Stored.size (poolGetdata two.program.imlPool handle) = some twin ∧
      object.untagged = twin.untagged := by
  rcases agrees.stored with ⟨first, second, modelsOne, modelsTwo, same⟩ | ⟨closed, _⟩
  · obtain ⟨index, found, rfl⟩ := modelsOne.readObject_inv read
    have entry := congrArg (·[index]?) same
    simp only [List.getElem?_map, found, Option.map_some] at entry
    obtain ⟨twin, there, equal⟩ := Option.map_eq_some_iff.mp entry.symm
    have place_ : place Stored.size first.objects index = place Stored.size second.objects index := by
      rw [place_eq_sum, place_eq_sum, untagged_sizes same]
    rw [place_]
    exact ⟨twin, modelsTwo.readObject there, equal.symm⟩
  · rw [poolGetdata, closed.empty, List.drop_nil] at read
    cases read

theorem Machine.Agrees.read_eq (agrees : one.Agrees two) (handle : PoolHandle) :
    (readObject Stored.size (poolGetdata one.program.imlPool handle)).map Stored.untagged =
      (readObject Stored.size (poolGetdata two.program.imlPool handle)).map Stored.untagged := by
  cases read : readObject Stored.size (poolGetdata one.program.imlPool handle) with
  | some object =>
      obtain ⟨twin, there, same⟩ := agrees.reads read
      rw [there, Option.map_some, Option.map_some, same]
  | none =>
      cases again : readObject Stored.size (poolGetdata two.program.imlPool handle) with
      | none => rfl
      | some twin =>
          obtain ⟨_, there, _⟩ := agrees.symm.reads again
          cases read.symm.trans there

theorem untagged_cases {found there : Option Stored}
    (same : found.map Stored.untagged = there.map Stored.untagged) :
    (match found with | some (.expression expr) => some expr | _ => none).map Expression.untagged =
        (match there with | some (.expression expr) => some expr | _ => none).map Expression.untagged ∧
      (match found with | some (.instruction instr) => some instr | _ => none).map Instruction.untagged =
        (match there with
          | some (.instruction instr) => some instr
          | _ => none).map Instruction.untagged := by
  cases found with
  | none =>
      cases there with
      | none => exact ⟨rfl, rfl⟩
      | some twin => cases same
  | some object =>
      cases there with
      | none => cases same
      | some twin =>
          have equal := Option.some.inj same
          cases object with
          | expression expr =>
              cases twin with
              | expression other => exact ⟨congrArg some (Stored.expression.inj equal), rfl⟩
              | instruction instr => exact Stored.noConfusion equal
          | instruction instr =>
              cases twin with
              | expression expr => exact Stored.noConfusion equal
              | instruction other => exact ⟨rfl, congrArg some (Stored.instruction.inj equal)⟩

theorem Machine.Agrees.expressionAt (agrees : one.Agrees two) (handle : PoolHandle) :
    (expressionAt one.program.imlPool handle).map Expression.untagged =
      (expressionAt two.program.imlPool handle).map Expression.untagged :=
  (untagged_cases (agrees.read_eq handle)).1

theorem Machine.Agrees.instructionAt (agrees : one.Agrees two) (handle : PoolHandle) :
    (instructionAt one.program.imlPool handle).map Instruction.untagged =
      (instructionAt two.program.imlPool handle).map Instruction.untagged :=
  (untagged_cases (agrees.read_eq handle)).2

end Agreement

section Commands

variable {env other : Environment}

/-- The handle of a push, beside what its fate is. -/
theorem pushStored_shape (object : Stored) (machine : Machine) :
    ((pushStored env object).run machine).map (fun ended => (ended.1, ended.2.sizes)) =
      (poolPush (env.calloc machine.sizes.2) machine.sizes.1 (List.replicate object.size 0)
        (BitVec.ofNat 32 object.size) 0).map fun pushed => (pushed.1, pushed.2, machine.sizes.2 + 1) := by
  have erased : List.replicate object.size 0 = (image Stored.size object).map fun _ => 0 := by
    rw [List.map_const', image_length]
  rw [erased, Machine.sizes, poolPush_map (fun _ => (0 : Nat)) rfl]
  cases pushed : poolPush (env.calloc machine.callocs) machine.program.imlPool (image Stored.size object)
      (BitVec.ofNat 32 object.size) 0 with
  | error fault =>
      have failed : Fails (pushStored env object) machine fault := by
        simp only [pushStored, fails_bind, returns_get, fails_lift]
        exact Or.inr ⟨machine, machine, ⟨rfl, rfl⟩, Or.inl pushed⟩
      rw [show (pushStored env object).run machine = .error fault from failed]
      rfl
  | ok found =>
      have returned : Returns (pushStored env object) machine found.1 { machine with
          program := { machine.program with imlPool := found.2 }, callocs := machine.callocs + 1 } :=
        pushStored_returns.mpr ⟨found.2, pushed, rfl⟩
      rw [show (pushStored env object).run machine = .ok _ from returned]
      rfl

theorem Machine.Agrees.sizes {one two : Machine} (agrees : one.Agrees two) : one.sizes = two.sizes := by
  have length : one.program.imlPool.data.length = two.program.imlPool.data.length := by
    rcases agrees.stored with ⟨_, _, modelsOne, modelsTwo, _⟩ | ⟨closedOne, closedTwo⟩
    · rw [modelsOne.stored.data_length, modelsTwo.stored.data_length, agrees.allocSize]
    · rw [closedOne.empty, closedTwo.empty]
  have cells : one.program.imlPool.data.map (fun _ => 0) = two.program.imlPool.data.map fun _ => 0 := by
    rw [List.map_const', List.map_const', length]
  simp only [Machine.sizes, Pool.map, cells, agrees.allocSize, agrees.pos, agrees.callocs]

theorem Arena.grants_agree {one two : Machine} {first second : Arena}
    (answers : env.calloc = other.calloc)
    (agrees : one.Agrees two) (modelsOne : one.Models first) (modelsTwo : two.Models second)
    (size : Nat) :
    first.grants env size = second.grants other size := by
  simp only [Arena.grants, Arena.canHold, ← modelsOne.pos.1, ← modelsTwo.pos.1, ← modelsOne.allocSize,
    ← modelsTwo.allocSize, ← modelsOne.callocs, ← modelsTwo.callocs, agrees.pos, agrees.allocSize,
    agrees.callocs, answers]

theorem pushStored_agrees {object twin : Stored} (answers : env.calloc = other.calloc)
    (same : object.untagged = twin.untagged) :
    Related Machine.Agrees (· = ·) (pushStored env object) (pushStored other twin) := by
  intro one two agrees
  have shape : ((pushStored env object).run one).map (fun ended => (ended.1, ended.2.sizes)) =
      ((pushStored other twin).run two).map fun ended => (ended.1, ended.2.sizes) := by
    rw [pushStored_shape, pushStored_shape, agrees.sizes, Stored.size_of_untagged same, answers]
  constructor
  · intro handle after run
    rw [show (pushStored env object).run one = .ok (handle, after) from run] at shape
    cases ran : (pushStored other twin).run two with
    | error fault =>
        rw [ran] at shape
        cases shape
    | ok found =>
        obtain ⟨result, ended⟩ := found
        rw [ran] at shape
        obtain ⟨rfl, sizes⟩ := Prod.mk.inj (Except.ok.inj shape)
        have returned : Returns (pushStored other twin) two handle ended := ran
        have restOne := pushStored_rest run
        have restTwo := pushStored_rest returned
        obtain ⟨_, _, rfl⟩ := pushStored_returns.mp run
        obtain ⟨_, _, rfl⟩ := pushStored_returns.mp returned
        refine ⟨handle, _, returned, rfl, congrArg (fun sizes => sizes.1.allocSize) sizes,
          congrArg (fun sizes => sizes.1.pos) sizes, congrArg (·.2) sizes, agrees.slots,
          ⟨agrees.rest.armPool, agrees.rest.entryPoint, agrees.rest.decodedInstrs, agrees.rest.trace⟩, ?_⟩
        rcases agrees.stored with ⟨first, second, modelsOne, modelsTwo, objects⟩ | ⟨closedOne, closedTwo⟩
        · obtain ⟨_, pushedOne, _⟩ := pushStored_models modelsOne run
          obtain ⟨_, pushedTwo, _⟩ := pushStored_models modelsTwo returned
          refine Or.inl ⟨_, _, pushedOne, pushedTwo, ?_⟩
          rw [Arena.push_objects, Arena.push_objects, List.map_append, List.map_append, objects,
            Stored.size_of_untagged same, Arena.grants_agree answers agrees modelsOne modelsTwo]
          split
          · rw [List.map_singleton, List.map_singleton, same]
          · rfl
        · exact Or.inr ⟨pushStored_unopened closedOne run, pushStored_unopened closedTwo returned⟩
  · intro fault failed
    rw [show (pushStored env object).run one = .error fault from failed] at shape
    cases ran : (pushStored other twin).run two with
    | error stopped =>
        rw [ran] at shape
        cases shape
        exact ran
    | ok found =>
        rw [ran] at shape
        cases shape

theorem operatorExpression_agrees {left right leftTwin rightTwin : Expression} {op : MathOp}
    {carry : Bool}
    (answers : env.calloc = other.calloc) (sameLeft : left.untagged = leftTwin.untagged)
    (sameRight : right.untagged = rightTwin.untagged) :
    Related Machine.Agrees (fun expr twin => expr.untagged = twin.untagged)
      (operatorExpression env left op right carry) (operatorExpression other leftTwin op rightTwin carry) := by
  refine .bind (pushStored_agrees answers (congrArg Stored.expression sameLeft)) fun leftHandle _ equal => ?_
  subst equal
  refine .bind (pushStored_agrees answers (congrArg Stored.expression sameRight)) fun rightHandle _ equal => ?_
  subst equal
  refine .bind .get fun one two agrees => .bind (.set ?_) fun _ _ _ => .pure rfl
  refine ⟨agrees.allocSize, agrees.pos, agrees.callocs, congrArg (· + 1) agrees.slots,
    ⟨agrees.rest.armPool, agrees.rest.entryPoint, agrees.rest.decodedInstrs, agrees.rest.trace⟩, ?_⟩
  rcases agrees.stored with ⟨first, second, modelsOne, modelsTwo, objects⟩ | ⟨closedOne, closedTwo⟩
  · exact Or.inl ⟨first.takeSlot, second.takeSlot,
      ⟨modelsOne.stored, modelsOne.allocSize, modelsOne.callocs, congrArg (· + 1) modelsOne.slots⟩,
      ⟨modelsTwo.stored, modelsTwo.allocSize, modelsTwo.callocs, congrArg (· + 1) modelsTwo.slots⟩,
      objects⟩
  · exact Or.inr ⟨⟨closedOne.empty, closedOne.capacity⟩, ⟨closedTwo.empty, closedTwo.capacity⟩⟩

theorem Tree.build_agrees (answers : env.calloc = other.calloc) (tree : Tree) :
    Related Machine.Agrees (fun expr twin => expr.untagged = twin.untagged) (tree.build env)
      (tree.build other) := by
  induction tree with
  | value operand => exact .pure rfl
  | blank => exact .pure rfl
  | node op left right ihLeft ihRight =>
      exact .bind ihLeft fun _ _ sameLeft => .bind ihRight fun _ _ sameRight =>
        operatorExpression_agrees answers sameLeft sameRight

theorem decode_agrees (answers : env.calloc = other.calloc) (word : U32) :
    Related Machine.Agrees (fun result twin => result.instr.untagged = twin.instr.untagged)
      (decode env word) (decode other word) := by
  rw [decode_eq, decode_eq]
  cases plan word with
  | none => exact .throw
  | some planned =>
      refine .bind (Tree.build_agrees answers planned.tree) fun expr twin same => .pure ?_
      simp only [Instruction.untagged_withExpr, same]

/-- Links at the same handle leave arenas that agree. -/
theorem Machine.Agrees.linked {one two linkedOne linkedTwo : Machine} {handle : PoolHandle}
    {instr twin : Instruction} (agrees : one.Agrees two) (next : PoolHandle)
    (found : Iml.instructionAt one.program.imlPool handle = some instr)
    (there : Iml.instructionAt two.program.imlPool handle = some twin)
    (same : instr.untagged = twin.untagged) (linkOne : Returns (writeNext handle next) one () linkedOne)
    (linkTwo : Returns (writeNext handle next) two () linkedTwo) :
    ∃ first second : Arena, linkedOne.Models first ∧ linkedTwo.Models second ∧
      first.objects.map Stored.untagged = second.objects.map Stored.untagged := by
  rcases agrees.stored with ⟨first, second, modelsOne, modelsTwo, objects⟩ | ⟨closed, _⟩
  · obtain ⟨index, stored, rfl⟩ := modelsOne.instructionAt_inv found
    have entry := congrArg (·[index]?) objects
    simp only [List.getElem?_map, stored, Option.map_some] at entry
    obtain ⟨object, storedTwo, equal⟩ := Option.map_eq_some_iff.mp entry.symm
    obtain ⟨again, rfl, _⟩ := untagged_instruction equal.symm
    have position : place Stored.size first.objects index = place Stored.size second.objects index := by
      rw [place_eq_sum, place_eq_sum, untagged_sizes objects]
    have read := modelsTwo.instructionAt storedTwo
    rw [← position] at read
    cases read.symm.trans there
    refine ⟨_, _, (writeNext_models modelsOne stored linkOne).1,
      (writeNext_models modelsTwo storedTwo (by rwa [← position])).1, ?_⟩
    rw [Arena.link_found stored, Arena.link_found storedTwo]
    simp only [List.map_set, objects, Stored.untagged, Instruction.untagged_next, same]
  · unfold Iml.instructionAt at found
    rw [poolGetdata, closed.empty, List.drop_nil] at found
    cases found

theorem writeNext_agrees (handle next : PoolHandle) :
    Related Machine.Agrees (· = ·) (writeNext handle next) (writeNext handle next) := by
  refine .bind .get fun one two agrees => ?_
  have reads := agrees.instructionAt handle
  cases found : instructionAt one.program.imlPool handle with
  | none =>
      rw [found] at reads
      simp only [found, Option.map_eq_none_iff.mp reads.symm]
      exact .throw
  | some instr =>
      rw [found] at reads
      obtain ⟨twin, there, same⟩ := Option.map_eq_some_iff.mp reads.symm
      dsimp only
      rw [found, there]
      refine .set ?_
      refine ⟨agrees.allocSize, agrees.pos, agrees.callocs, agrees.slots,
        ⟨agrees.rest.armPool, agrees.rest.entryPoint, agrees.rest.decodedInstrs,
        agrees.rest.trace⟩, Or.inl ?_⟩
      apply agrees.linked next found there same.symm
      · simp only [writeNext, returns_get_bind, found, returns_set]
      · simp only [writeNext, returns_get_bind, there, returns_set]

theorem record_agrees (event : Event) :
    Related Machine.Agrees (· = ·) (record event) (record event) := by
  refine .modify fun one two agrees => ?_
  refine ⟨agrees.allocSize, agrees.pos, agrees.callocs, agrees.slots,
    ⟨agrees.rest.armPool, agrees.rest.entryPoint, agrees.rest.decodedInstrs, ?_⟩, ?_⟩
  · rw [agrees.rest.trace]
  · rcases agrees.stored with ⟨first, second, modelsOne, modelsTwo, objects⟩ | ⟨closedOne, closedTwo⟩
    · exact Or.inl ⟨first, second, modelsOne.of_same rfl rfl rfl, modelsTwo.of_same rfl rfl rfl, objects⟩
    · exact Or.inr ⟨⟨closedOne.empty, closedOne.capacity⟩, ⟨closedTwo.empty, closedTwo.capacity⟩⟩

theorem setDecoded_agrees (pos : U32) :
    Related Machine.Agrees (· = ·) (setDecoded pos) (setDecoded pos) := by
  refine .bind .get fun one two agrees => ?_
  rw [agrees.rest.decodedInstrs]
  refine .bind (.lift _) fun decodedInstrs _ equal => .set ?_
  subst equal
  refine ⟨agrees.allocSize, agrees.pos, agrees.callocs, agrees.slots,
    ⟨agrees.rest.armPool, agrees.rest.entryPoint, rfl, agrees.rest.trace⟩, ?_⟩
  rcases agrees.stored with ⟨first, second, modelsOne, modelsTwo, objects⟩ | ⟨closedOne, closedTwo⟩
  · exact Or.inl ⟨first, second, modelsOne.of_same rfl rfl rfl, modelsTwo.of_same rfl rfl rfl, objects⟩
  · exact Or.inr ⟨⟨closedOne.empty, closedOne.capacity⟩, ⟨closedTwo.empty, closedTwo.capacity⟩⟩

theorem getDecoded_agrees (pos : U32) :
    Related Machine.Agrees (· = ·) (getDecoded pos) (getDecoded pos) := by
  refine .bind .get fun one two agrees => ?_
  rw [agrees.rest.decodedInstrs]
  exact .lift _

theorem enterCall_agrees (answers : env.calloc = other.calloc) (pos : PoolHandle) :
    Related Machine.Agrees (fun entered twin => entered.1.instr.untagged = twin.1.instr.untagged ∧
      entered.2 = twin.2) (enterCall env pos) (enterCall other pos) := by
  refine .bind (record_agrees _) fun _ _ _ => .bind .get fun one two agrees => ?_
  rw [agrees.rest.armPool]
  refine .bind (.lift _) fun word _ equal => ?_
  subst equal
  refine .bind (decode_agrees answers word) fun result twin same => ?_
  exact .bind (pushStored_agrees answers (congrArg Stored.instruction same)) fun _ _ equal =>
    .pure ⟨same, equal⟩

theorem leaveCall_agrees (pos decoded next : PoolHandle) :
    Related Machine.Agrees (· = ·) (leaveCall pos decoded next) (leaveCall pos decoded next) :=
  .bind (writeNext_agrees decoded next) fun _ _ _ => .bind (getDecoded_agrees _) fun _ _ _ =>
    .bind (record_agrees _) fun _ _ _ => .pure rfl

theorem imlgenRecurse_agrees (answers : env.calloc = other.calloc) (fuel : Nat) (pos : PoolHandle) :
    Related Machine.Agrees (· = ·) (imlgenRecurse env fuel pos) (imlgenRecurse other fuel pos) := by
  induction fuel generalizing pos with
  | zero => exact .throw
  | succ fuel ih =>
      rw [imlgenRecurse_eq, imlgenRecurse_eq]
      refine .bind .get fun one two agrees =>
        .bind (enterCall_agrees answers pos) fun entered twin same => ?_
      obtain ⟨result, decoded⟩ := entered
      obtain ⟨again, handle⟩ := twin
      obtain ⟨same, equal⟩ := same
      cases equal
      have link : result.instr.next = again.instr.next := by
        rw [← result.instr.next_untagged, same, again.instr.next_untagged]
      simp only [agrees.rest.armPool, link]
      refine .bind (.ite ?_ (.pure rfl)) fun next _ equal => ?_
      · exact .bind (ih _) fun next _ equal => .bind (setDecoded_agrees _) fun _ _ _ => .pure equal
      · subst equal
        exact leaveCall_agrees _ _ _

end Commands

/-- Two programs with the same expressions and instructions at the same handles, but for tags. -/
structure SameButTags (one two : Machine) : Prop where
  expressions : ∀ handle, (expressionAt one.program.imlPool handle).map Expression.untagged =
    (expressionAt two.program.imlPool handle).map Expression.untagged
  instructions : ∀ handle, (instructionAt one.program.imlPool handle).map Instruction.untagged =
    (instructionAt two.program.imlPool handle).map Instruction.untagged
  allocSize : one.program.imlPool.allocSize = two.program.imlPool.allocSize
  pos : one.program.imlPool.pos = two.program.imlPool.pos
  rest : one.SameRest two
  callocs : one.callocs = two.callocs
  slots : one.slots = two.slots

section Runs

variable {env other : Environment} {code : List U8} {size : U32}

theorem Machine.initial_agrees : (Machine.initial env code size).Agrees (.initial env code size) where
  allocSize := rfl
  pos := rfl
  callocs := rfl
  slots := rfl
  rest := .refl _
  stored := by
    cases answer : env.calloc 0 with
    | true =>
        have opened : (Machine.initial env code size).Models (.initial size) :=
          Machine.initial_models (by rw [answer])
        exact Or.inl ⟨_, _, opened, opened, rfl⟩
    | false =>
        by_cases capacity : 0 < (Machine.initial env code size).program.imlPool.allocSize.toNat
        · have closed : (Machine.initial env code size).Unopened :=
            ⟨by simp [Machine.initial, poolOpen, calloc, answer], capacity⟩
          exact Or.inr ⟨closed, closed⟩
        · have zero : (BitVec.ofNat 32 ((size / 4).toNat * 48)).toNat = 0 :=
            Nat.eq_zero_of_not_pos capacity
          have opened : (Machine.initial env code size).Models (.initial size) :=
            Machine.initial_models (by simp only [poolOpen, calloc, zero, List.replicate_zero, ite_self])
          exact Or.inl ⟨_, _, opened, opened, rfl⟩

theorem Machine.initial_congr (answers : env.calloc = other.calloc) :
    Machine.initial env code size = .initial other code size := by
  simp only [Machine.initial, answers]

end Runs

/-- The tags that the stack held before decide nothing but the tags of operators: neither whether a run
returns, nor its fault, nor any member of an object that is assigned. -/
theorem imlgen_stack (env other : Environment) (answers : env.calloc = other.calloc) (fuel : Nat)
    (code : List U8) (size : U32) :
    (∀ machine, imlgen env fuel code size = .ok machine →
      ∃ twin, imlgen other fuel code size = .ok twin ∧ SameButTags machine twin) ∧
    ∀ fault, imlgen env fuel code size = .error fault ↔ imlgen other fuel code size = .error fault := by
  have runs := imlgenRecurse_agrees answers fuel 0
  have agrees : (Machine.initial env code size).Agrees (.initial other code size) :=
    Machine.initial_congr answers ▸ Machine.initial_agrees
  constructor
  · intro machine run
    simp only [imlgen, bind_eq_ok] at run
    obtain ⟨_, positive, ⟨handle, after⟩, recursed, same⟩ := run
    cases same
    obtain ⟨result, ended, again, _, kept⟩ := (runs _ _ agrees).1 handle after recursed
    refine ⟨ended, ?_, kept.expressionAt, kept.instructionAt, kept.allocSize, kept.pos, kept.rest,
      kept.callocs, kept.slots⟩
    simp only [imlgen, bind_eq_ok]
    exact ⟨_, positive, ⟨result, ended⟩, again, rfl⟩
  · intro fault
    have deeper : (imlgenRecurse env fuel 0).run (.initial env code size) = .error fault ↔
        (imlgenRecurse other fuel 0).run (.initial other code size) = .error fault :=
        runs.fails_iff agrees
    simp only [imlgen, bind_eq_error, deeper, pure, Except.pure, reduceCtorEq, and_false, exists_false,
      or_false]

/-- `add x0, x1, #1` on a stack of zeros and on one of ones. -/
theorem imlgen_stack_ones : ∃ machine twin, imlgen .calm 1 [0x20, 0x04, 0x00, 0x91] 4 = .ok machine ∧
    imlgen { calloc := fun _ => true, stale := fun _ => true } 1 [0x20, 0x04, 0x00, 0x91] 4 = .ok twin ∧
    SameButTags machine twin := by
  have accepted : ∀ word ∈ wordsOf [0x20, 0x04, 0x00, 0x91], Accepted word :=
    List.forall_mem_singleton.mpr (show Accepted 0x91000420 by decide)
  obtain ⟨machine, run⟩ : ∃ machine, imlgen .calm 1 [0x20, 0x04, 0x00, 0x91] 4 = .ok machine :=
    imlgen_finishes rfl (by decide) (fun _ => rfl) (by decide) accepted rfl (by decide)
  obtain ⟨twin, again, same⟩ :=
    (imlgen_stack .calm { calloc := fun _ => true, stale := fun _ => true } rfl 1
    [0x20, 0x04, 0x00, 0x91] 4).1 machine run
  exact ⟨machine, twin, run, again, same⟩

end Koshka.Iml
