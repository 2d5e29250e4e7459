import Koshka.Imlgen.Arena
import Koshka.Imlgen.Frame

namespace Koshka.Iml

open Data

/-- The pool of the machine holds the objects of the arena. -/
structure Machine.Models (machine : Machine) (arena : Arena) : Prop where
  stored : machine.program.imlPool.Holds (arena.objects.map (image Stored.size))
  allocSize : machine.program.imlPool.allocSize = arena.allocSize
  callocs : machine.callocs = arena.callocs
  slots : machine.slots = arena.slots

structure Machine.SameRest (before after : Machine) : Prop where
  armPool : after.program.armPool = before.program.armPool
  entryPoint : after.program.entryPoint = before.program.entryPoint
  decodedInstrs : after.program.decodedInstrs = before.program.decodedInstrs
  trace : after.trace = before.trace

section Simulation

variable {env : Environment} {before middle after machine : Machine} {arena : Arena} {object : Stored}
  {handle : PoolHandle}

theorem Machine.SameRest.refl (machine : Machine) : machine.SameRest machine :=
  ⟨rfl, rfl, rfl, rfl⟩

theorem Machine.SameRest.trans (first : before.SameRest middle) (second : middle.SameRest after) :
    before.SameRest after :=
  ⟨second.armPool.trans first.armPool, second.entryPoint.trans first.entryPoint,
    second.decodedInstrs.trans first.decodedInstrs, second.trace.trans first.trace⟩

theorem pushStored_rest (run : Returns (pushStored env object) before handle after) :
    before.SameRest after := by
  obtain ⟨_, _, rfl⟩ := pushStored_returns.mp run
  exact ⟨rfl, rfl, rfl, rfl⟩

theorem rest_closed : PushClosed env Machine.SameRest where
  refl := .refl
  trans := .trans
  push := pushStored_rest
  slot _ _ := ⟨rfl, rfl, rfl, rfl⟩

theorem Machine.Models.of_same (models : before.Models arena)
    (pool : after.program.imlPool = before.program.imlPool) (callocs : after.callocs = before.callocs)
    (slots : after.slots = before.slots) : after.Models arena :=
  ⟨pool ▸ models.stored, pool ▸ models.allocSize, callocs.trans models.callocs, slots.trans models.slots⟩

theorem Machine.Models.pos (models : machine.Models arena) :
    machine.program.imlPool.pos = arena.top ∧ machine.program.imlPool.pos.toNat = arena.used := by
  have used : machine.program.imlPool.pos.toNat = arena.used := by
    rw [models.stored.pos, images_length, arena.used_eq_place]
  refine ⟨BitVec.eq_of_toNat_eq ?_, used⟩
  rw [Arena.top, ← used, BitVec.toNat_ofNat, Nat.mod_eq_of_lt machine.program.imlPool.pos.isLt]

theorem pushStored_models (models : before.Models arena)
    (run : Returns (pushStored env object) before handle after) :
    handle = (arena.push env object).1 ∧ after.Models (arena.push env object).2 ∧
      before.SameRest after := by
  obtain ⟨pool, pushed, rfl⟩ := pushStored_returns.mp run
  have exact : (image Stored.size object).length = (BitVec.ofNat 32 object.size).toNat := by
    rw [image_length, object.size_toNat]
  have outcome := poolPush_returned models.stored exact pushed
  have room : poolCanHold before.program.imlPool (BitVec.ofNat 32 object.size) =
    arena.canHold object.size := by
    rw [poolCanHold, Arena.canHold, models.pos.1, models.allocSize]
  have granted : poolGrants (env.calloc before.callocs) before.program.imlPool
      (BitVec.ofNat 32 object.size) = arena.grants env object.size := by
    rw [poolGrants, Arena.grants, room, models.callocs]
  rw [granted, room] at outcome
  unfold Arena.push
  by_cases place : arena.grants env object.size = true
  · rw [if_pos place] at outcome ⊢
    obtain ⟨rfl, capacity, holds⟩ := outcome
    refine ⟨models.pos.1, ⟨by simpa using holds, ?_, ?_, models.slots⟩, ⟨rfl, rfl, rfl, rfl⟩⟩
    · rw [capacity, Arena.grown, poolNewsize, models.allocSize]
    · exact congrArg (· + 1) models.callocs
  · rw [if_neg place] at outcome ⊢
    obtain ⟨rfl, rfl⟩ := outcome
    exact ⟨rfl, ⟨models.stored, models.allocSize, congrArg (· + 1) models.callocs, models.slots⟩,
      ⟨rfl, rfl, rfl, rfl⟩⟩

theorem operatorExpression_models {left right expr : Expression} {op : MathOp} {carry : Bool}
    (models : before.Models arena)
    (run : Returns (operatorExpression env left op right carry) before expr after) :
    let leftHandle := arena.push env (.expression left)
    let rightHandle := leftHandle.2.push env (.expression right)
    expr = { isValue := env.stale rightHandle.2.slots
             payload := .expr { op, signedOp := false, carry, left := leftHandle.1, right := rightHandle.1 } } ∧
      after.Models rightHandle.2.takeSlot ∧ before.SameRest after := by
  obtain ⟨_, _, _, middle, pushLeft, pushRight, rfl, rfl⟩ := operatorExpression_returns.mp run
  obtain ⟨rfl, modelsLeft, restLeft⟩ := pushStored_models models pushLeft
  obtain ⟨rfl, modelsRight, restRight⟩ := pushStored_models modelsLeft pushRight
  have rest := restLeft.trans restRight
  refine ⟨by rw [modelsRight.slots], ⟨modelsRight.stored, modelsRight.allocSize, modelsRight.callocs, ?_⟩,
    ⟨rest.armPool, rest.entryPoint, rest.decodedInstrs, rest.trace⟩⟩
  exact congrArg (· + 1) modelsRight.slots

theorem Tree.build_models {tree : Tree} {expr : Expression} (models : before.Models arena)
    (run : Returns (tree.build env) before expr after) :
    expr = (tree.lay env arena).1 ∧ after.Models (tree.lay env arena).2 ∧ before.SameRest after := by
  induction tree generalizing before after expr arena with
  | value operand =>
      obtain ⟨rfl, rfl⟩ := returns_pure.mp run
      exact ⟨rfl, models, .refl before⟩
  | blank =>
      obtain ⟨rfl, rfl⟩ := returns_pure.mp run
      exact ⟨rfl, models, .refl before⟩
  | node op left right ihLeft ihRight =>
      obtain ⟨_, _, _, _, runLeft, runRight, runNode⟩ := Tree.node_returns.mp run
      obtain ⟨rfl, modelsLeft, restLeft⟩ := ihLeft models runLeft
      obtain ⟨rfl, modelsRight, restRight⟩ := ihRight modelsLeft runRight
      obtain ⟨rfl, modelsNode, restNode⟩ := operatorExpression_models modelsRight runNode
      exact ⟨rfl, modelsNode, (restLeft.trans restRight).trans restNode⟩

theorem Plan.build_models {planned : Plan} {result : DecodeResult} (models : before.Models arena)
    (run : Returns (planned.build env) before result after) :
    result.instr = (planned.lay env arena).1 ∧ after.Models (planned.lay env arena).2 ∧
      before.SameRest after := by
  obtain ⟨_, runTree, rfl⟩ := Plan.build_returns.mp run
  obtain ⟨rfl, modelsTree, rest⟩ := Tree.build_models models runTree
  exact ⟨rfl, modelsTree, rest⟩

end Simulation

section Access

variable {env : Environment} {before after machine : Machine} {arena : Arena} {index : Nat}

theorem Machine.Models.address (models : machine.Models arena) (bound : index < arena.objects.length) :
    (BitVec.ofNat 32 (place Stored.size arena.objects index)).toNat =
      place Stored.size arena.objects index := by
  have inside : place Stored.size arena.objects index ≤ arena.used := by
    rw [arena.used_eq_place]
    exact place_mono Stored.size (Nat.le_of_lt bound)
  have range := machine.program.imlPool.pos.isLt
  rw [models.pos.2] at range
  rw [BitVec.toNat_ofNat, Nat.mod_eq_of_lt (by omega)]

theorem Machine.Models.readObject {object : Stored} (models : machine.Models arena)
    (found : arena.objects[index]? = some object) :
    Data.readObject Stored.size (poolGetdata machine.program.imlPool
      (BitVec.ofNat 32 (place Stored.size arena.objects index))) = some object := by
  obtain ⟨bound, rfl⟩ := List.getElem?_eq_some_iff.mp found
  rw [poolGetdata, models.address bound, models.stored.data]
  exact readObject_place Stored.size bound (Stored.size_positive _) _

theorem Machine.Models.expressionAt {expr : Expression} (models : machine.Models arena)
    (found : arena.objects[index]? = some (.expression expr)) :
    Iml.expressionAt machine.program.imlPool (BitVec.ofNat 32 (place Stored.size arena.objects index)) =
      some expr := by
  rw [Iml.expressionAt, models.readObject found]

theorem Machine.Models.instructionAt {instr : Instruction} (models : machine.Models arena)
    (found : arena.objects[index]? = some (.instruction instr)) :
    Iml.instructionAt machine.program.imlPool (BitVec.ofNat 32 (place Stored.size arena.objects index)) =
      some instr := by
  rw [Iml.instructionAt, models.readObject found]

theorem Machine.Models.readObject_inv {object : Stored} {handle : PoolHandle}
    (models : machine.Models arena)
    (read : Data.readObject Stored.size (poolGetdata machine.program.imlPool handle) = some object) :
    ∃ index : Nat, arena.objects[index]? = some object ∧
      handle = BitVec.ofNat 32 (place Stored.size arena.objects index) := by
  rw [poolGetdata, models.stored.data] at read
  obtain ⟨index, found, there⟩ := Data.readObject_inv Stored.size read
  exact ⟨index, found, by rw [there, BitVec.ofNat_toNat, BitVec.setWidth_eq]⟩

theorem Machine.Models.expressionAt_inv {expr : Expression} {handle : PoolHandle}
    (models : machine.Models arena)
    (read : Iml.expressionAt machine.program.imlPool handle = some expr) :
    ∃ index : Nat, arena.objects[index]? = some (.expression expr) ∧
      handle = BitVec.ofNat 32 (place Stored.size arena.objects index) := by
  unfold Iml.expressionAt at read
  split at read
  · rename_i found
    cases read
    exact models.readObject_inv found
  · cases read

theorem Machine.Models.instructionAt_inv {instr : Instruction} {handle : PoolHandle}
    (models : machine.Models arena)
    (read : Iml.instructionAt machine.program.imlPool handle = some instr) :
    ∃ index : Nat, arena.objects[index]? = some (.instruction instr) ∧
      handle = BitVec.ofNat 32 (place Stored.size arena.objects index) := by
  unfold Iml.instructionAt at read
  split at read
  · rename_i found
    cases read
    exact models.readObject_inv found
  · cases read

theorem Machine.Models.invalid (models : machine.Models arena) :
    Data.readObject Stored.size (poolGetdata machine.program.imlPool poolInvalidHandle) = none := by
  have range := machine.program.imlPool.allocSize.isLt
  have beyond : machine.program.imlPool.data.length ≤ poolInvalidHandle.toNat := by
    rw [models.stored.data_length]
    change _ ≤ 2 ^ 32 - 1
    omega
  rw [poolGetdata, List.drop_of_length_le beyond]
  rfl

theorem writeNext_models {instr : Instruction} {next : PoolHandle} {done : Unit}
    (models : before.Models arena) (found : arena.objects[index]? = some (.instruction instr))
    (run : Returns (writeNext (BitVec.ofNat 32 (place Stored.size arena.objects index)) next)
      before done after) :
    after.Models (arena.link index next) ∧ before.SameRest after := by
  obtain ⟨bound, stored⟩ := List.getElem?_eq_some_iff.mp found
  simp only [writeNext, returns_bind, returns_get] at run
  obtain ⟨_, _, ⟨rfl, rfl⟩, run⟩ := run
  rw [models.instructionAt found] at run
  simp only [returns_set] at run
  subst run
  refine ⟨?_, ⟨rfl, rfl, rfl, rfl⟩⟩
  rw [Arena.link_found found]
  have same : Stored.size (.instruction { instr with next }) = Stored.size arena.objects[index] := by
    rw [stored]
    rfl
  refine ⟨⟨?_, models.stored.inside, ?_⟩, models.allocSize, models.callocs, models.slots⟩
  · rw [images_length, List.length_set, place_set Stored.size bound same, ← images_length]
    exact models.stored.pos
  · rw [models.address bound, models.stored.data, overwrite_place Stored.size bound same]

theorem writeNext_invalid {next : PoolHandle} {done : Unit} (models : before.Models arena) :
    ¬ Returns (writeNext poolInvalidHandle next) before done after := by
  intro run
  have none : Iml.instructionAt before.program.imlPool poolInvalidHandle = none := by
    rw [Iml.instructionAt, models.invalid]
  simp only [writeNext, returns_bind, returns_get] at run
  obtain ⟨_, _, ⟨rfl, rfl⟩, run⟩ := run
  rw [none] at run
  exact returns_throw run

end Access

/-- The words of a code buffer; a rest of less than four bytes is no word. -/
def wordsOf : List U8 → List U32
  | byte0 :: byte1 :: byte2 :: byte3 :: rest => (byte3 ++ byte2 ++ byte1 ++ byte0) :: wordsOf rest
  | _ => []

/-- The calls that the recursion makes from `pos` on, with the handles it returns. -/
def callTrace : PoolHandle → List PoolHandle → List Event
  | _, [] => []
  | pos, handle :: handles => .called pos :: callTrace (pos + 4) handles ++ [.returned pos handle]

theorem position_succ (pos : PoolHandle) (index : Nat) :
    pos + 4 + BitVec.ofNat 32 (4 * index) = pos + BitVec.ofNat 32 (4 * (index + 1)) := by
  rw [Nat.mul_add, Nat.add_comm (4 * index), BitVec.ofNat_add, BitVec.add_assoc]
  rfl

theorem returned_mem_callTrace {pos here handle : PoolHandle} {handles : List PoolHandle} :
    .returned here handle ∈ callTrace pos handles ↔
      ∃ index, handles[index]? = some handle ∧ here = pos + BitVec.ofNat 32 (4 * index) := by
  induction handles generalizing pos with
  | nil => simp [callTrace]
  | cons first handles ih =>
      simp only [callTrace, List.mem_append, List.mem_cons, ih, List.not_mem_nil, or_false, reduceCtorEq,
        false_or, Event.returned.injEq]
      constructor
      · intro either
        rcases either with ⟨index, found, rfl⟩ | ⟨rfl, rfl⟩
        · exact ⟨index + 1, found, position_succ pos index⟩
        · exact ⟨0, rfl, (BitVec.add_zero _).symm⟩
      · intro both
        obtain ⟨index, found, rfl⟩ := both
        cases index with
        | zero =>
            refine Or.inr ⟨BitVec.add_zero _, ?_⟩
            simpa using found.symm
        | succ index => exact Or.inl ⟨index, found, (position_succ pos index).symm⟩

/-- While the positions stay inside `u32`, a position names one call. -/
theorem returned_mem_callTrace_zero {handle : PoolHandle} {handles : List PoolHandle} {index : Nat}
    (inside : 4 * handles.length ≤ 2 ^ 32) (bound : index < handles.length) :
    .returned (BitVec.ofNat 32 (4 * index)) handle ∈ callTrace 0 handles ↔
    handles[index]? = some handle := by
  rw [returned_mem_callTrace]
  constructor
  · intro both
    obtain ⟨other, found, same⟩ := both
    obtain ⟨otherBound, _⟩ := List.getElem?_eq_some_iff.mp found
    have positions := congrArg BitVec.toNat same
    rw [BitVec.ofNat_eq_ofNat, BitVec.zero_add, BitVec.toNat_ofNat, BitVec.toNat_ofNat,
      Nat.mod_eq_of_lt (by omega), Nat.mod_eq_of_lt (by omega)] at positions
    have equal : index = other := by omega
    rwa [equal]
  · intro found
    exact ⟨index, found, (BitVec.zero_add _).symm⟩

theorem wordsOf_length (code : List U8) : (wordsOf code).length = code.length / 4 := by
  induction code using wordsOf.induct with
  | case1 byte0 byte1 byte2 byte3 rest ih =>
      simp only [wordsOf, List.length_cons]
      omega
  | case2 code short =>
      have few : code.length < 4 := by
        by_contra enough
        match code, enough with
        | byte0 :: byte1 :: byte2 :: byte3 :: rest, _ => exact short _ _ _ _ _ rfl
        | [], enough | [_], enough | [_, _], enough | [_, _, _], enough => simp at enough
      rw [Nat.div_eq_of_lt few, wordsOf]
      · rfl
      · exact short

section Recursion

variable {env : Environment} {before after machine : Machine} {arena : Arena} {code : List U8} {size : U32}

structure Machine.Loaded (machine : Machine) (code : List U8) (size : U32) : Prop where
  armPool : machine.program.armPool = { data := code, allocSize := size, pos := 0 }
  length : code.length = size.toNat

theorem loadWord_wordsOf {cells : List U8} {word : U32} (loaded : loadWord cells = .ok word) :
    4 ≤ cells.length ∧ wordsOf cells = word :: wordsOf (cells.drop 4) := by
  match cells, loaded with
  | byte0 :: byte1 :: byte2 :: byte3 :: rest, loaded =>
      cases loaded
      exact ⟨by simp, rfl⟩

/-- A run that returns has planned the remaining words and laid their plans. -/
theorem enterCall_models {pos decoded : PoolHandle} {result : DecodeResult} {pushed : Machine}
    (models : before.Models arena)
    (entered : Returns (enterCall env pos) before (result, decoded) pushed) :
    ∃ word planned, loadWord (poolGetdata before.program.armPool pos) = .ok word ∧
      plan word = some planned ∧ result.instr = (planned.lay env arena).1 ∧
      decoded = (planned.store env arena).1 ∧ pushed.Models (planned.store env arena).2 := by
  obtain ⟨word, built, loaded, decoding, push⟩ := enterCall_returns.mp entered
  obtain ⟨planned, found, building⟩ := decode_returns.mp decoding
  have recorded : ({ before with trace := before.trace ++ [.called pos] } : Machine).Models arena :=
    models.of_same rfl rfl rfl
  obtain ⟨instr, modelsBuilt, _⟩ := Plan.build_models recorded building
  rw [instr] at push
  obtain ⟨sameHandle, modelsPushed, _⟩ := pushStored_models modelsBuilt push
  exact ⟨word, planned, loaded, found, instr, sameHandle, modelsPushed⟩

/-- Only an instruction that got its place can be linked. -/
theorem leaveCall_models {pos next handle : PoolHandle} {planned : Plan} {plans : List Plan}
    (models : before.Models (layPlans env plans (planned.store env arena).2).2)
    (leave : Returns (leaveCall pos (planned.store env arena).1 next) before handle after) :
    handle = (planned.store env arena).1 ∧
      (planned.lay env arena).2.grants env (Stored.size (.instruction (planned.lay env arena).1)) = true ∧
      after.Models ((layPlans env plans (planned.store env arena).2).2.link
        (planned.lay env arena).2.objects.length next) ∧
      after.program.armPool = before.program.armPool ∧
      after.program.entryPoint = before.program.entryPoint ∧
      after.trace = before.trace ++ [.returned pos handle] := by
  obtain ⟨rfl, linked, link, _, rfl⟩ := leaveCall_returns.mp leave
  have granted : (planned.lay env arena).2.grants env
      (Stored.size (.instruction (planned.lay env arena).1)) = true := by
    by_contra refused
    rw [Plan.store, Arena.push, if_neg refused] at link
    exact writeNext_invalid models link
  obtain ⟨stored, address⟩ := Arena.pushed_found granted (layPlans_extends plans)
  rw [Plan.store, address] at link
  obtain ⟨modelsLinked, rest⟩ := writeNext_models models stored link
  exact ⟨rfl, granted, modelsLinked.of_same rfl rfl rfl, rest.armPool, rest.entryPoint,
    by rw [rest.trace]⟩

theorem imlgenRecurse_models {fuel : Nat} {pos handle : PoolHandle} (models : before.Models arena)
    (loaded : before.Loaded code size)
    (run : Returns (imlgenRecurse env fuel pos) before handle after) :
    ∃ plans, (wordsOf (code.drop pos.toNat)).map plan = plans.map some ∧ Placed env plans arena ∧
      (layPlans env plans arena).1.head? = some handle ∧
      after.Models (layPlans env plans arena).2 ∧
      after.program.armPool = before.program.armPool ∧
      after.program.entryPoint = before.program.entryPoint ∧
      after.trace = before.trace ++ callTrace pos (layPlans env plans arena).1 := by
  induction fuel generalizing before after arena pos handle with
  | zero => exact absurd run returns_throw
  | succ fuel ih =>
      obtain ⟨result, decoded, pushed, next, recursed, entered, follow, leave⟩ :=
        imlgenRecurse_returns.mp run
      obtain ⟨word, planned, load, found, instr, rfl, modelsPushed⟩ := enterCall_models models entered
      have rest := enterCall_closed rest_closed entered
      have buffer : poolGetdata before.program.armPool pos = code.drop pos.toNat := by
        rw [loaded.armPool, poolGetdata]
      have capacity : before.program.armPool.allocSize = size := by rw [loaded.armPool]
      rw [buffer] at load
      rw [followCall_returns, capacity, instr] at follow
      obtain ⟨enough, words⟩ := loadWord_wordsOf load
      rw [List.length_drop, loaded.length] at enough
      have range := size.isLt
      have advanced : (pos + 4).toNat = pos.toNat + 4 := by
        rw [BitVec.toNat_add]
        change (pos.toNat + 4) % 2 ^ 32 = _
        omega
      rw [List.drop_drop, ← advanced] at words
      -- the frames below this one lay the rest of the plans
      obtain ⟨plans, planning, placed, first, modelsRest, sameArm, sameEntry, traced⟩ :
          ∃ plans, (wordsOf (code.drop (pos + 4).toNat)).map plan = plans.map some ∧
            Placed env plans (planned.store env arena).2 ∧
            next = (layPlans env plans (planned.store env arena).2).1.headD (planned.lay env arena).1.next ∧
            recursed.Models (layPlans env plans (planned.store env arena).2).2 ∧
            recursed.program.armPool = pushed.program.armPool ∧
            recursed.program.entryPoint = pushed.program.entryPoint ∧
            recursed.trace = pushed.trace ++
              callTrace (pos + 4) (layPlans env plans (planned.store env arena).2).1 := by
        by_cases more : pos + 4 < size
        · rw [if_pos more] at follow
          obtain ⟨middle, set, recursion, _, rfl⟩ := follow
          obtain ⟨plans, planning, placed, head, modelsMiddle, sameArm, sameEntry, traced⟩ :=
            ih modelsPushed
            ⟨rest.armPool.trans loaded.armPool, loaded.length⟩ recursion
          exact ⟨plans, planning, placed, by rw [List.headD_eq_head?_getD, head, Option.getD_some],
            modelsMiddle.of_same rfl rfl rfl, sameArm, sameEntry, traced⟩
        · rw [if_neg more] at follow
          obtain ⟨rfl, rfl⟩ := follow
          have finished : code.drop (pos + 4).toNat = [] := by
            have less : ¬ (pos + 4).toNat < size.toNat := more
            rw [List.drop_eq_nil_iff, loaded.length]
            omega
          exact ⟨[], by rw [finished]; rfl, trivial, rfl, modelsPushed, rfl, rfl, by
            simp [callTrace, layPlans]⟩
      obtain ⟨rfl, granted, modelsLinked, leftArm, leftEntry, left⟩ := leaveCall_models modelsRest leave
      refine ⟨planned :: plans, by rw [words, List.map_cons, List.map_cons, found, planning],
        ⟨granted, placed⟩, rfl, ?_, (leftArm.trans sameArm).trans rest.armPool,
        (leftEntry.trans sameEntry).trans rest.entryPoint, ?_⟩
      · rw [first] at modelsLinked
        exact modelsLinked
      · simp only [left, traced, rest.trace, layPlans, callTrace, List.append_assoc, List.nil_append,
          List.cons_append]

end Recursion

section Unopened

variable {env : Environment} {before after : Machine}

structure Machine.Unopened (machine : Machine) : Prop where
  empty : machine.program.imlPool.data = []
  capacity : 0 < machine.program.imlPool.allocSize.toNat

theorem pushStored_unopened {object : Stored} {handle : PoolHandle} (unopened : before.Unopened)
    (run : Returns (pushStored env object) before handle after) : after.Unopened := by
  obtain ⟨pool, pushed, rfl⟩ := pushStored_returns.mp run
  have same := poolPush_unopened unopened.empty unopened.capacity
    (by rw [object.size_toNat]; exact object.size_positive) pushed
  subst same
  exact ⟨unopened.empty, unopened.capacity⟩

theorem unopened_closed : PushClosed env fun before after => before.Unopened → after.Unopened where
  refl _ unopened := unopened
  trans one two unopened := two (one unopened)
  push run unopened := pushStored_unopened unopened run
  slot _ _ unopened := ⟨unopened.empty, unopened.capacity⟩

/-- Without a first buffer no instruction can be linked, so the recursion does not return. -/
theorem imlgenRecurse_unopened {fuel : Nat} {pos handle : PoolHandle} (unopened : before.Unopened) :
    ¬ Returns (imlgenRecurse env fuel pos) before handle after := by
  induction fuel generalizing before after pos handle with
  | zero => exact returns_throw
  | succ fuel ih =>
      intro run
      obtain ⟨result, decoded, pushed, next, recursed, entered, follow, leave⟩ :=
        imlgenRecurse_returns.mp run
      have recorded : ({ before with trace := before.trace ++ [.called pos] } : Machine).Unopened :=
        ⟨unopened.empty, unopened.capacity⟩
      have stays := enterCall_closed unopened_closed entered recorded
      rw [followCall_returns] at follow
      split at follow
      · obtain ⟨_, _, deeper, _⟩ := follow
        exact ih stays deeper
      · obtain ⟨rfl, rfl⟩ := follow
        obtain ⟨_, _, link, _⟩ := leaveCall_returns.mp leave
        have none : instructionAt recursed.program.imlPool decoded = none := by
          rw [instructionAt, poolGetdata, stays.empty, List.drop_nil]
          rfl
        simp only [writeNext, returns_bind, returns_get] at link
        obtain ⟨_, _, ⟨rfl, rfl⟩, link⟩ := link
        rw [none] at link
        exact returns_throw link

end Unopened

section Program

variable {env : Environment} {fuel : Nat} {code : List U8} {size : U32} {machine : Machine}

def Arena.initial (size : U32) : Arena where
  objects := []
  allocSize := BitVec.ofNat 32 ((size / 4).toNat * 48)
  callocs := 2
  slots := 0

theorem Machine.initial_models
    (opened : poolOpen (env.calloc 0) (BitVec.ofNat 32 ((size / 4).toNat * 48)) =
      (poolOpen true (BitVec.ofNat 32 ((size / 4).toNat * 48)) : ImlPool)) :
    (Machine.initial env code size).Models (.initial size) :=
  ⟨by rw [Machine.initial, opened]; exact poolOpen_holds _, rfl, rfl, rfl⟩

/-- A program that `imlgen` returns is the layout of the plans of its words. -/
theorem imlgen_models (length : code.length = size.toNat)
    (run : imlgen env fuel code size = .ok machine) :
    ∃ plans, (wordsOf code).map plan = plans.map some ∧ plans ≠ [] ∧ Placed env plans (.initial size) ∧
      machine.Models (layPlans env plans (.initial size)).2 ∧
      machine.program.entryPoint = 0 ∧
      machine.trace = callTrace 0 (layPlans env plans (.initial size)).1 := by
  simp only [imlgen, bind_eq_ok] at run
  obtain ⟨_, _, ⟨handle, _⟩, recursion, same⟩ := run
  cases same
  have opened : (Machine.initial env code size).Models (.initial size) := by
    cases answer : env.calloc 0 with
    | true => exact Machine.initial_models (by rw [answer])
    | false =>
        by_cases capacity : 0 < (Machine.initial env code size).program.imlPool.allocSize.toNat
        · refine absurd recursion (imlgenRecurse_unopened ⟨?_, capacity⟩)
          simp [Machine.initial, poolOpen, calloc, answer]
        · have zero : (BitVec.ofNat 32 ((size / 4).toNat * 48)).toNat = 0 :=
            Nat.eq_zero_of_not_pos capacity
          refine Machine.initial_models ?_
          simp only [poolOpen, calloc, zero, List.replicate_zero, ite_self]
  obtain ⟨plans, planning, placed, head, models, _, entry, traced⟩ :=
    imlgenRecurse_models opened ⟨rfl, length⟩ recursion
  refine ⟨plans, planning, ?_, placed, models, entry, traced⟩
  intro equal
  subst equal
  cases head

end Program

end Koshka.Iml
