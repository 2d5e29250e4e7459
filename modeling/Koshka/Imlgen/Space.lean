import Koshka.Imlgen.Outcome
import Koshka.Pool.Growth

namespace Koshka.Iml

open Data

/-- Pushes of these sizes, each with the answer that `calloc` has for it. -/
def pushesOf (env : Environment) (callocs : Nat) : List Nat → List (PoolOp Nat × Bool)
  | [] => []
  | size :: sizes =>
      (.push (List.replicate size 0) (BitVec.ofNat 32 size) 0, env.calloc callocs) ::
        pushesOf env (callocs + 1) sizes

/-- What lies between the two machines are pushes of these sizes. -/
structure Took (env : Environment) (before : Machine) (sizes : List Nat) (after : Machine) : Prop where
  callocs : after.callocs = before.callocs + sizes.length
  history : runHistory growStep before.sizes.1 (pushesOf env before.callocs sizes) = .ok after.sizes.1

section Took

variable {env : Environment} {before middle after : Machine} {first second sizes : List Nat}
  {tree : Tree} {planned : Plan} {expr : Expression} {result : DecodeResult} {pos handle next : PoolHandle}
  {code : List U8} {size : U32}

theorem pushesOf_append {callocs : Nat} : pushesOf env callocs (first ++ second) =
    pushesOf env callocs first ++ pushesOf env (callocs + first.length) second := by
  induction first generalizing callocs with
  | nil => rfl
  | cons size first ih =>
      rw [List.cons_append, pushesOf, ih, List.length_cons, Nat.add_right_comm, ← Nat.add_assoc]
      rfl

theorem Took.of_same (callocs : after.callocs = before.callocs) (sizes : after.sizes.1 = before.sizes.1) :
    Took env before [] after :=
  ⟨callocs, by rw [sizes]; rfl⟩

theorem Took.trans (one : Took env before first middle) (two : Took env middle second after) :
    Took env before (first ++ second) after := by
  refine ⟨by rw [two.callocs, one.callocs, List.length_append, Nat.add_assoc], ?_⟩
  rw [pushesOf_append, runHistory_append, one.history, ok_bind, ← one.callocs]
  exact two.history

theorem pushStored_took {object : Stored} (push : Returns (pushStored env object) before handle after) :
    Took env before [object.size] after := by
  obtain ⟨pool, pushed, rfl⟩ := pushStored_returns.mp push
  have erased : List.replicate object.size 0 = (image Stored.size object).map fun _ => 0 := by
    rw [List.map_const', image_length]
  have mapped : poolPush (env.calloc before.callocs) before.sizes.1 (List.replicate object.size 0)
      (BitVec.ofNat 32 object.size) 0 = .ok (handle, pool.map fun _ => 0) := by
    rw [erased, Machine.sizes, poolPush_map (fun _ => (0 : Nat)) rfl, pushed]
    rfl
  refine ⟨rfl, ?_⟩
  simp only [pushesOf, runHistory, growStep, mapped]
  rfl

theorem Tree.build_took (run : Returns (tree.build env) before expr after) :
    Took env before tree.requests after := by
  induction tree generalizing before after expr with
  | value operand =>
      obtain ⟨-, rfl⟩ := returns_pure.mp run
      exact .of_same rfl rfl
  | blank =>
      obtain ⟨-, rfl⟩ := returns_pure.mp run
      exact .of_same rfl rfl
  | node op left right ihLeft ihRight =>
      obtain ⟨_, _, _, _, runLeft, runRight, runNode⟩ := Tree.node_returns.mp run
      obtain ⟨_, _, _, _, pushLeft, pushRight, -, rfl⟩ := operatorExpression_returns.mp runNode
      have operands := (pushStored_took pushLeft).trans (pushStored_took pushRight)
      have node := ((ihLeft runLeft).trans (ihRight runRight)).trans operands
      exact ⟨node.callocs, node.history⟩

theorem enterCall_took {decoded : PoolHandle} (entered : Returns (enterCall env pos) before (result, decoded) after) :
    ∃ word planned, loadWord (poolGetdata before.program.armPool pos) = .ok word ∧
      plan word = some planned ∧ Took env before planned.requests after := by
  obtain ⟨word, built, loaded, decoding, push⟩ := enterCall_returns.mp entered
  obtain ⟨planned, found, building⟩ := decode_returns.mp decoding
  obtain ⟨expr, tree, -⟩ := Plan.build_returns.mp building
  have took := (Tree.build_took tree).trans (pushStored_took push)
  exact ⟨word, planned, loaded, found, took.callocs, took.history⟩

/-- An instruction that is found at a handle lies in the buffer with all its cells. -/
theorem instructionAt_inside {pool : ImlPool} {instr : Instruction}
    (found : instructionAt pool handle = some instr) : handle.toNat + 48 ≤ pool.data.length := by
  unfold instructionAt at found
  split at found
  · rename_i read
    cases found
    have long := readObject_length Stored.size read
    rw [poolGetdata, List.length_drop] at long
    have positive : 0 < 48 ∧ Stored.size (.instruction instr) = 48 := ⟨by decide, rfl⟩
    omega
  · cases found

theorem writeNext_took (link : Returns (writeNext handle next) before () after) :
    Took env before [] after := by
  simp only [writeNext, returns_get_bind] at link
  split at link
  · exact absurd link returns_throw
  · rename_i instr found
    rw [← returns_set.mp link]
    refine .of_same rfl ?_
    have inside := instructionAt_inside found
    have kept : (overwrite before.program.imlPool.data handle.toNat
        (image Stored.size (.instruction { instr with next }))).length =
          before.program.imlPool.data.length :=
      overwrite_length (by rw [image_length]; exact inside)
    simp only [Machine.sizes, Pool.map, List.map_const', kept]

theorem leaveCall_took {decoded : PoolHandle} (leave : Returns (leaveCall pos decoded next) before handle after) :
    Took env before [] after := by
  obtain ⟨-, linked, link, -, rfl⟩ := leaveCall_returns.mp leave
  have took : Took env before [] linked := writeNext_took link
  exact ⟨took.callocs, took.history⟩

theorem imlgenRecurse_took {fuel : Nat} {plans : List Plan} (loaded : before.Loaded code size)
    (planning : (wordsOf (code.drop pos.toNat)).map plan = plans.map some)
    (run : Returns (imlgenRecurse env fuel pos) before handle after) :
    Took env before (plans.flatMap Plan.requests) after := by
  induction fuel generalizing before after pos handle plans with
  | zero => exact absurd run returns_throw
  | succ fuel ih =>
      obtain ⟨result, decoded, pushed, next, followed, entered, follow, leave⟩ :=
        imlgenRecurse_returns.mp run
      obtain ⟨word, planned, load, found, took⟩ := enterCall_took entered
      have rest := enterCall_closed rest_closed entered
      have buffer : poolGetdata before.program.armPool pos = code.drop pos.toNat := by
        rw [loaded.armPool, poolGetdata]
      have capacity : before.program.armPool.allocSize = size := by rw [loaded.armPool]
      rw [buffer] at load
      rw [followCall_returns, capacity] at follow
      obtain ⟨enough, words⟩ := loadWord_wordsOf load
      rw [List.length_drop, loaded.length] at enough
      have range := size.isLt
      have advanced : (pos + 4).toNat = pos.toNat + 4 := by
        rw [BitVec.toNat_add]
        change (pos.toNat + 4) % 2 ^ 32 = _
        omega
      rw [words, List.drop_drop, ← advanced, List.map_cons, found] at planning
      cases plans with
      | nil => cases planning
      | cons first plans =>
          obtain ⟨same, later⟩ := List.cons.inj planning
          cases same
          rw [List.flatMap_cons, ← List.append_nil (plans.flatMap Plan.requests)]
          refine took.trans (Took.trans ?_ (leaveCall_took leave))
          split at follow
          · obtain ⟨middle, set, nested, -, rfl⟩ := follow
            have deeper := ih ⟨rest.armPool.trans loaded.armPool, loaded.length⟩ later nested
            exact ⟨deeper.callocs, deeper.history⟩
          · rename_i last
            obtain ⟨-, rfl⟩ := follow
            have finished : code.drop (pos + 4).toNat = [] := by
              have less : ¬ (pos + 4).toNat < size.toNat := last
              rw [List.drop_eq_nil_iff, loaded.length]
              omega
            rw [finished] at later
            cases plans with
            | nil => exact .of_same rfl rfl
            | cons first plans => cases later

end Took

section Space

variable {env : Environment} {arena : Arena} {plans : List Plan} {fuel : Nat} {code : List U8} {size : U32}
  {machine : Machine} {sizes : List Nat}

theorem pushesOf_reserves (env : Environment) (callocs : Nat) (small : ∀ size ∈ sizes, 0 < size ∧ size ≤ 48) :
    (pushesOf env callocs sizes).map reserves = sizes ∧
      ∀ op ∈ pushesOf env callocs sizes, Modest op ∧ reserves op ≤ 48 := by
  induction sizes generalizing callocs with
  | nil => exact ⟨rfl, fun op member => absurd member List.not_mem_nil⟩
  | cons size sizes ih =>
      obtain ⟨⟨positive, few⟩, small⟩ := List.forall_mem_cons.mp small
      obtain ⟨same, each⟩ := ih (callocs + 1) small
      have width : (poolReserve (BitVec.ofNat 32 size) 0).toNat = size := by
        rw [poolReserve_zero, BitVec.toNat_ofNat, Nat.mod_eq_of_lt (by omega)]
      refine ⟨?_, List.forall_mem_cons.mpr ⟨⟨?_, ?_⟩, each⟩⟩
      · rw [pushesOf, List.map_cons, same]
        exact congrArg (· :: sizes) width
      · rintro reserved ⟨⟩
        rw [width]
        omega
      · exact Nat.le_trans (Nat.le_of_eq width) few

theorem requestsOf_positive (words : List U32) : ∀ request ∈ requestsOf words, 0 < request := by
  intro request member
  obtain ⟨word, _, asked⟩ := List.mem_flatMap.mp member
  cases found : plan word with
  | none =>
      rw [found] at asked
      exact absurd asked List.not_mem_nil
  | some planned =>
      rw [found, Option.map_some, Option.getD_some] at asked
      have positive : ∀ request ∈ planned.requests, 0 < request := by
        rcases plan_requests found with same | same | same | same <;> rw [same] <;> decide
      exact positive request asked

/-- What is placed takes its room. -/
theorem layPlans_used (placed : Placed env plans arena) :
    arena.used + 48 * plans.length ≤ (layPlans env plans arena).2.used := by
  induction plans generalizing arena with
  | nil => exact Nat.le_refl _
  | cons first plans ih =>
      obtain ⟨granted, placed⟩ := placed
      have rest := ih placed
      have operands : arena.used ≤ (first.lay env arena).2.used :=
        (Keeps.of_extends (Tree.lay_extends first.tree)).used_le
      have stored : (first.store env arena).2.used = (first.lay env arena).2.used + 48 :=
        Arena.push_used granted
      rw [layPlans, Arena.link_used, List.length_cons]
      omega

/-- The pushes of the words, with the answers that `calloc` has for them. -/
def programPushes (env : Environment) (words : List U32) : List (PoolOp Nat × Bool) :=
  pushesOf env 2 (requestsOf words)

/-- The pool that `imlgen` opens. -/
def programPool (env : Environment) (words : List U32) : Pool Nat :=
  poolOpen (env.calloc 0) (BitVec.ofNat 32 (48 * words.length))

/-- The sizes of a program of these words. -/
structure Space (env : Environment) (words : List U32) (machine : Machine) : Prop where
  /-- The pool is what the pushes make of the one that was opened, its contents aside. -/
  history : runHistory growStep (programPool env words) (programPushes env words) = .ok machine.sizes.1
  instructions : 48 * words.length ≤ machine.program.imlPool.pos.toNat
  operands : machine.program.imlPool.pos.toNat ≤ 192 * words.length
  room : machine.program.imlPool.pos < machine.program.imlPool.allocSize
  capacity : machine.program.imlPool.allocSize.toNat ≤ 288 * words.length + 72
  outgrown : 1 ≤ totalCost growStep moved (programPool env words) (programPushes env words)
  moves : totalCost growStep moved (programPool env words) (programPushes env words) ≤ 4
  copies : totalCost growStep copied (programPool env words) (programPushes env words) ≤
    480 * words.length + 144

/-- Five moves would make the buffer seven times as large. -/
theorem moves_few {count initial final moves : Nat} (positive : 0 < count) (opened : initial = 48 * count)
    (capacity : final ≤ 288 * count + 72) (grown : initial * 3 ^ moves ≤ final * 2 ^ moves) : moves ≤ 4 := by
  by_contra many
  obtain ⟨more, rfl⟩ := Nat.exists_eq_add_of_le (show 5 ≤ moves by omega)
  have powers : 2 ^ more ≤ 3 ^ more := Nat.pow_le_pow_left (by decide) more
  have small : final * 32 < initial * 243 := by omega
  refine absurd grown (Nat.not_le.mpr ?_)
  calc final * 2 ^ (5 + more) = final * 32 * 2 ^ more := by rw [Nat.pow_add, Nat.mul_assoc]
    _ ≤ final * 32 * 3 ^ more := Nat.mul_le_mul_left _ powers
    _ < initial * 243 * 3 ^ more := Nat.mul_lt_mul_of_pos_right small (Nat.pow_pos (by decide))
    _ = initial * 3 ^ (5 + more) := by rw [Nat.pow_add, Nat.mul_assoc]

theorem programPushes_small (env : Environment) (words : List U32) :
    ((programPushes env words).map reserves).sum ≤ 192 * words.length ∧
      ∀ op ∈ programPushes env words, Modest op ∧ reserves op ≤ 48 := by
  obtain ⟨small, sum⟩ := requestsOf_small words
  obtain ⟨reserved, each⟩ := pushesOf_reserves env 2 fun request member =>
    ⟨requestsOf_positive words request member, small request member⟩
  exact ⟨by rw [programPushes, reserved]; exact sum, each⟩

/-- A program's pool has the sizes of one that takes nothing but the pushes. -/
theorem imlgen_history (length : code.length = size.toNat) (planning : (wordsOf code).map plan = plans.map some)
    (run : imlgen env fuel code size = .ok machine) :
    runHistory growStep (programPool env (wordsOf code)) (programPushes env (wordsOf code)) =
      .ok machine.sizes.1 := by
  obtain ⟨handle, recursion⟩ := imlgen_recursion run
  have whole : (wordsOf (code.drop (0 : PoolHandle).toNat)).map plan = plans.map some := planning
  have took := (imlgenRecurse_took ⟨rfl, length⟩ whole recursion).history
  rw [← requestsOf_planned planning] at took
  have zeros (succeeds : Bool) (count : Nat) :
      (calloc succeeds count : List (Cell Stored)).map (fun _ => (0 : Nat)) = calloc succeeds count := by
    cases succeeds <;> simp [calloc]
  have first : (Machine.initial env code size).sizes.1 = programPool env (wordsOf code) := by
    simp only [Machine.sizes, Machine.initial, Pool.map, poolOpen, programPool, numInstrs_words length, zeros]
  rwa [first] at took

/-- What a program of n words takes, whatever the words are and whatever `calloc` answers: from 48 n to
192 n bytes in a buffer of at most 288 n + 72, which was moved at least once and at most four times. -/
theorem imlgen_space (length : code.length = size.toNat) (run : imlgen env fuel code size = .ok machine) :
    Space env (wordsOf code) machine := by
  obtain ⟨plans, planning, nonempty, placed, models, -⟩ := imlgen_models length run
  have count : (wordsOf code).length = plans.length := by
    have lengths := congrArg List.length planning
    rwa [List.length_map, List.length_map] at lengths
  have positive : 0 < (wordsOf code).length := by
    rw [count]
    exact List.length_pos_iff.mpr nonempty
  have instructions : 48 * (wordsOf code).length ≤ machine.program.imlPool.pos.toNat := by
    have used := layPlans_used placed
    rw [count, models.pos.2]
    exact Nat.le_trans (Nat.le_add_left ..) used
  have range := machine.program.imlPool.pos.isLt
  have opened : (programPool env (wordsOf code)).allocSize.toNat = 48 * (wordsOf code).length := by
    rw [programPool, poolOpen, BitVec.toNat_ofNat, Nat.mod_eq_of_lt (by omega)]
  have start : (programPool env (wordsOf code)).pos.toNat = 0 := rfl
  have history := imlgen_history length planning run
  obtain ⟨asked, each⟩ := programPushes_small env (wordsOf code)
  have modest : ∀ op ∈ programPushes env (wordsOf code), Modest op := fun op member => (each op member).1
  have within : (programPool env (wordsOf code)).Within := Nat.zero_le _
  have high := position_le history
  rw [start] at high
  have operands := read_final_le_peak (fun pool : Pool Nat => pool.pos.toNat) history
  have room : machine.sizes.1.pos < machine.sizes.1.allocSize := by
    refine room_kept modest ?_ history
    rw [BitVec.lt_def, opened]
    exact Nat.mul_pos (by decide) positive
  have capacity := capacity_le within modest (fun op member => (each op member).2) history (Nat.le_refl _)
  have copies := copies_le within modest history
  rw [opened] at capacity copies
  -- the sizes of the machine are those of its pool
  change machine.program.imlPool.pos.toNat ≤ _ at operands
  change machine.program.imlPool.allocSize.toNat ≤ _ at capacity
  change _ ≤ 2 * machine.program.imlPool.allocSize.toNat at copies
  have bound : machine.program.imlPool.allocSize.toNat ≤ 288 * (wordsOf code).length + 72 := by omega
  have larger : machine.sizes.1.allocSize ≠ (programPool env (wordsOf code)).allocSize := by
    intro same
    have equal := congrArg BitVec.toNat same
    rw [opened] at equal
    have above : machine.program.imlPool.pos.toNat < machine.sizes.1.allocSize.toNat := room
    omega
  exact {
    history, instructions, room
    operands := by omega
    capacity := bound
    outgrown := moved_of_resized within modest history larger
    moves := moves_few positive opened bound (moves_le within modest history)
    copies := by omega }

end Space

/-- One `ORN` with a shift: 192 bytes, and two moves. -/
theorem imlgen_space_orn : ∃ machine, imlgen .calm 1 [0x20, 0x04, 0x22, 0xAA] 4 = .ok machine ∧
    Space .calm [0xAA220420] machine ∧
    totalCost growStep moved (programPool .calm [0xAA220420]) (programPushes .calm [0xAA220420]) = 2 := by
  obtain ⟨machine, run⟩ := eq_ok_of_isOk
    (show (imlgen .calm 1 [0x20, 0x04, 0x22, 0xAA] 4).isOk = true by decide +kernel)
  exact ⟨machine, run, imlgen_space rfl run, by decide +kernel⟩

end Koshka.Iml
