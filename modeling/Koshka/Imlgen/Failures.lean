import Koshka.Imlgen.Calls
import Koshka.Imlgen.Walk

namespace Koshka.Iml

open Data

/-! What becomes of a push that fails.

Where `calloc` fails, `pool_push` returns a handle that is no position of the pool.  Its callers use
it like any other handle: it gets into the operands of expressions and into the links between
instructions, and the run goes on.
-/

/-- The pushes that building a tree makes, and the machine that each is made in. -/
inductive Tree.Pushes (env : Environment) : Tree → Machine → Machine → Stored → Prop
  | inLeft {op : MathOp} {left right : Tree} {before machine : Machine} {object : Stored}
      (pushes : left.Pushes env before machine object) :
      (node op left right).Pushes env before machine object
  | inRight {op : MathOp} {left right : Tree} {before middle machine : Machine} {leftExpr : Expression}
      {object : Stored} (runLeft : Returns (left.build env) before leftExpr middle)
      (pushes : right.Pushes env middle machine object) :
      (node op left right).Pushes env before machine object
  | left {op : MathOp} {left right : Tree} {before middle built : Machine}
      {leftExpr rightExpr : Expression}
      (runLeft : Returns (left.build env) before leftExpr middle)
      (runRight : Returns (right.build env) middle rightExpr built) :
      (node op left right).Pushes env before built (.expression leftExpr)
  | right {op : MathOp} {left right : Tree} {before middle built pushed : Machine}
      {leftExpr rightExpr : Expression} {handle : PoolHandle}
      (runLeft : Returns (left.build env) before leftExpr middle)
      (runRight : Returns (right.build env) middle rightExpr built)
      (pushLeft : Returns (pushStored env (.expression leftExpr)) built handle pushed) :
      (node op left right).Pushes env before pushed (.expression rightExpr)

/-- No push of the tree returns the invalid handle. -/
def Tree.Granted (env : Environment) (tree : Tree) (before : Machine) : Prop :=
  ∀ machine object handle after, tree.Pushes env before machine object →
    Returns (pushStored env object) machine handle after → handle ≠ poolInvalidHandle

/-- What a run does with its pools and with the handles into them. -/
inductive PoolUse where
  /-- The word of a call is read. -/
  | getdata (handle : PoolHandle)
  | push (object : Stored)
  /-- An instruction is looked up to store the handle of the next one. -/
  | link (handle next : PoolHandle)
deriving Repr, DecidableEq

/-- What happens in a run, whether it returns or not, and the machine that it happens in. -/
inductive Happens (env : Environment) (start : Machine) : Machine → PoolUse → Prop
  | getdata {index : Nat} {pos : PoolHandle} {before : Machine}
      (called : Called env start index pos before) : Happens env start before (.getdata pos)
  | operand {index : Nat} {pos : PoolHandle} {before machine : Machine} {word : U32} {planned : Plan}
      {object : Stored} (called : Called env start index pos before)
      (loaded : loadWord (poolGetdata before.program.armPool pos) = .ok word)
      (found : plan word = some planned)
      (pushes : planned.tree.Pushes env { before with trace := before.trace ++ [.called pos] } machine object) :
      Happens env start machine (.push object)
  | instruction {index : Nat} {pos : PoolHandle} {before built : Machine} {word : U32}
      {result : DecodeResult} (called : Called env start index pos before)
      (loaded : loadWord (poolGetdata before.program.armPool pos) = .ok word)
      (decoding : Returns (decode env word) { before with trace := before.trace ++ [.called pos] } result built) :
      Happens env start built (.push (.instruction result.instr))
  | link {index fuel : Nat} {pos decoded next : PoolHandle} {before pushed followed : Machine}
      {result : DecodeResult} (called : Called env start index pos before)
      (entered : Returns (enterCall env pos) before (result, decoded) pushed)
      (follow : Returns (followCall env fuel before.program.armPool.allocSize pos result.instr.next) pushed
        next followed) : Happens env start followed (.link decoded next)

/-- No push of the run returns the invalid handle. -/
def Granted (env : Environment) (start : Machine) : Prop :=
  ∀ machine object handle after, Happens env start machine (.push object) →
    Returns (pushStored env object) machine handle after → handle ≠ poolInvalidHandle

def Expression.handles (expr : Expression) : List PoolHandle :=
  match expr.payload with
  | .expr node => [node.left, node.right]
  | .value _ => []

def Instruction.handles (instr : Instruction) : List PoolHandle :=
  match instr.payload with
  | .math math => math.expr.handles ++ [instr.next]
  | .branch _ => [instr.next]

def Stored.handles : Stored → List PoolHandle
  | .expression expr => expr.handles
  | .instruction instr => instr.handles

/-- The `calloc` of the push fails. -/
def Machine.Refuses (env : Environment) (machine : Machine) (object : Stored) : Prop :=
  poolCanHold machine.program.imlPool (.ofNat 32 object.size) = false ∧
    machine.program.imlPool.allocSize < poolNewsize machine.program.imlPool (.ofNat 32 object.size) ∧
    env.calloc machine.callocs = false

/-- The handle of a failed push is neither stored nor looked up. -/
def PoolUse.Clean (env : Environment) (machine : Machine) : PoolUse → Prop
  | .getdata handle => handle ≠ poolInvalidHandle
  | .push object => ∀ handle after, Returns (pushStored env object) machine handle after →
      handle ≠ poolInvalidHandle → poolInvalidHandle ∉ object.handles
  | .link handle next => handle ≠ poolInvalidHandle ∧ next ≠ poolInvalidHandle

/-- No failed allocation reaches the IML. -/
structure FailuresNoticed (env : Environment) (start : Machine) : Prop where
  clean : ∀ machine use, Happens env start machine use → use.Clean env machine
  unchanged : ∀ machine object after, Happens env start machine (.push object) →
    Returns (pushStored env object) machine poolInvalidHandle after →
    after.program.imlPool = machine.program.imlPool
  /-- The run ends there: nothing more is done with the pools. -/
  noticed : ∀ machine object after, Happens env start machine (.push object) →
    Returns (pushStored env object) machine poolInvalidHandle after →
    ∀ later use, Happens env start later use → later.callocs ≤ machine.callocs

section Failures

variable {env : Environment} {start before machine after built pushed : Machine} {tree : Tree}
  {object : Stored} {expr : Expression} {handle pos decoded : PoolHandle} {index : Nat}
  {result : DecodeResult}

theorem pushStored_callocs (push : Returns (pushStored env object) machine handle after) :
    after.callocs = machine.callocs + 1 := by
  obtain ⟨_, _, rfl⟩ := pushStored_returns.mp push
  rfl

/-- The machine is a later one of the same run. -/
theorem callocs_closed : PushClosed env fun before after => before.callocs ≤ after.callocs where
  refl _ := Nat.le_refl _
  trans := Nat.le_trans
  push push := by
    rw [pushStored_callocs push]
    exact Nat.le_succ _
  slot _ _ := Nat.le_refl _

def Machine.Aligned (machine : Machine) : Prop := machine.program.imlPool.pos.toNat % 8 = 0

theorem aligned_closed : PushClosed env fun before after => before.Aligned → after.Aligned where
  refl _ := id
  trans one two aligned := two (one aligned)
  push push aligned := by
    rename_i object handle before after
    obtain ⟨pool, pushed, rfl⟩ := pushStored_returns.mp push
    rw [Machine.Aligned] at aligned ⊢
    rcases poolPush_handle pushed with ⟨-, rfl⟩ | ⟨-, moved⟩
    · exact aligned
    · change pool.pos.toNat % 8 = 0
      rw [moved, poolReserve_zero, BitVec.toNat_add, object.size_toNat]
      cases object with
      | expression expr =>
          change (_ + 24) % 2 ^ 32 % 8 = 0
          omega
      | instruction instr =>
          change (_ + 48) % 2 ^ 32 % 8 = 0
          omega
  slot _ _ := id

theorem Machine.Aligned.valid (aligned : machine.Aligned) :
    machine.program.imlPool.pos ≠ poolInvalidHandle := by
  intro same
  rw [Machine.Aligned, same] at aligned
  cases aligned

theorem pushStored_refused (refuses : machine.Refuses env object) :
    Returns (pushStored env object) machine poolInvalidHandle
      { machine with callocs := machine.callocs + 1 } := by
  obtain ⟨full, larger, fails⟩ := refuses
  refine pushStored_returns.mpr ⟨machine.program.imlPool, ?_, rfl⟩
  rw [poolPush, poolReserve_zero, full, poolGrow, fails, if_pos larger]
  rfl

/-- A push whose `calloc` does not fail returns a position of the pool, if it returns. -/
theorem pushStored_valid (aligned : machine.Aligned) (granted : ¬ machine.Refuses env object)
    (push : Returns (pushStored env object) machine handle after) : handle ≠ poolInvalidHandle := by
  obtain ⟨pool, pushed, -⟩ := pushStored_returns.mp push
  rw [poolPush, poolReserve_zero] at pushed
  have position : handle = machine.program.imlPool.pos := by
    cases held : poolCanHold machine.program.imlPool (.ofNat 32 object.size) with
    | true =>
        rw [held] at pushed
        obtain ⟨_, _, stored⟩ := bind_eq_ok.mp pushed
        cases stored
        rfl
    | false =>
        rw [held] at pushed
        obtain ⟨grown, growth, stored⟩ := bind_eq_ok.mp pushed
        rw [poolGrow] at growth
        split at growth
        · rename_i larger
          cases answer : env.calloc machine.callocs with
          | true =>
              rw [answer] at growth
              obtain ⟨_, _, copied⟩ := bind_eq_ok.mp growth
              cases copied
              obtain ⟨_, _, returned⟩ := bind_eq_ok.mp stored
              cases returned
              rfl
          | false => exact absurd ⟨held, larger, answer⟩ granted
        · cases growth
  rw [position]
  exact aligned.valid

theorem pushStored_unchanged (aligned : machine.Aligned)
    (push : Returns (pushStored env object) machine poolInvalidHandle after) :
    after.program.imlPool = machine.program.imlPool := by
  obtain ⟨pool, pushed, rfl⟩ := pushStored_returns.mp push
  rcases poolPush_handle pushed with ⟨-, same⟩ | ⟨position, -⟩
  · exact same
  · exact absurd position.symm aligned.valid

theorem Tree.Pushes.closed {Step : Machine → Machine → Prop} (closed : PushClosed env Step)
    (pushes : tree.Pushes env before machine object) : Step before machine := by
  induction pushes with
  | inLeft pushes ih => exact ih
  | inRight runLeft pushes ih => exact closed.trans (Tree.build_closed closed runLeft) ih
  | left runLeft runRight =>
      exact closed.trans (Tree.build_closed closed runLeft) (Tree.build_closed closed runRight)
  | right runLeft runRight pushLeft =>
      exact closed.trans (Tree.build_closed closed runLeft)
        (closed.trans (Tree.build_closed closed runRight) (closed.push pushLeft))

/-- Building a tree stops only where one of its pushes does. -/
theorem Tree.build_fails {fault : Fault} (failed : Fails (tree.build env) before fault) :
    ∃ machine object, tree.Pushes env before machine object ∧
      Fails (pushStored env object) machine fault := by
  induction tree generalizing before with
  | value operand => exact absurd failed not_fails_pure
  | blank => exact absurd failed not_fails_pure
  | node op left right ihLeft ihRight =>
      simp only [Tree.build, operatorExpression, fails_bind, not_fails_get, not_fails_set, not_fails_pure,
        and_false, exists_false, or_false] at failed
      rcases failed with failed | ⟨leftExpr, middle, runLeft,
        failed | ⟨rightExpr, built, runRight, failed⟩⟩
      · obtain ⟨machine, object, pushes, refused⟩ := ihLeft failed
        exact ⟨machine, object, .inLeft pushes, refused⟩
      · obtain ⟨machine, object, pushes, refused⟩ := ihRight failed
        exact ⟨machine, object, .inRight runLeft pushes, refused⟩
      · rcases failed with failed | ⟨leftHandle, stored, pushLeft, failed⟩
        · exact ⟨_, _, .left runLeft runRight, failed⟩
        · exact ⟨_, _, .right runLeft runRight pushLeft, failed⟩

/-- Whatever a push returns, the next one follows, or the tree is done. -/
theorem Tree.Pushes.goes_on (pushes : tree.Pushes env before machine object)
    (push : Returns (pushStored env object) machine handle after) :
    (∃ later other, tree.Pushes env before later other ∧ machine.callocs < later.callocs) ∨
      ∃ expr built, Returns (tree.build env) before expr built ∧ machine.callocs < built.callocs := by
  induction pushes with
  | inLeft pushes ih =>
      rename_i op left right before machine object
      rcases ih push with ⟨later, other, more, follows⟩ | ⟨leftExpr, middle, runLeft, follows⟩
      · exact Or.inl ⟨later, other, .inLeft more, follows⟩
      · left
        rcases returns_or_fails (right.build env) middle with ⟨rightExpr, built,
          runRight⟩ | ⟨fault, failed⟩
        · have grown := Tree.build_closed callocs_closed runRight
          exact ⟨_, _, .left runLeft runRight, Nat.lt_of_lt_of_le follows grown⟩
        · obtain ⟨later, other, more, -⟩ := Tree.build_fails failed
          exact ⟨_, _, .inRight runLeft more, Nat.lt_of_lt_of_le follows (more.closed callocs_closed)⟩
  | inRight runLeft pushes ih =>
      rcases ih push with ⟨later, other, more, follows⟩ | ⟨rightExpr, built, runRight, follows⟩
      · exact Or.inl ⟨later, other, .inRight runLeft more, follows⟩
      · exact Or.inl ⟨_, _, .left runLeft runRight, follows⟩
  | left runLeft runRight =>
      have next := pushStored_callocs push
      exact Or.inl ⟨_, _, .right runLeft runRight push, by omega⟩
  | right runLeft runRight pushLeft =>
      have next := pushStored_callocs push
      refine Or.inr ⟨_, _, Tree.node_returns.mpr ⟨_, _, _, _, runLeft, runRight,
        operatorExpression_returns.mpr ⟨_, _, _, _, pushLeft, push, rfl, rfl⟩⟩, ?_⟩
      change _ < after.callocs
      omega

theorem Tree.Granted.inLeft {op : MathOp} {left right : Tree}
    (granted : (Tree.node op left right).Granted env before) : left.Granted env before :=
  fun machine object handle after pushes => granted machine object handle after (.inLeft pushes)

theorem Tree.Granted.inRight {op : MathOp} {left right : Tree} {middle : Machine}
    (granted : (Tree.node op left right).Granted env before)
    (runLeft : Returns (left.build env) before expr middle) : right.Granted env middle :=
  fun machine object handle after pushes => granted machine object handle after (.inRight runLeft pushes)

/-- The operands of a tree are at the handles that its pushes return. -/
theorem Tree.Granted.build (granted : tree.Granted env before)
    (run : Returns (tree.build env) before expr after) : poolInvalidHandle ∉ expr.handles := by
  cases tree with
  | value operand =>
      obtain ⟨rfl, -⟩ := returns_pure.mp run
      exact List.not_mem_nil
  | blank =>
      obtain ⟨rfl, -⟩ := returns_pure.mp run
      decide
  | node op left right =>
      obtain ⟨_, _, _, _, runLeft, runRight, runNode⟩ := Tree.node_returns.mp run
      obtain ⟨_, _, _, _, pushLeft, pushRight, rfl, -⟩ := operatorExpression_returns.mp runNode
      have leftValid := granted _ _ _ _ (.left runLeft runRight) pushLeft
      have rightValid := granted _ _ _ _ (.right runLeft runRight pushLeft) pushRight
      intro member
      rcases List.mem_cons.mp member with same | member
      · exact leftValid same.symm
      · exact rightValid (List.mem_singleton.mp member).symm

theorem Tree.Granted.pushes (granted : tree.Granted env before)
    (pushes : tree.Pushes env before machine object) : poolInvalidHandle ∉ object.handles := by
  induction pushes with
  | inLeft pushes ih => exact ih granted.inLeft
  | inRight runLeft pushes ih => exact ih (granted.inRight runLeft)
  | left runLeft runRight => exact granted.inLeft.build runLeft
  | right runLeft runRight pushLeft => exact (granted.inRight runLeft).build runRight

theorem withExpr_handles (instr : Instruction) (expr : Expression)
    (absent : poolInvalidHandle ∉ expr.handles)
    (last : instr.next ≠ poolInvalidHandle) : poolInvalidHandle ∉ (instr.withExpr expr).handles := by
  rw [Instruction.withExpr]
  split
  · intro member
    rcases List.mem_append.mp member with inside | next
    · exact absent inside
    · exact last (List.mem_singleton.mp next).symm
  · rename_i branch payload
    rw [Instruction.handles, payload]
    exact fun member => last (List.mem_singleton.mp member).symm

theorem decode_next {word : U32} (decoding : Returns (decode env word) before result after) :
    result.instr.next = 0 := by
  obtain ⟨planned, found, building⟩ := decode_returns.mp decoding
  obtain ⟨expr, -, rfl⟩ := Plan.build_returns.mp building
  have kept : (planned.instr.withExpr expr).next = planned.instr.next := by
    rw [Instruction.withExpr]
    split <;> rfl
  exact kept.trans (plan_next found)

theorem Called.aligned (aligned : start.Aligned) (called : Called env start index pos before) :
    before.Aligned := by
  induction called with
  | first => exact aligned
  | next called entered more ih => exact enterCall_closed aligned_closed entered ih

theorem Happens.aligned (aligned : start.Aligned) (happens : Happens env start machine (.push object)) :
    machine.Aligned := by
  cases happens with
  | operand called loaded found pushes =>
      have reached := called.aligned aligned
      exact pushes.closed aligned_closed reached
  | instruction called loaded decoding =>
      have reached := called.aligned aligned
      exact decode_closed aligned_closed decoding reached

/-- A run takes no notice of what a push returns. -/
theorem Happens.goes_on (happens : Happens env start machine (.push object))
    (push : Returns (pushStored env object) machine handle after) :
    ∃ later use, Happens env start later use ∧ machine.callocs < later.callocs := by
  have next := pushStored_callocs push
  cases happens with
  | operand called loaded found pushes =>
      rename_i index pos before word planned
      rcases pushes.goes_on push with ⟨later, other, more, follows⟩ | ⟨expr, built, building, follows⟩
      · exact ⟨_, _, .operand called loaded found more, follows⟩
      · have planning : Returns (planned.build env) { before with trace := before.trace ++ [.called pos] }
            { instr := planned.instr.withExpr expr } built := Plan.build_returns.mpr ⟨expr, building, rfl⟩
        exact ⟨_, _, .instruction called loaded (decode_returns.mpr ⟨_, found, planning⟩), follows⟩
  | instruction called loaded decoding =>
      rename_i index pos before word result
      have entered := enterCall_returns.mpr ⟨_, _, loaded, decoding, push⟩
      by_cases more : pos + 4 < before.program.armPool.allocSize
      · exact ⟨_, _, .getdata (.next called entered more), by omega⟩
      · have follow : Returns (followCall env 0 before.program.armPool.allocSize pos result.instr.next) after
            result.instr.next after := by
          rw [followCall_returns, if_neg more]
          exact ⟨rfl, rfl⟩
        exact ⟨_, _, .link called entered follow, by omega⟩

theorem Granted.operands {word : U32} {planned : Plan} (granted : Granted env start)
    (called : Called env start index pos before)
    (loaded : loadWord (poolGetdata before.program.armPool pos) = .ok word)
    (found : plan word = some planned) :
    planned.tree.Granted env { before with trace := before.trace ++ [.called pos] } :=
  fun machine object handle after pushes =>
    granted machine object handle after (.operand called loaded found pushes)

theorem Granted.stored (granted : Granted env start) (called : Called env start index pos before)
    (entered : Returns (enterCall env pos) before (result, decoded) pushed) :
    decoded ≠ poolInvalidHandle := by
  obtain ⟨word, built, loaded, decoding, push⟩ := enterCall_returns.mp entered
  exact granted _ _ _ _ (.instruction called loaded decoding) push

theorem Granted.instruction {word : U32} (granted : Granted env start)
    (called : Called env start index pos before)
    (loaded : loadWord (poolGetdata before.program.armPool pos) = .ok word)
    (decoding : Returns (decode env word) { before with trace := before.trace ++ [.called pos] } result
      built) : poolInvalidHandle ∉ result.instr.handles := by
  obtain ⟨planned, found, building⟩ := decode_returns.mp decoding
  obtain ⟨expr, tree, rfl⟩ := Plan.build_returns.mp building
  have unlinked : planned.instr.next ≠ poolInvalidHandle := by
    rw [plan_next found]
    decide
  exact withExpr_handles planned.instr expr ((granted.operands called loaded found).build tree) unlinked

/-- The next instruction is the one that the nested call has stored. -/
theorem Granted.next {fuel : Nat} {next : PoolHandle} {followed : Machine} (granted : Granted env start)
    (called : Called env start index pos before)
    (entered : Returns (enterCall env pos) before (result, decoded) pushed)
    (follow : Returns (followCall env fuel before.program.armPool.allocSize pos result.instr.next) pushed
      next followed) : next ≠ poolInvalidHandle := by
  rw [followCall_returns] at follow
  split at follow
  · rename_i more
    obtain ⟨middle, _, nested, -, -⟩ := follow
    cases fuel with
    | zero => exact absurd nested returns_throw
    | succ fuel =>
        obtain ⟨_, _, _, _, _, again, _, leave⟩ := imlgenRecurse_returns.mp nested
        obtain ⟨same, -⟩ := leaveCall_returns.mp leave
        rw [same]
        exact granted.stored (.next called entered more) again
  · obtain ⟨last, -⟩ := follow
    obtain ⟨_, _, _, decoding, _⟩ := enterCall_returns.mp entered
    rw [last, decode_next decoding]
    decide

/-- Where no push returns the invalid handle, nothing else makes one. -/
theorem Happens.clean {code : List U8} {size : U32} {use : PoolUse} (positive : 0 < size)
    (granted : Granted env (.initial env code size))
    (happens : Happens env (.initial env code size) machine use) : use.Clean env machine := by
  cases happens with
  | getdata called =>
      intro same
      have place := (called.position positive).1
      rw [same] at place
      change 2 ^ 32 - 1 = _ at place
      omega
  | operand called loaded found pushes =>
      exact fun _ _ _ _ => (granted.operands called loaded found).pushes pushes
  | instruction called loaded decoding => exact fun _ _ _ _ => granted.instruction called loaded decoding
  | link called entered follow =>
      exact ⟨granted.stored called entered, granted.next called entered follow⟩

end Failures

/-- No failed allocation reaches the IML if and only if no push of the run has its `calloc` fail. -/
theorem failures_noticed_iff (env : Environment) (code : List U8) (size : U32) (positive : 0 < size) :
    FailuresNoticed env (.initial env code size) ↔
      ∀ machine object, Happens env (.initial env code size) machine (.push object) →
        ¬ machine.Refuses env object := by
  have aligned : (Machine.initial env code size).Aligned := rfl
  constructor
  · intro noticed machine object happens refuses
    have push := pushStored_refused refuses
    obtain ⟨later, use, happened, follows⟩ := happens.goes_on push
    exact absurd (noticed.noticed machine object _ happens push later use happened) (Nat.not_le.mpr follows)
  · intro granted
    have valid : Granted env (.initial env code size) := fun machine object handle after happens push =>
      pushStored_valid (happens.aligned aligned) (granted machine object happens) push
    refine ⟨?_, ?_, ?_⟩
    · intro machine use happens
      exact happens.clean positive valid
    · intro machine object after happens push
      exact pushStored_unchanged (happens.aligned aligned) push
    · intro machine object after happens push
      exact absurd rfl (valid machine object _ after happens push)

theorem failures_noticed_iff_branch : FailuresNoticed .calm (.initial .calm [2, 0, 0, 0x14] 4) ↔
    ∀ machine object, Happens .calm (.initial .calm [2, 0, 0, 0x14] 4) machine (.push object) →
      ¬ machine.Refuses .calm object :=
  failures_noticed_iff .calm [2, 0, 0, 0x14] 4 (by decide)

/-- The push of the second operand of an `add` is the one whose `calloc` fails. -/
def oneFailure : Environment where
  calloc count := count != 3
  stale _ := false

/-- The `add` is stored all the same, with the invalid handle for its second operand. -/
theorem failures_noticed_fails_add :
    (∃ machine instr math node, imlgen oneFailure 1 [0x20, 4, 0, 0x91] 4 = .ok machine ∧
      instructionAt machine.program.imlPool 24 = some instr ∧ instr.payload = .math math ∧
      math.expr.payload = .expr node ∧ node.right = poolInvalidHandle) ∧
    ¬ FailuresNoticed oneFailure (.initial oneFailure [0x20, 4, 0, 0x91] 4) := by
  refine ⟨⟨_, _, _, _, rfl, rfl, rfl, rfl, rfl⟩, fun noticed => ?_⟩
  have decoding : ∃ result built, Returns (decode oneFailure 0x91000420)
      { Machine.initial oneFailure [0x20, 4, 0, 0x91] 4 with trace := [.called 0] } result built ∧
      poolInvalidHandle ∈ result.instr.handles ∧
      ∃ after, Returns (pushStored oneFailure (.instruction result.instr)) built 24 after :=
    ⟨_, _, rfl, by decide, _, rfl⟩
  obtain ⟨result, built, decoding, member, after, push⟩ := decoding
  have happens := Happens.instruction .first rfl decoding
  exact noticed.clean built _ happens 24 after push (by decide) member

end Koshka.Iml
