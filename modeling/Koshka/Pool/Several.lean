import Koshka.Data.Interleave
import Koshka.Pool.Shared

namespace Koshka.Shared

open Data

inductive PoolCall (α : Type) where
  | poolOpen (initSize : PoolSize)
  | poolClose
  | poolPush (data : List α) (dataSize allocSize : PoolSize)
  | poolDrain
deriving Repr, DecidableEq

/-- A variable for a pool, and the handles that have been returned for what it holds. -/
structure Holder where
  pool : PoolT
  handles : List PoolHandle
deriving Repr, DecidableEq

def Holder.wiped : Holder where
  pool := .wiped
  handles := []

section Calls

variable {α : Type}

def Holder.view (heap : Heap α) (holder : Holder) : Pool α × List PoolHandle :=
  (holder.pool.view heap, holder.handles)

variable [OfNat α 0]

def PoolCall.run (allocator : Allocator α) (holder : Holder) :
    PoolCall α → Command (Heap α) Fault Holder
  | .poolOpen initSize => do
      let pool ← Shared.poolOpen allocator initSize
      return { pool, handles := [] }
  | .poolClose => do
      let pool ← Shared.poolClose holder.pool
      return { pool, handles := [] }
  | .poolPush data dataSize allocSize => do
      let (handle, pool) ← Shared.poolPush allocator holder.pool data dataSize allocSize
      return { pool, handles := holder.handles ++ [handle] }
  | .poolDrain => do
      let pool ← Shared.poolDrain holder.pool
      return { pool, handles := [] }

/-- The call on a pool that is alone, with the answer that `calloc` gives if it is called. -/
def PoolCall.alone (state : Pool α × List PoolHandle) :
    PoolCall α × Bool → Except Fault (Pool α × List PoolHandle)
  | (.poolOpen initSize, succeeds) => .ok (Koshka.poolOpen succeeds initSize, [])
  | (.poolClose, _) => .ok ({ data := [], allocSize := 0, pos := 0 }, [])
  | (.poolPush data dataSize allocSize, succeeds) => do
      let (handle, pool) ← Koshka.poolPush succeeds state.1 data dataSize allocSize
      return (pool, state.2 ++ [handle])
  | (.poolDrain, _) => do
      let pool ← Koshka.poolDrain state.1
      return (pool, [])

/-- Whether the call gets the memory that it asks for. -/
def PoolCall.answer (allocator : Allocator α) (heap : Heap α) (pool : PoolT) : PoolCall α → Bool
  | .poolOpen initSize => (allocator.answer heap initSize.toNat).isSome
  | .poolPush _ dataSize allocSize =>
      (allocator.answer heap (poolNewsize pool (poolReserve dataSize allocSize)).toNat).isSome
  | .poolClose | .poolDrain => true

/-- Opening a pool takes no notice of what was in the variable. -/
def PoolCall.base (pool : PoolT) : PoolCall α → PoolT
  | .poolOpen _ => .wiped
  | .poolClose | .poolPush _ _ _ | .poolDrain => pool

end Calls

structure Pools (ι α : Type) where
  heap : Heap α
  holder : ι → Holder

section Runs

variable {ι α : Type}

def Pools.wiped : Pools ι α where
  heap := .empty
  holder _ := .wiped

def Pools.views (state : Pools ι α) (name : ι) : Pool α × List PoolHandle :=
  (state.holder name).view state.heap

def Pools.put [DecidableEq ι] (state : Pools ι α) (name : ι) (holder : Holder) (heap : Heap α) :
    Pools ι α where
  heap := heap
  holder := Function.update state.holder name holder

/-- Every pool has a live buffer of its own, or none. -/
structure Pools.Apart (state : Pools ι α) : Prop where
  valid : ∀ name, (state.holder name).pool.Valid state.heap
  apart : ∀ name other, name ≠ other → (state.holder name).pool.data ≠ 0 →
    (state.holder name).pool.data ≠ (state.holder other).pool.data

variable [OfNat α 0]

def runAlone (calls : List (PoolCall α × Bool)) : Except Fault (Pool α × List PoolHandle) :=
  runHistory PoolCall.alone ({ data := [], allocSize := 0, pos := 0 }, []) calls

variable [DecidableEq ι]

def stepPools (allocator : Allocator α) (state : Pools ι α) (call : ι × PoolCall α) :
    Except Fault (Pools ι α) := do
  let (holder, heap) ← (call.2.run allocator (state.holder call.1)).run state.heap
  return state.put call.1 holder heap

def runPools (allocator : Allocator α) (calls : List (ι × PoolCall α)) : Except Fault (Pools ι α) :=
  runHistory (stepPools allocator) .wiped calls

/-- The calls of a run up to the one that stops it, each with the allocator's answer to what it asks for
in the heap that it is made in. -/
def answered (allocator : Allocator α) : Pools ι α → List (ι × PoolCall α) → List (ι × PoolCall α × Bool)
  | _, [] => []
  | state, (name, call) :: calls =>
      (name, call, call.answer allocator state.heap (state.holder name).pool) ::
        match stepPools allocator state (name, call) with
        | .ok next => answered allocator next calls
        | .error _ => []

end Runs

section Steps

variable {ι α : Type} {heap after : Heap α} {holder next : Holder} {call : PoolCall α}
  {value : Pool α × List PoolHandle} {fault : Fault} {name : ι} {state final : Pools ι α}

section Call

variable [OfNat α 0] {allocator : Allocator α}

theorem PoolCall.run_returns (valid : holder.pool.Valid heap)
    (ran : PoolCall.alone (holder.view heap) (call, call.answer allocator heap holder.pool) = .ok value) :
    ∃ next after, Returns (call.run allocator holder) heap next after ∧ next.view after = value ∧
      Takes heap (call.base holder.pool) after next.pool := by
  cases call with
  | poolOpen initSize =>
      obtain ⟨pool, after, run, view, takes⟩ := poolOpen_returns allocator heap initSize
      cases ran
      refine ⟨{ pool, handles := [] }, after, ?_, ?_, takes⟩
      · exact returns_bind.mpr ⟨pool, after, run, returns_pure.mpr ⟨rfl, rfl⟩⟩
      · rw [Holder.view, view]
        rfl
  | poolClose =>
      obtain ⟨after, run, takes⟩ := poolClose_returns valid
      cases ran
      refine ⟨.wiped, after, ?_, ?_, takes⟩
      · exact returns_bind.mpr ⟨.wiped, after, run, returns_pure.mpr ⟨rfl, rfl⟩⟩
      · simp only [Holder.view, Holder.wiped, PoolT.view, PoolT.wiped, Heap.cells_zero]
  | poolPush data dataSize allocSize =>
      obtain ⟨⟨handle, pushed⟩, push, done⟩ := bind_eq_ok.mp ran
      obtain ⟨pool, after, run, view, takes⟩ := poolPush_returns valid push
      cases done
      refine ⟨{ pool, handles := holder.handles ++ [handle] }, after, ?_, ?_, takes⟩
      · exact returns_bind.mpr ⟨(handle, pool), after, run, returns_pure.mpr ⟨rfl, rfl⟩⟩
      · rw [Holder.view, view]
        rfl
  | poolDrain =>
      obtain ⟨drained, drain, done⟩ := bind_eq_ok.mp ran
      obtain ⟨pool, after, run, view, takes⟩ := poolDrain_returns valid drain
      cases done
      refine ⟨{ pool, handles := [] }, after, ?_, ?_, takes⟩
      · exact returns_bind.mpr ⟨pool, after, run, returns_pure.mpr ⟨rfl, rfl⟩⟩
      · rw [Holder.view, view]

theorem PoolCall.run_fails (valid : holder.pool.Valid heap)
    (ran : PoolCall.alone (holder.view heap) (call, call.answer allocator heap holder.pool) = .error fault) :
    Fails (call.run allocator holder) heap fault := by
  cases call with
  | poolOpen initSize => cases ran
  | poolClose => cases ran
  | poolPush data dataSize allocSize =>
      rcases bind_eq_error.mp ran with failed | ⟨_, _, done⟩
      · exact fails_bind.mpr (Or.inl (poolPush_fails valid failed))
      · cases done
  | poolDrain =>
      rcases bind_eq_error.mp ran with failed | ⟨_, _, done⟩
      · exact fails_bind.mpr (Or.inl (poolDrain_fails failed))
      · cases done

end Call

theorem Pools.wiped_apart : (Pools.wiped : Pools ι α).Apart where
  valid := fun _ => Or.inl rfl
  apart := fun _ _ _ named => absurd rfl named

/-- What one pool takes leaves the others as they are. -/
theorem Pools.Apart.other (apart : state.Apart) {pool : PoolT}
    (base : pool = .wiped ∨ pool = (state.holder name).pool) (takes : Takes state.heap pool after next.pool)
    {other : ι} (different : other ≠ name) :
    (state.holder other).pool.Valid after ∧
      ((state.holder other).pool.data ≠ 0 → (state.holder other).pool.data ≠ next.pool.data) ∧
      (state.holder other).view after = (state.holder other).view state.heap := by
  by_cases empty : (state.holder other).pool.data = 0
  · refine ⟨Or.inl empty, fun named => absurd empty named, ?_⟩
    simp only [Holder.view, PoolT.view, empty, Heap.cells_zero]
  · have live := (apart.valid other).resolve_left empty
    have untaken : (state.holder other).pool.data ≠ pool.data := by
      rcases base with rfl | rfl
      · exact empty
      · exact apart.apart other name different empty
    have away : (state.holder other).pool.data ≠ next.pool.data := by
      intro same
      rcases takes.own with kept | free
      · exact untaken (same.trans kept)
      · exact free (same ▸ live)
    have same := takes.elsewhere _ untaken away
    refine ⟨Or.inr ((Heap.live_congr same).mpr live), fun _ => away, ?_⟩
    simp only [Holder.view, PoolT.view, Heap.cells_congr same]

variable [DecidableEq ι]

@[simp] theorem Pools.put_heap : (state.put name next after).heap = after := rfl

@[simp] theorem Pools.put_self : (state.put name next after).holder name = next := Function.update_self ..

theorem Pools.put_other {other : ι} (different : other ≠ name) :
    (state.put name next after).holder other = state.holder other := Function.update_of_ne different ..

theorem Pools.Apart.step (apart : state.Apart) {pool : PoolT}
    (base : pool = .wiped ∨ pool = (state.holder name).pool)
    (takes : Takes state.heap pool after next.pool) :
    (state.put name next after).Apart ∧
      (state.put name next after).views = Function.update state.views name (next.view after) := by
  refine ⟨⟨fun other => ?_, fun one two different named => ?_⟩, funext fun other => ?_⟩
  · by_cases same : other = name
    · subst same
      rw [Pools.put_self]
      exact takes.valid
    · rw [Pools.put_other same]
      exact (apart.other base takes same).1
  · by_cases first : one = name
    · subst first
      rw [Pools.put_self] at named ⊢
      rw [Pools.put_other different.symm]
      intro same
      exact (apart.other base takes different.symm).2.1 (same ▸ named) same.symm
    · rw [Pools.put_other first] at named ⊢
      by_cases second : two = name
      · subst second
        rw [Pools.put_self]
        exact (apart.other base takes first).2.1 named
      · rw [Pools.put_other second]
        exact apart.apart one two different named
  · by_cases same : other = name
    · subst same
      rw [Pools.views, Pools.put_self, Function.update_self]
      rfl
    · rw [Pools.views, Pools.put_other same, Function.update_of_ne same]
      exact (apart.other base takes same).2.2

theorem PoolCall.base_cases (call : PoolCall α) (pool : PoolT) :
    call.base pool = .wiped ∨ call.base pool = pool := by
  cases call <;> simp [PoolCall.base]

variable [OfNat α 0] {allocator : Allocator α}

theorem stepPools_returns (apart : state.Apart)
    (ran : PoolCall.alone (state.views name)
      (call, call.answer allocator state.heap (state.holder name).pool) = .ok value) :
    ∃ next after, stepPools allocator state (name, call) = .ok (state.put name next after) ∧
      next.view after = value ∧ Takes state.heap (call.base (state.holder name).pool) after next.pool := by
  obtain ⟨next, after, run, view, takes⟩ := PoolCall.run_returns (apart.valid name) ran
  refine ⟨next, after, ?_, view, takes⟩
  exact bind_eq_ok.mpr ⟨(next, after), run, rfl⟩

theorem stepPools_fails (apart : state.Apart)
    (ran : PoolCall.alone (state.views name)
      (call, call.answer allocator state.heap (state.holder name).pool) = .error fault) :
    stepPools allocator state (name, call) = .error fault :=
  bind_eq_error.mpr (Or.inl (PoolCall.run_fails (apart.valid name) ran))

theorem stepPools_takes (apart : state.Apart) (stepped : stepPools allocator state (name, call) = .ok final) :
    ∃ next after, final = state.put name next after ∧
      Takes state.heap (call.base (state.holder name).pool) after next.pool := by
  cases ran : PoolCall.alone (state.views name)
      (call, call.answer allocator state.heap (state.holder name).pool) with
  | error fault => cases (stepPools_fails apart ran).symm.trans stepped
  | ok value =>
      obtain ⟨next, after, run, -, takes⟩ := stepPools_returns apart ran
      cases run.symm.trans stepped
      exact ⟨next, after, rfl, takes⟩

theorem stepPools_apart {call : ι × PoolCall α} (apart : state.Apart)
    (stepped : stepPools allocator state call = .ok final) : final.Apart := by
  obtain ⟨next, after, rfl, takes⟩ := stepPools_takes apart stepped
  exact (apart.step (PoolCall.base_cases call.2 _) takes).1

theorem runPools_apart {calls : List (ι × PoolCall α)} (apart : state.Apart)
    (run : runHistory (stepPools allocator) state calls = .ok final) : final.Apart := by
  induction calls generalizing state with
  | nil =>
      cases run
      exact apart
  | cons call calls ih =>
      obtain ⟨next, stepped, run⟩ := bind_eq_ok.mp run
      exact ih (stepPools_apart apart stepped) run

theorem answered_cons (allocator : Allocator α) (calls : List (ι × PoolCall α))
    (stepped : stepPools allocator state (name, call) = .ok final) :
    answered allocator state ((name, call) :: calls) =
      (name, call, call.answer allocator state.heap (state.holder name).pool) ::
        answered allocator final calls := by
  rw [answered, stepped]

/-- With the answers that the allocator gives on the way, the run in the heap is the run of the
pools side by side. -/
theorem runPools_views (allocator : Allocator α) (calls : List (ι × PoolCall α)) (apart : state.Apart) :
    (runHistory (stepPools allocator) state calls).map Pools.views =
      runHistory (stepOf PoolCall.alone) state.views (answered allocator state calls) := by
  induction calls generalizing state with
  | nil => rfl
  | cons call calls ih =>
      obtain ⟨name, call⟩ := call
      cases ran : PoolCall.alone (state.views name)
          (call, call.answer allocator state.heap (state.holder name).pool) with
      | error fault =>
          have alone : stepOf PoolCall.alone state.views
              (name, call, call.answer allocator state.heap (state.holder name).pool) = .error fault :=
            stepOf_error ran
          rw [answered, runHistory, stepPools_fails apart ran, runHistory, alone]
          rfl
      | ok value =>
          obtain ⟨next, after, stepped, view, takes⟩ := stepPools_returns apart ran
          obtain ⟨apart, views⟩ := apart.step (PoolCall.base_cases call _) takes
          have alone : stepOf PoolCall.alone state.views
              (name, call, call.answer allocator state.heap (state.holder name).pool) =
                .ok (Function.update state.views name value) := stepOf_ok ran
          rw [answered_cons allocator calls stepped, runHistory, runHistory, stepped, alone, ok_bind, ok_bind,
            ih apart, views, view]

end Steps

section Alone

variable {ι α : Type} [DecidableEq ι] [OfNat α 0]

/-- In a heap that they share every pool is what its own calls make of it, given what the allocator
answered them, and has its buffer to itself.  What stops the calls about all of them stops the calls
about one. -/
theorem runPools_alone (allocator : Allocator α) (calls : List (ι × PoolCall α)) :
    (∀ state, runPools allocator calls = .ok state → state.Apart ∧ ∀ name,
      runAlone (commandsOf name (answered allocator .wiped calls)) = .ok (state.views name)) ∧
    ∀ fault, runPools allocator calls = .error fault → ∃ name,
      runAlone (commandsOf name (answered allocator .wiped calls)) = .error fault := by
  have runs := runPools_views allocator calls Pools.wiped_apart
  have wiped (name : ι) : (Pools.wiped : Pools ι α).views name =
      ({ data := [], allocSize := 0, pos := 0 }, []) := by
    simp only [Pools.views, Pools.wiped, Holder.view, Holder.wiped, PoolT.view, PoolT.wiped, Heap.cells_zero]
  refine ⟨fun state run => ⟨runPools_apart Pools.wiped_apart run, fun name => ?_⟩, fun fault run => ?_⟩
  · rw [runPools] at run
    rw [run] at runs
    have own := runHistory_interleaved.mp runs.symm name
    rwa [wiped] at own
  · rw [runPools] at run
    rw [run] at runs
    obtain ⟨name, own⟩ := runHistory_interleaved_error runs.symm
    rw [wiped] at own
    exact ⟨name, own⟩

end Alone

def PoolCall.ofOp {α : Type} : PoolOp α → PoolCall α
  | .push data dataSize allocSize => .poolPush data dataSize allocSize
  | .drain => .poolDrain

section Holding

variable {ι α : Type} {ops : List (PoolOp α)} {calls : List (ι × PoolCall α)}

variable [OfNat α 0] {blocks : List (List α)} {pool : PoolT} {heap : Heap α}

/-- Where memory lasts, all calls of a run are answered. -/
theorem commandsOf_answered [DecidableEq ι] {allocator : Allocator α} {state final : Pools ι α}
    (memory : ∀ heap count, (allocator.answer heap count).isSome = true)
    (run : runHistory (stepPools allocator) state calls = .ok final) (name : ι) :
    commandsOf name (answered allocator state calls) =
      (commandsOf name calls).map fun call => (call, true) := by
  induction calls generalizing state with
  | nil => rfl
  | cons call calls ih =>
      obtain ⟨other, call⟩ := call
      obtain ⟨next, stepped, run⟩ := bind_eq_ok.mp run
      have granted : call.answer allocator state.heap (state.holder other).pool = true := by
        cases call <;> simp [PoolCall.answer, memory]
      rw [answered_cons allocator calls stepped, granted]
      by_cases same : other = name
      · subst same
        rw [commandsOf_self, commandsOf_self, List.map_cons]
        exact congrArg _ (ih run)
      · rw [commandsOf_other same, commandsOf_other same]
        exact ih run

theorem runHistory_ofOp (state : Pool α × List PoolHandle) :
    runHistory PoolCall.alone state (ops.map fun op => (PoolCall.ofOp op, true)) = runPool ops state := by
  induction ops generalizing state with
  | nil => rfl
  | cons op ops ih =>
      cases op with
      | push data dataSize allocSize =>
          simp only [List.map_cons, PoolCall.ofOp, runHistory, runPool, PoolCall.alone, bind_assoc]
          congr 1
          funext pushed
          exact ih _
      | drain =>
          simp only [List.map_cons, PoolCall.ofOp, runHistory, runPool, PoolCall.alone, bind_assoc]
          congr 1
          funext drained
          exact ih _

theorem liveBlocks_positive (valid : ∀ op ∈ ops, op.Valid) (positive : ∀ block ∈ blocks, 0 < block.length) :
    ∀ block ∈ liveBlocks ops blocks, 0 < block.length := by
  induction ops generalizing blocks with
  | nil => exact positive
  | cons op ops ih =>
      obtain ⟨first, later⟩ := List.forall_mem_cons.mp valid
      cases op with
      | push data dataSize allocSize =>
          obtain ⟨sizes, enough, reserved⟩ := first
          refine ih later fun block member => ?_
          rcases List.mem_append.mp member with old | new
          · exact positive block old
          · rw [List.mem_singleton.mp new, reservation_length enough (poolReserve_within sizes)]
            exact reserved
      | drain => exact ih later (by simp)

/-- Nothing but an empty pool is taken for one. -/
theorem poolEmpty_iff (holds : (pool.view heap).Holds blocks)
    (positive : ∀ block ∈ blocks, 0 < block.length) : poolEmpty pool = true ↔ blocks = [] := by
  have position : pool.pos.toNat = blocks.flatten.length := holds.pos
  have inside : pool.pos.toNat ≤ pool.allocSize.toNat := holds.inside
  rw [poolEmpty, decide_eq_true_eq]
  cases blocks with
  | nil => exact iff_of_true (Or.inl (BitVec.eq_of_toNat_eq position)) rfl
  | cons block blocks =>
      have some_ := positive block List.mem_cons_self
      rw [List.flatten_cons, List.length_append] at position
      refine iff_of_false (fun empty => ?_) (List.cons_ne_nil _ _)
      rcases empty with empty | empty | empty
      · have none_held : pool.pos.toNat = 0 := congrArg BitVec.toNat empty
        omega
      · have no_room : pool.allocSize.toNat = 0 := congrArg BitVec.toNat empty
        omega
      · have nothing := holds.data_length
        rw [PoolT.view, empty, Heap.cells_zero, List.length_nil] at nothing
        change 0 = pool.allocSize.toNat at nothing
        omega

end Holding

/-- While memory lasts a pool is a faithful store from when it is opened, whatever was done with its
variable before and with the other pools meanwhile. -/
theorem runPools_faithful {ι α : Type} [DecidableEq ι] [OfNat α 0] (allocator : Allocator α)
    (memory : ∀ heap count, (allocator.answer heap count).isSome = true)
    (calls : List (ι × PoolCall α)) (state : Pools ι α) (run : runPools allocator calls = .ok state)
    (name : ι) (earlier : List (PoolCall α)) (initSize : PoolSize) (ops : List (PoolOp α))
    (own : commandsOf name calls = earlier ++ .poolOpen initSize :: ops.map .ofOp)
    (valid : ∀ op ∈ ops, op.Valid) (fits : SizesFit initSize.toNat 0 (ops.map PoolOp.request)) :
    Faithful (state.views name).1 (state.views name).2 (liveBlocks ops []) ∧
      (poolEmpty (state.holder name).pool = true ↔ liveBlocks ops [] = []) := by
  have runs := runPools_views allocator calls Pools.wiped_apart
  rw [runPools] at run
  rw [run] at runs
  have alone := runHistory_interleaved.mp runs.symm name
  rw [commandsOf_answered memory run, own, List.map_append, runHistory_append, List.map_cons,
    List.map_map] at alone
  obtain ⟨before, -, alone⟩ := bind_eq_ok.mp alone
  have opened : runPool ops (Koshka.poolOpen true initSize, []) = .ok (state.views name) :=
    (runHistory_ofOp _).symm.trans alone
  obtain ⟨pool, held, holds⟩ := runPool_holds (poolOpen_holds initSize) valid fits
  have same : state.views name = (pool, handlesOf (liveBlocks ops [])) :=
    Except.ok.inj (opened.symm.trans held)
  have holding : ((state.holder name).pool.view state.heap).Holds (liveBlocks ops []) := by
    have view : (state.holder name).pool.view state.heap = pool := congrArg Prod.fst same
    rwa [view]
  refine ⟨?_, poolEmpty_iff holding (liveBlocks_positive valid (by simp))⟩
  rw [same]
  exact holds.faithful

/-- One pool grows while another one is opened, filled and closed. -/
def twoPools : List (Bool × PoolCall U8) :=
  [(true, .poolOpen 2), (false, .poolOpen 0), (true, .poolPush [1, 2] 2 0), (false, .poolPush [9] 1 0),
    (true, .poolPush [3] 1 4), (false, .poolClose)]

theorem runPools_faithful_two : ∃ state, runPools (.bump U8) twoPools = .ok state ∧
    Faithful (state.views true).1 (state.views true).2 [[1, 2], [3, 0, 0, 0]] ∧
    (poolEmpty (state.holder true).pool = true ↔ ([[1, 2], [3, 0, 0, 0]] : List (List U8)) = []) := by
  have finishes : (runPools (.bump U8) twoPools).isOk = true := by decide +kernel
  obtain ⟨state, run⟩ := eq_ok_of_isOk finishes
  exact ⟨state, run, runPools_faithful (.bump U8) (fun _ _ => rfl) twoPools state run true [] 2
    [.push [1, 2] 2 0, .push [3] 1 4] rfl (by decide) (by decide)⟩

end Koshka.Shared
