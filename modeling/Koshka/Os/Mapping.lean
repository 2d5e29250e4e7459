import Koshka.Os.Release

namespace Koshka.Os

open Data

/-! `vmem_map` and `vmem_unmap` beside the table.

They go to the same address space as `vmem_alloc` and `vmem_free`, but their blocks are in no table:
who unmaps one names its size.  So a release of theirs cannot go wrong as `vmem_free` can, and they
leave to `vmem_free` what it finds.
-/

structure Protection where
  read : Bool
  write : Bool
  exec : Bool
deriving Repr, DecidableEq

def VmemPermission.prot : VmemPermission → Protection
  | .memR => { read := true, write := false, exec := false }
  | .memRW => { read := true, write := true, exec := false }
  | .memRWX => { read := true, write := true, exec := true }

/-- The calls of the two functions with a table, and those of the other two. -/
inductive SpaceCall where
  | table (call : Primitive)
  | mmap (size : U64) (prot : Protection) (ptr : Pointer)
  | munmap (ptr : Pointer) (size : U64)
deriving Repr, DecidableEq

/-- `answer` is the address that `mmap` comes up with. -/
def vmemMap (size : U64) (perm : VmemPermission) (answer : Pointer) : Pointer × SpaceCall :=
  (answer, .mmap size perm.prot answer)

def vmemUnmap (ptr : Pointer) (size : U64) : SpaceCall := .munmap ptr size

inductive SpaceOp where
  | table (op : VmemOp)
  | map (size : U64) (perm : VmemPermission) (answer : Pointer)
  | unmap (ptr : Pointer) (size : U64)
deriving Repr, DecidableEq

structure SpaceRun where
  vmem : Vmem
  trace : List SpaceCall
deriving Repr, DecidableEq

def spaceStep (state : SpaceRun) : SpaceOp → Except Fault SpaceRun
  | .table op => do
      let next ← vmemStep { vmem := state.vmem, trace := [] } op
      return { vmem := next.vmem, trace := state.trace ++ next.trace.map .table }
  | .map size perm answer =>
      .ok { state with trace := state.trace ++ [(vmemMap size perm answer).2] }
  | .unmap ptr size => .ok { state with trace := state.trace ++ [vmemUnmap ptr size] }

def runSpace (history : List SpaceOp) : Except Fault SpaceRun :=
  runHistory spaceStep { vmem := .initial, trace := [] } history

inductive SpaceBlock where
  | allocated (block : Allocation)
  | mapped (ptr : Pointer) (size : U64)
deriving Repr, DecidableEq

def SpaceBlock.resource : SpaceBlock → Resource
  | .allocated block => block.resource
  | .mapped ptr size => .mapping ptr size

namespace SpaceOp

def target : SpaceOp → Pointer
  | .table (.alloc _ _ answer) => answer
  | .table (.free ptr) => ptr
  | .map _ _ answer => answer
  | .unmap ptr _ => ptr

def covers (op : SpaceOp) (ptr : Pointer) : Bool := decide (op.target = ptr)

def block : SpaceOp → Option SpaceBlock
  | .table op => op.block.map .allocated
  | .map size _ answer => some (.mapped answer size)
  | .unmap _ _ => none

def tableOp : SpaceOp → Option VmemOp
  | .table op => some op
  | _ => none

end SpaceOp

/-- The live block at an address, whoever made it. -/
def liveIn (history : List SpaceOp) (ptr : Pointer) : Option SpaceBlock :=
  (lastCovering SpaceOp.covers history ptr).bind SpaceOp.block

/-- What `vmem_alloc` and `vmem_free` see of a history. -/
def tableOps (history : List SpaceOp) : List VmemOp := history.filterMap SpaceOp.tableOp

/-- Memory is handed out where none is live, and is given back to where it is from. -/
def SpaceOp.Allowed (before : List SpaceOp) : SpaceOp → Prop
  | .table (.alloc _ _ answer) => liveIn before answer = none
  | .table (.free ptr) => ∃ block, liveIn before ptr = some (.allocated block)
  | .map _ _ answer => liveIn before answer = none
  | .unmap ptr size => liveIn before ptr = some (.mapped ptr size)

inductive PossibleIn : List SpaceOp → Prop
  | start : PossibleIn []
  | next {before : List SpaceOp} {op : SpaceOp} (possible : PossibleIn before)
      (allowed : op.Allowed before) : PossibleIn (before ++ [op])

def SpaceCall.acquired : SpaceCall → Option Resource
  | .table call => call.acquired
  | .mmap size _ ptr => some (.mapping ptr size)
  | .munmap _ _ => none

def SpaceCall.released : SpaceCall → Option Resource
  | .table call => call.released
  | .mmap _ _ _ => none
  | .munmap ptr size => some (.mapping ptr size)

/-- One for a resource that belongs to a live block. -/
def heldIn (history : List SpaceOp) (resource : Resource) : Nat :=
  if (liveIn history resource.ptr).map SpaceBlock.resource = some resource then 1 else 0

/-- What `vmem_free` is given is executable memory, and the first entry for its address is its own. -/
def FreesOwn (history : List SpaceOp) : Prop :=
  ∀ before ptr, before ++ [.table (.free ptr)] <+: history →
    ∀ block, liveIn before ptr = some (.allocated block) →
      block.perm = .memRWX ∧ firstAt (tableOps before) ptr = some block

section Mapping

variable {before history : List SpaceOp} {op : SpaceOp} {ptr : Pointer} {size : U64} {block : Allocation}
  {live : SpaceBlock} {resource : Resource} {state : SpaceRun} {calls : List Primitive} {trace : List SpaceCall}

theorem liveIn_concat : liveIn (before ++ [op]) ptr =
    if op.target = ptr then op.block else liveIn before ptr := by
  rw [liveIn, lastCovering_concat, SpaceOp.covers]
  by_cases here : op.target = ptr
  · rw [if_pos (decide_eq_true here), if_pos here]
    rfl
  · rw [if_neg here, decide_eq_false here]
    rfl

theorem SpaceOp.block_ptr (made : op.block = some live) : live.resource.ptr = op.target := by
  match op, made with
  | .table (.alloc size perm answer), made =>
      cases made
      exact Allocation.resource_ptr
  | .table (.free ptr), made => cases made
  | .map size perm answer, made =>
      cases made
      rfl
  | .unmap ptr size, made => cases made

theorem liveIn_ptr (found : liveIn history ptr = some live) : live.resource.ptr = ptr := by
  obtain ⟨last, covering, made⟩ := Option.bind_eq_some_iff.mp found
  rw [SpaceOp.block_ptr made]
  exact of_decide_eq_true (lastCovering_some covering).2

theorem heldIn_live (found : liveIn history ptr = some live) (here : resource.ptr = ptr) :
    heldIn history resource = if live.resource = resource then 1 else 0 := by
  rw [heldIn, here, found, Option.map_some]
  simp only [Option.some.injEq]

theorem heldIn_free (free : liveIn history ptr = none) (here : resource.ptr = ptr) :
    heldIn history resource = 0 := by
  rw [heldIn, here, free]
  rfl

theorem heldIn_elsewhere (elsewhere : op.target ≠ resource.ptr) :
    heldIn (before ++ [op]) resource = heldIn before resource := by
  rw [heldIn, heldIn, liveIn_concat, if_neg elsewhere]

theorem SpaceBlock.resource_elsewhere (place : live.resource.ptr = ptr) (elsewhere : ptr ≠ resource.ptr) :
    live.resource ≠ resource := by
  intro same
  rw [same] at place
  exact elsewhere place.symm

/-- Who hands out memory where none is live adds its resource. -/
theorem heldIn_acquire (op : SpaceOp) (free : liveIn before op.target = none) (made : op.block = some live)
    (resource : Resource) : heldIn (before ++ [op]) resource =
      heldIn before resource + if live.resource = resource then 1 else 0 := by
  by_cases here : op.target = resource.ptr
  · rw [heldIn_free free here.symm, Nat.zero_add]
    exact heldIn_live (by rw [liveIn_concat, if_pos rfl, made]) here.symm
  · rw [heldIn_elsewhere here, if_neg (SpaceBlock.resource_elsewhere (SpaceOp.block_ptr made) here)]
    rfl

/-- Who gives back a live block takes its resource away. -/
theorem heldIn_release (op : SpaceOp) (found : liveIn before op.target = some live) (gone : op.block = none)
    (resource : Resource) : heldIn before resource =
      heldIn (before ++ [op]) resource + if live.resource = resource then 1 else 0 := by
  by_cases here : op.target = resource.ptr
  · rw [heldIn_live found here.symm, heldIn_free (by rw [liveIn_concat, if_pos rfl, gone]) here.symm,
      Nat.zero_add]
  · rw [heldIn_elsewhere here, if_neg (SpaceBlock.resource_elsewhere (liveIn_ptr found) here)]
    rfl

theorem tableOps_table {op : VmemOp} : tableOps (before ++ [.table op]) = tableOps before ++ [op] := by
  rw [tableOps, List.filterMap_append]
  rfl

theorem tableOps_other (other : op.tableOp = none) : tableOps (before ++ [op]) = tableOps before := by
  rw [tableOps, List.filterMap_append, List.filterMap_cons_none other, List.filterMap_nil, List.append_nil]
  rfl

/-- A live block of the table is the one that is live at its address. -/
theorem PossibleIn.live_iff (possible : PossibleIn history) (ptr : Pointer) (block : Allocation) :
    liveAt (tableOps history) ptr = some block ↔ liveIn history ptr = some (.allocated block) := by
  induction possible generalizing block with
  | start => exact iff_of_false (by rintro ⟨⟩) (by rintro ⟨⟩)
  | next possible allowed ih =>
      rename_i before op
      rw [liveIn_concat]
      match op, allowed with
      | .table op, allowed =>
          have covers : op.covers ptr = true ↔ (SpaceOp.table op).target = ptr := by
            cases op <;> exact decide_eq_true_iff
          have blocks : (SpaceOp.table op).block = op.block.map .allocated := rfl
          rw [tableOps_table, liveAt_concat, blocks]
          by_cases here : (SpaceOp.table op).target = ptr
          · rw [if_pos here, if_pos (covers.mpr here)]
            cases op.block <;> simp
          · rw [if_neg here, if_neg fun covered => here (covers.mp covered)]
            exact ih block
      | .map size perm answer, allowed =>
          rw [tableOps_other rfl, ih]
          split
          · rename_i here
            have free : liveIn before answer = none := allowed
            rw [show answer = ptr from here] at free
            exact iff_of_false (by simp [free]) (by simp [SpaceOp.block])
          · rfl
      | .unmap freed size, allowed =>
          rw [tableOps_other rfl, ih]
          split
          · rename_i here
            have mapped : liveIn before freed = some (.mapped freed size) := allowed
            rw [show freed = ptr from here] at mapped
            exact iff_of_false (by simp [mapped]) (by simp [SpaceOp.block])
          · rfl

theorem PossibleIn.earlier (possible : PossibleIn history) (earlier : before <+: history) :
    PossibleIn before := by
  induction possible with
  | start =>
      rw [List.prefix_nil.mp earlier]
      exact .start
  | next possible allowed ih =>
      rcases List.prefix_concat_iff.mp earlier with rfl | earlier
      · exact .next possible allowed
      · exact ih earlier

theorem tableOps_earlier (earlier : before <+: history) :
    (allocations (tableOps before)).length ≤ (allocations (tableOps history)).length :=
  allocations_earlier (earlier.filterMap SpaceOp.tableOp)

theorem runSpace_concat : runSpace (before ++ [op]) = runSpace before >>= fun state => spaceStep state op :=
  runHistory_concat

theorem runSpace_alloc {size : U64} {perm : VmemPermission} {answer : Pointer} {after : Vmem}
    (run : runSpace before = .ok state)
    (allocated : vmemAlloc state.vmem size perm answer = .ok (answer, acquireCall size perm answer, after)) :
    runSpace (before ++ [.table (.alloc size perm answer)]) =
      .ok { vmem := after, trace := state.trace ++ [.table (acquireCall size perm answer)] } := by
  rw [runSpace_concat, run, ok_bind, spaceStep, vmemStep, allocated]
  rfl

theorem runSpace_free {first : Allocation} (run : runSpace before = .ok state)
    (records : state.vmem.Records (tableOps before)) (found : firstAt (tableOps before) ptr = some first) :
    runSpace (before ++ [.table (.free ptr)]) =
      .ok { state with trace := state.trace ++ (releaseCalls ptr first).map .table } := by
  rw [runSpace_concat, run, ok_bind, spaceStep, vmemStep, records.free_calls found]
  rfl

/-- No call faults as long as there are entries left, and only `vmem_alloc` makes entries. -/
theorem runSpace_records (possible : PossibleIn history)
    (few : (allocations (tableOps history)).length ≤ 1024) :
    ∃ state, runSpace history = .ok state ∧ state.vmem.Records (tableOps history) := by
  induction possible with
  | start => exact ⟨_, rfl, initial_records⟩
  | next possible allowed ih =>
      rename_i before op
      obtain ⟨state, run, records⟩ := ih (Nat.le_trans (tableOps_earlier (List.prefix_append before [op])) few)
      match op, allowed with
      | .table (.alloc size perm answer), allowed =>
          rw [tableOps_table, allocations_alloc, List.length_append] at few
          obtain ⟨after, allocated, kept⟩ := records.alloc size perm answer few
          exact ⟨_, runSpace_alloc run allocated, by rw [tableOps_table]; exact kept⟩
      | .table (.free ptr), allowed =>
          obtain ⟨block, live⟩ := allowed
          obtain ⟨first, found⟩ := firstAt_of_live ((possible.live_iff ptr block).mpr live)
          exact ⟨_, runSpace_free run records found, by rw [tableOps_table]; exact records.free ptr⟩
      | .map size perm answer, allowed =>
          exact ⟨_, by rw [runSpace_concat, run]; rfl, by rw [tableOps_other rfl]; exact records⟩
      | .unmap ptr size, allowed =>
          exact ⟨_, by rw [runSpace_concat, run]; rfl, by rw [tableOps_other rfl]; exact records⟩

theorem runSpace_kept (possible : PossibleIn history) (few : (allocations (tableOps history)).length ≤ 1024)
    (run : runSpace history = .ok state) : state.vmem.Records (tableOps history) := by
  obtain ⟨final, same, records⟩ := runSpace_records possible few
  cases run.symm.trans same
  exact records

theorem tally_table (resource : Resource) :
    tally SpaceCall.released (calls.map .table) resource = tally Primitive.released calls resource := by
  rw [tally, tally, List.filterMap_map]
  rfl

/-- Calling `vmem_free` keeps the balance if and only if the block is a mapping and its entry the first. -/
theorem balanced_free_space_iff {first : Allocation} (live : liveIn before ptr = some (.allocated block))
    (found : firstAt (tableOps before) ptr = some first)
    (balanced : Balanced SpaceCall.acquired SpaceCall.released trace (heldIn before)) :
    Balanced SpaceCall.acquired SpaceCall.released (trace ++ (releaseCalls ptr first).map .table)
      (heldIn (before ++ [.table (.free ptr)])) ↔ block.perm = .memRWX ∧ first = block := by
  have keeps : ∀ call ∈ (releaseCalls ptr first).map SpaceCall.table, call.acquired = none := by
    intro call member
    obtain ⟨call, inside, rfl⟩ := List.mem_map.mp member
    exact releaseCalls_acquired call inside
  have lost := heldIn_release (.table (.free ptr)) live rfl
  rw [balanced.release_iff keeps lost]
  simp only [tally_table]
  exact releaseCalls_once_iff (Allocation.resource_ptr.symm.trans (liveIn_ptr live)) (firstAt_ptr found)

theorem FreesOwn.earlier (frees : FreesOwn history) (earlier : before <+: history) : FreesOwn before :=
  fun older ptr within => frees older ptr (within.trans earlier)

theorem FreesOwn.balanced (possible : PossibleIn history)
    (few : (allocations (tableOps history)).length ≤ 1024) (frees : FreesOwn history) :
    ∃ state, runSpace history = .ok state ∧
      Balanced SpaceCall.acquired SpaceCall.released state.trace (heldIn history) := by
  induction possible with
  | start => exact ⟨_, rfl, balanced_nil fun resource => rfl⟩
  | next possible allowed ih =>
      rename_i before op
      have earlier := List.prefix_append before [op]
      have fewer := Nat.le_trans (tableOps_earlier earlier) few
      obtain ⟨state, run, balanced⟩ := ih fewer (frees.earlier earlier)
      have records := runSpace_kept possible fewer run
      match op, allowed with
      | .table (.alloc size perm answer), allowed =>
          rw [tableOps_table, allocations_alloc, List.length_append] at few
          obtain ⟨after, allocated, -⟩ := records.alloc size perm answer few
          exact ⟨_, runSpace_alloc run allocated,
            balanced.acquire acquireCall_acquired acquireCall_released
              (heldIn_acquire (.table (.alloc size perm answer)) allowed rfl)⟩
      | .table (.free ptr), allowed =>
          obtain ⟨block, live⟩ := allowed
          obtain ⟨mapped, found⟩ := frees before ptr (List.prefix_refl _) block live
          exact ⟨_, runSpace_free run records found,
            (balanced_free_space_iff live found balanced).mpr ⟨mapped, rfl⟩⟩
      | .map size perm answer, allowed =>
          exact ⟨_, by rw [runSpace_concat, run]; rfl,
            balanced.acquire rfl rfl (heldIn_acquire (.map size perm answer) allowed rfl)⟩
      | .unmap ptr size, allowed =>
          refine ⟨_, by rw [runSpace_concat, run]; rfl, ?_⟩
          have keeps : ∀ call ∈ [vmemUnmap ptr size], call.acquired = none := by
            simp [vmemUnmap, SpaceCall.acquired]
          have lost := heldIn_release (.unmap ptr size) allowed rfl
          exact (balanced.release_iff keeps lost).mpr fun resource => tally_singleton rfl

end Mapping

/-- With `vmem_map` and `vmem_unmap` in between, every block is still released once and by its own
allocator throughout a history if and only if `vmem_free` is given nothing but executable blocks whose
entry is the first one for their address. -/
theorem space_balanced_iff (history : List SpaceOp) (possible : PossibleIn history)
    (few : (allocations (tableOps history)).length ≤ 1024) :
    (∀ before, before <+: history → ∃ state, runSpace before = .ok state ∧
      Balanced SpaceCall.acquired SpaceCall.released state.trace (heldIn before)) ↔ FreesOwn history := by
  constructor
  · intro balances before ptr within block live
    have earlier := (List.prefix_append before [.table (.free ptr)]).trans within
    have possibleBefore := possible.earlier earlier
    obtain ⟨state, run, balanced⟩ := balances before earlier
    have records := runSpace_kept possibleBefore (Nat.le_trans (tableOps_earlier earlier) few) run
    obtain ⟨first, found⟩ := firstAt_of_live ((possibleBefore.live_iff ptr block).mpr live)
    obtain ⟨after, freed, kept⟩ := balances _ within
    rw [runSpace_free run records found] at freed
    cases freed
    obtain ⟨mapped, rfl⟩ := (balanced_free_space_iff live found balanced).mp kept
    exact ⟨mapped, found⟩
  · intro frees before earlier
    exact (frees.earlier earlier).balanced (possible.earlier earlier)
      (Nat.le_trans (tableOps_earlier earlier) few)

/-- A mapping that is given back, and an executable block at the same address after it. -/
def handedOver : List SpaceOp :=
  [.map 4096 .memR 8192, .unmap 8192 4096, .table (.alloc 16 .memRWX 8192), .table (.free 8192)]

theorem handedOver_possible : PossibleIn handedOver := by
  have mapped : PossibleIn ([] ++ [.map 4096 .memR 8192]) := .next .start rfl
  have unmapped : PossibleIn ([] ++ [.map 4096 .memR 8192] ++ [.unmap 8192 4096]) := .next mapped rfl
  have allocated : PossibleIn ([] ++ [.map 4096 .memR 8192] ++ [.unmap 8192 4096] ++
      [.table (.alloc 16 .memRWX 8192)]) := .next unmapped rfl
  exact PossibleIn.next allocated ⟨{ ptr := 8192, size := 16, perm := .memRWX }, rfl⟩

theorem space_balanced_iff_handedOver : (∀ before, before <+: handedOver → ∃ state,
    runSpace before = .ok state ∧
      Balanced SpaceCall.acquired SpaceCall.released state.trace (heldIn before)) ↔ FreesOwn handedOver :=
  space_balanced_iff handedOver handedOver_possible (by decide)

end Koshka.Os
