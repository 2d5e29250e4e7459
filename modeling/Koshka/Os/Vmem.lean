import Koshka.Data.History
import Koshka.Memory

namespace Koshka.Os

open Data

abbrev Pointer := U64

inductive VmemPermission where
  | memR | memRW | memRWX
deriving Repr, DecidableEq

@[ext] structure Allocation where
  ptr : Pointer
  size : U64
  perm : VmemPermission
deriving Repr, DecidableEq

/-- The calls that acquire and release memory, an acquiring one with the address that it returned. -/
inductive Primitive where
  | malloc (size : U64) (ptr : Pointer)
  | mmap (size : U64) (ptr : Pointer)
  | free (ptr : Pointer)
  | munmap (ptr : Pointer) (size : U64)
deriving Repr, DecidableEq

/-- The table of allocations.  Entries are never taken back. -/
structure Vmem where
  buffers : List Allocation
  nextBuf : U32
deriving Repr, DecidableEq

def Allocation.unused : Allocation where
  ptr := 0
  size := 0
  perm := .memR

def Vmem.initial : Vmem where
  buffers := List.replicate 1024 .unused
  nextBuf := 0

/-- Executable memory is mapped, the rest comes from the heap. -/
def acquireCall (size : U64) (perm : VmemPermission) (answer : Pointer) : Primitive :=
  if perm = .memR ∨ perm = .memRW then .malloc size answer else .mmap size answer

/-- `answer` is the address that `malloc` or `mmap` comes up with. -/
def vmemAlloc (vmem : Vmem) (size : U64) (perm : VmemPermission) (answer : Pointer) :
    Except Fault (Pointer × Primitive × Vmem) :=
  if vmem.nextBuf.toNat < vmem.buffers.length then
    let buffers := vmem.buffers.set vmem.nextBuf.toNat { ptr := answer, size, perm }
    .ok (answer, acquireCall size perm answer, { buffers, nextBuf := vmem.nextBuf + 1 })
  else .error .outOfBounds

def allocByPtr (vmem : Vmem) (ptr : Pointer) : Option Allocation :=
  vmem.buffers.find? fun buf => buf.ptr = ptr

/-- What is freed is unmapped as well. -/
def releaseCalls (ptr : Pointer) (buf : Allocation) : List Primitive :=
  (if buf.perm ≠ .memRWX then [.free ptr] else []) ++ [.munmap ptr buf.size]

/-- The calls that `vmem_free` makes.  It reads the entry without a check for NULL. -/
def vmemFree (vmem : Vmem) (ptr : Pointer) : Except Fault (List Primitive) :=
  match allocByPtr vmem ptr with
  | none => .error .outOfBounds
  | some buf => .ok (releaseCalls ptr buf)

inductive VmemOp where
  | alloc (size : U64) (perm : VmemPermission) (answer : Pointer)
  | free (ptr : Pointer)
deriving Repr, DecidableEq

structure VmemRun where
  vmem : Vmem
  trace : List Primitive
deriving Repr, DecidableEq

def vmemStep (state : VmemRun) : VmemOp → Except Fault VmemRun
  | .alloc size perm answer => do
      let (_, call, vmem) ← vmemAlloc state.vmem size perm answer
      return { vmem, trace := state.trace ++ [call] }
  | .free ptr => do
      let calls ← vmemFree state.vmem ptr
      return { state with trace := state.trace ++ calls }

def runVmem (history : List VmemOp) : Except Fault VmemRun :=
  runHistory vmemStep { vmem := .initial, trace := [] } history

def VmemOp.covers : VmemOp → Pointer → Bool
  | .alloc _ _ answer, ptr => answer = ptr
  | .free freed, ptr => freed = ptr

/-- What the program asked for, if it asked for memory. -/
def VmemOp.block : VmemOp → Option Allocation
  | .alloc size perm answer => some { ptr := answer, size, perm }
  | .free _ => none

/-- The live block at an address: the last call about the address has made it. -/
def liveAt (history : List VmemOp) (ptr : Pointer) : Option Allocation :=
  (lastCovering VmemOp.covers history ptr).bind VmemOp.block

def allocations (history : List VmemOp) : List Allocation := history.filterMap VmemOp.block

/-- The block that was the first one at an address. -/
def firstAt (history : List VmemOp) (ptr : Pointer) : Option Allocation :=
  (allocations history).find? fun buf => buf.ptr = ptr

/-- Memory is handed out where none is live, and only live memory is freed. -/
def VmemOp.Allowed (before : List VmemOp) : VmemOp → Prop
  | .alloc _ _ answer => liveAt before answer = none
  | .free ptr => liveAt before ptr ≠ none

instance (before : List VmemOp) : (op : VmemOp) → Decidable (op.Allowed before)
  | .alloc _ _ answer => inferInstanceAs (Decidable (liveAt before answer = none))
  | .free ptr => inferInstanceAs (Decidable (liveAt before ptr ≠ none))

inductive Possible : List VmemOp → Prop
  | start : Possible []
  | next {before : List VmemOp} {op : VmemOp} (possible : Possible before)
      (allowed : op.Allowed before) : Possible (before ++ [op])

/-- The table is the list of all allocations made, followed by unused entries. -/
structure Vmem.Records (vmem : Vmem) (history : List VmemOp) : Prop where
  count : (allocations history).length ≤ 1024
  nextBuf : vmem.nextBuf.toNat = (allocations history).length
  buffers : vmem.buffers =
    allocations history ++ List.replicate (1024 - (allocations history).length) .unused

section Histories

variable {before history : List VmemOp} {op : VmemOp} {ptr answer : Pointer} {block : Allocation}
  {size : U64} {perm : VmemPermission} {vmem : Vmem} {state : VmemRun}

theorem liveAt_concat : liveAt (before ++ [op]) ptr =
    if op.covers ptr then op.block else liveAt before ptr := by
  rw [liveAt, lastCovering_concat]
  cases op.covers ptr <;> rfl

theorem liveAt_alloc : liveAt (before ++ [.alloc size perm answer]) ptr =
    if answer = ptr then some { ptr := answer, size, perm } else liveAt before ptr := by
  simp only [liveAt_concat, VmemOp.covers, VmemOp.block, decide_eq_true_eq]

theorem liveAt_free {freed : Pointer} : liveAt (before ++ [.free freed]) ptr =
    if freed = ptr then none else liveAt before ptr := by
  simp only [liveAt_concat, VmemOp.covers, VmemOp.block, decide_eq_true_eq]

theorem allocations_alloc : allocations (before ++ [.alloc size perm answer]) =
    allocations before ++ [{ ptr := answer, size, perm }] := by
  rw [allocations, List.filterMap_append]
  rfl

theorem allocations_free : allocations (before ++ [.free ptr]) = allocations before := by
  rw [allocations, List.filterMap_append]
  exact List.append_nil _

theorem firstAt_alloc : firstAt (before ++ [.alloc size perm answer]) ptr =
    (firstAt before ptr).or (if answer = ptr then some { ptr := answer, size, perm } else none) := by
  rw [firstAt, allocations_alloc, List.find?_append, firstAt]
  by_cases here : answer = ptr <;> simp [here]

theorem firstAt_free {freed : Pointer} : firstAt (before ++ [.free freed]) ptr = firstAt before ptr := by
  rw [firstAt, allocations_free, firstAt]

/-- A live block has been allocated at its address. -/
theorem liveAt_allocated (live : liveAt history ptr = some block) :
    block ∈ allocations history ∧ block.ptr = ptr := by
  obtain ⟨last, found, made⟩ := Option.bind_eq_some_iff.mp live
  obtain ⟨member, covered⟩ := lastCovering_some found
  refine ⟨List.mem_filterMap.mpr ⟨last, member, made⟩, ?_⟩
  cases last with
  | alloc size perm answer =>
      cases made
      exact of_decide_eq_true covered
  | free freed => cases made

theorem firstAt_of_live (live : liveAt history ptr = some block) :
    ∃ first, firstAt history ptr = some first := by
  obtain ⟨member, place⟩ := liveAt_allocated live
  exact Option.isSome_iff_exists.mp (List.find?_isSome.mpr ⟨block, member, by simp [place]⟩)

theorem initial_records : Vmem.initial.Records [] where
  count := Nat.zero_le _
  nextBuf := rfl
  buffers := rfl

theorem Vmem.Records.alloc (records : vmem.Records before) (size : U64) (perm : VmemPermission)
    (answer : Pointer) (room : (allocations before).length < 1024) :
    ∃ after, vmemAlloc vmem size perm answer = .ok (answer, acquireCall size perm answer, after) ∧
      after.Records (before ++ [.alloc size perm answer]) := by
  have width : vmem.buffers.length = 1024 := by
    rw [records.buffers, List.length_append, List.length_replicate]
    omega
  have inside : vmem.nextBuf.toNat < vmem.buffers.length := by rwa [width, records.nextBuf]
  have free : 1024 - (allocations before).length =
    1024 - ((allocations before).length + 1) + 1 := by omega
  refine ⟨_, if_pos inside, ?_, ?_, ?_⟩
  · rw [allocations_alloc, List.length_append]
    exact room
  · rw [allocations_alloc, List.length_append, BitVec.toNat_add, records.nextBuf]
    change ((allocations before).length + 1) % 2 ^ 32 = (allocations before).length + 1
    omega
  · -- the entry that is written is the first unused one
    rw [allocations_alloc, List.length_append, List.length_singleton, records.buffers, records.nextBuf,
      free, List.replicate_succ, List.set_append_right _ _ (Nat.le_refl _), Nat.sub_self,
      List.set_cons_zero, List.append_assoc]
    rfl

theorem Vmem.Records.free (records : vmem.Records before) (ptr : Pointer) :
    vmem.Records (before ++ [.free ptr]) := by
  have same : allocations (before ++ [.free ptr]) = allocations before := allocations_free
  refine ⟨?_, ?_, ?_⟩ <;> rw [same]
  · exact records.count
  · exact records.nextBuf
  · exact records.buffers

/-- The search from the front finds the first block that was at the address. -/
theorem Vmem.Records.allocByPtr (records : vmem.Records history)
    (found : firstAt history ptr = some block) :
    allocByPtr vmem ptr = some block := by
  rw [Os.allocByPtr, records.buffers, List.find?_append]
  rw [firstAt] at found
  rw [found, Option.some_or]

theorem Vmem.Records.free_calls (records : vmem.Records history)
    (found : firstAt history ptr = some block) :
    vmemFree vmem ptr = .ok (releaseCalls ptr block) := by
  rw [vmemFree, records.allocByPtr found]

theorem Possible.earlier (possible : Possible history) (earlier : before <+: history) :
    Possible before := by
  induction possible with
  | start =>
      rw [List.prefix_nil.mp earlier]
      exact .start
  | next possible allowed ih =>
      rcases List.prefix_concat_iff.mp earlier with rfl | earlier
      · exact .next possible allowed
      · exact ih earlier

theorem allocations_earlier (earlier : before <+: history) :
    (allocations before).length ≤ (allocations history).length :=
  (earlier.filterMap VmemOp.block).length_le

theorem runVmem_concat : runVmem (before ++ [op]) = runVmem before >>= fun state => vmemStep state op :=
  runHistory_concat

theorem runVmem_alloc {after : Vmem} (run : runVmem before = .ok state)
    (allocated : vmemAlloc state.vmem size perm answer = .ok (answer, acquireCall size perm answer,
    after)) :
    runVmem (before ++ [.alloc size perm answer]) =
      .ok { vmem := after, trace := state.trace ++ [acquireCall size perm answer] } := by
  rw [runVmem_concat, run, ok_bind, vmemStep, allocated]
  rfl

theorem runVmem_free (run : runVmem before = .ok state) (records : state.vmem.Records before)
    (found : firstAt before ptr = some block) : runVmem (before ++ [.free ptr]) =
      .ok { state with trace := state.trace ++ releaseCalls ptr block } := by
  rw [runVmem_concat, run, ok_bind, vmemStep, records.free_calls found]
  rfl

/-- No call faults as long as there are entries left. -/
theorem runVmem_records (possible : Possible history) (few : (allocations history).length ≤ 1024) :
    ∃ state, runVmem history = .ok state ∧ state.vmem.Records history := by
  induction possible with
  | start => exact ⟨_, rfl, initial_records⟩
  | next possible allowed ih =>
      rename_i before op
      cases op with
      | alloc size perm answer =>
          rw [allocations_alloc, List.length_append] at few
          obtain ⟨state, run, records⟩ := ih (Nat.le_of_succ_le few)
          obtain ⟨after, allocated, kept⟩ := records.alloc size perm answer few
          exact ⟨_, runVmem_alloc run allocated, kept⟩
      | free ptr =>
          rw [allocations_free] at few
          obtain ⟨state, run, records⟩ := ih few
          obtain ⟨block, live⟩ := Option.ne_none_iff_exists'.mp allowed
          obtain ⟨first, found⟩ := firstAt_of_live live
          exact ⟨_, runVmem_free run records found, records.free ptr⟩

theorem runVmem_kept (possible : Possible history) (few : (allocations history).length ≤ 1024)
    (run : runVmem history = .ok state) : state.vmem.Records history := by
  obtain ⟨final, same, records⟩ := runVmem_records possible few
  cases run.symm.trans same
  exact records

end Histories

end Koshka.Os
