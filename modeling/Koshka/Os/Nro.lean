import Mathlib.Data.List.Induction
import Koshka.Elf.Load
import Koshka.Os.Release

namespace Koshka.Os

open Data Elf

structure NroSeghdr where
  offset : U32
  size : U32
deriving Repr, DecidableEq

structure NroHdr where
  textSeg : NroSeghdr
deriving Repr, DecidableEq

def NroHdr.ofBytes (bytes : List U8) : NroHdr where
  textSeg := { offset := .ofNat 32 (littleEndian bytes 16 4), size := .ofNat 32 (littleEndian bytes 20 4) }

structure Module where
  base : Pointer
  entryPoint : Pointer
deriving Repr, DecidableEq

/-- What is found at the path, and what `vmem_alloc` comes up with: the addresses of the buffers, and
what the memory of the first one held before. -/
structure NroCase where
  found : Option (List U8)
  text : Pointer
  cells : List U8
  dest : Pointer
deriving Repr, DecidableEq

/-- The module that is returned, and what has been read behind `textseg`. -/
structure NroLoaded where
  output : Module
  text : Option (List U8)
deriving Repr, DecidableEq

/-- `textsize * 1.5`, an exact `double` that is cut to an integer. -/
def destSize (textsize : U32) : U64 := .ofNat 64 (textsize.toNat * 3 / 2)

/-- The start of the file is skipped.  What is read of the MOD0 header is never used. -/
def nroLoad (host : Host) (state : VmemRun) (nro : NroCase) : Except Fault (NroLoaded × VmemRun) :=
  let output : Module := { base := 0, entryPoint := 0 }
  match nro.found with
  | none => .ok ({ output, text := none }, state)
  | some content => do
      let (_, file) := (File.opened content).read (List.replicate 16 0) 16
      let (bytes, file) := file.read (List.replicate 112 0) 112
      let header := NroHdr.ofBytes bytes
      let textsize := header.textSeg.size
      let textpos := header.textSeg.offset
      let file := host.fseek file (textpos.setWidth 64)
      let state ← vmemStep state (.alloc (textsize.setWidth 64) .memRW nro.text)
      if nro.text = 0 then return ({ output, text := none }, state)
      let (text, _) := file.read nro.cells textsize.toNat
      let state ← vmemStep state (.alloc (destSize textsize) .memRWX nro.dest)
      return ({ output, text := some text }, state)

structure NroRun where
  memory : VmemRun
  loaded : List NroLoaded
deriving Repr, DecidableEq

def nroStep (host : Host) (state : NroRun) (nro : NroCase) : Except Fault NroRun := do
  let (loaded, memory) ← nroLoad host state.memory nro
  return { memory, loaded := state.loaded ++ [loaded] }

def runNro (host : Host) (loads : List NroCase) : Except Fault NroRun :=
  runHistory (nroStep host) { memory := { vmem := .initial, trace := [] }, loaded := [] } loads

/-- The header as it is read: it is filled up with zeros where the file ends in it. -/
def nroHeader (content : List U8) : NroHdr :=
  .ofBytes (overwrite (List.replicate 112 0) 0 ((content.drop 16).take 112))

/-- The calls of `vmem_alloc`. -/
def NroCase.allocs (nro : NroCase) : List VmemOp :=
  match nro.found with
  | none => []
  | some content =>
      let textsize := (nroHeader content).textSeg.size
      .alloc (textsize.setWidth 64) .memRW nro.text ::
        if nro.text = 0 then [] else [.alloc (destSize textsize) .memRWX nro.dest]

/-- The segment of the code. -/
def textSegment (content : List U8) : List U8 :=
  window content (nroHeader content).textSeg.offset.toNat (nroHeader content).textSeg.size.toNat

/-- The code lies inside the file, where it can be sought, and its buffer is of its size. -/
structure NroCase.Holds (host : Host) (nro : NroCase) (content : List U8) : Prop where
  found : nro.found = some content
  seeks : host.seekable ((nroHeader content).textSeg.offset.setWidth 64) = true
  inside : (nroHeader content).textSeg.offset.toNat + (nroHeader content).textSeg.size.toNat ≤ content.length
  named : nro.text ≠ 0
  cells : nro.cells.length = (nroHeader content).textSeg.size.toNat

/-- What a file comes to, wherever it is loaded. -/
def NroCase.loaded (host : Host) (nro : NroCase) : NroLoaded where
  output := { base := 0, entryPoint := 0 }
  text :=
    match nro.found with
    | none => none
    | some content =>
        if nro.text = 0 then none
        else
          let file := ((File.opened content).read (List.replicate 16 (0 : U8)) 16).2
          let file := (file.read (List.replicate 112 0) 112).2
          let file := host.fseek file ((nroHeader content).textSeg.offset.setWidth 64)
          some (file.read nro.cells (nroHeader content).textSeg.size.toNat).1

section Loads

variable {host : Host} {nro : NroCase} {content : List U8} {state : VmemRun} {history : List VmemOp}
  {op : VmemOp} {loads : List NroCase} {final : NroRun}

theorem nroHeader_read (content : List U8) :
    (((File.opened content).read (List.replicate 16 (0 : U8)) 16).2.read (List.replicate 112 0) 112).1 =
      overwrite (List.replicate 112 0) 0 ((content.drop 16).take 112) := by
  rw [File.read_buffer, File.read_rest]
  rfl

/-- Of the memory a load changes what its allocations do. -/
theorem nroLoad_allocs (host : Host) (state : VmemRun) (nro : NroCase) : nroLoad host state nro =
    (runHistory vmemStep state nro.allocs).map fun after => (nro.loaded host, after) := by
  cases found : nro.found with
  | none =>
      simp only [nroLoad, NroCase.allocs, NroCase.loaded, found]
      rfl
  | some content =>
      simp only [nroLoad, NroCase.allocs, NroCase.loaded, found, nroHeader_read]
      rw [show NroHdr.ofBytes (overwrite (List.replicate 112 0) 0 ((content.drop 16).take 112)) =
        nroHeader content from rfl]
      by_cases refused : nro.text = 0
      · simp only [refused, if_true, runHistory]
        cases vmemStep state (.alloc ((nroHeader content).textSeg.size.setWidth 64) .memRW 0) <;> rfl
      · simp only [refused, if_false, runHistory]
        cases vmemStep state (.alloc ((nroHeader content).textSeg.size.setWidth 64) .memRW nro.text) with
        | error fault => rfl
        | ok next =>
            simp only [ok_bind]
            cases vmemStep next (.alloc (destSize (nroHeader content).textSeg.size) .memRWX nro.dest) <;> rfl

theorem runNro_allocs (host : Host) (loads : List NroCase) (start : NroRun) :
    runHistory (nroStep host) start loads =
      (runHistory vmemStep start.memory (loads.flatMap NroCase.allocs)).map fun after =>
        { memory := after, loaded := start.loaded ++ loads.map (NroCase.loaded host) } := by
  induction loads generalizing start with
  | nil =>
      simp only [List.flatMap_nil, runHistory, List.map_nil, List.append_nil]
      rfl
  | cons nro loads ih =>
      rw [runHistory, nroStep, nroLoad_allocs, List.flatMap_cons, runHistory_append]
      cases runHistory vmemStep start.memory nro.allocs with
      | error fault => rfl
      | ok after =>
          change runHistory (nroStep host) { memory := after, loaded := start.loaded ++ [nro.loaded host] }
            loads = _
          rw [ih, List.append_assoc]
          rfl

theorem allocs_block : ∀ op ∈ nro.allocs, op.block.isSome = true := by
  intro op member
  unfold NroCase.allocs at member
  split at member
  · cases member
  · rcases List.mem_cons.mp member with rfl | member
    · rfl
    · split at member
      · cases member
      · rw [List.mem_singleton.mp member]
        rfl

theorem allocations_length (blocks : ∀ op ∈ history, op.block.isSome = true) :
    (allocations history).length = history.length := by
  induction history with
  | nil => rfl
  | cons op history ih =>
      obtain ⟨first, later⟩ := List.forall_mem_cons.mp blocks
      obtain ⟨block, made⟩ := Option.isSome_iff_exists.mp first
      rw [allocations, List.filterMap_cons_some made]
      exact congrArg Nat.succ (ih later)

/-- Allocations alone keep the table, and give nothing back. -/
theorem runVmem_allocs (blocks : ∀ op ∈ history, op.block.isSome = true) (run : runVmem history = .ok state) :
    state.vmem.Records history ∧ ∀ call ∈ state.trace, call.released = none := by
  induction history using List.reverseRecOn generalizing state with
  | nil =>
      cases run
      exact ⟨initial_records, by simp⟩
  | append_singleton before op ih =>
      have earlier : ∀ op ∈ before, op.block.isSome = true := fun op member =>
        blocks op (List.mem_append_left _ member)
      rw [runVmem_concat] at run
      obtain ⟨reached, ran, stepped⟩ := bind_eq_ok.mp run
      obtain ⟨records, keeps⟩ := ih earlier ran
      cases op with
      | free ptr =>
          have block := blocks (.free ptr) (List.mem_append_right _ (List.mem_singleton_self _))
          cases block
      | alloc size perm answer =>
          have room : (allocations before).length < 1024 := by
            by_contra full
            have width : reached.vmem.buffers.length ≤ reached.vmem.nextBuf.toNat := by
              rw [records.buffers, records.nextBuf, List.length_append, List.length_replicate]
              omega
            rw [vmemStep, vmemAlloc, if_neg (Nat.not_lt.mpr width)] at stepped
            cases stepped
          obtain ⟨after, allocated, kept⟩ := records.alloc size perm answer room
          rw [vmemStep, allocated] at stepped
          cases stepped
          refine ⟨kept, fun call member => ?_⟩
          rcases List.mem_append.mp member with old | new
          · exact keeps call old
          · rw [List.mem_singleton.mp new]
            exact acquireCall_released

theorem runVmem_allocs_iff (blocks : ∀ op ∈ history, op.block.isSome = true) :
    (∃ state, runVmem history = .ok state) ↔ history.length ≤ 1024 := by
  constructor
  · intro finishes
    obtain ⟨state, run⟩ := finishes
    rw [← allocations_length blocks]
    exact (runVmem_allocs blocks run).1.count
  · intro few
    induction history using List.reverseRecOn with
    | nil => exact ⟨_, rfl⟩
    | append_singleton before op ih =>
        have earlier : ∀ op ∈ before, op.block.isSome = true := fun op member =>
          blocks op (List.mem_append_left _ member)
        rw [List.length_append, List.length_singleton] at few
        obtain ⟨reached, ran⟩ := ih earlier (Nat.le_of_succ_le few)
        cases op with
        | free ptr =>
            have block := blocks (.free ptr) (List.mem_append_right _ (List.mem_singleton_self _))
            cases block
        | alloc size perm answer =>
            have room : (allocations before).length < 1024 := by rwa [allocations_length earlier]
            obtain ⟨after, allocated, -⟩ := (runVmem_allocs earlier ran).1.alloc size perm answer room
            exact ⟨_, runVmem_alloc ran allocated⟩

/-- The code is read as it is in the file. -/
theorem NroCase.Holds.text (holds : nro.Holds host content) :
    (nro.loaded host).text = some (textSegment content) := by
  have sought (file : File U8) (source : file.content = content) :
      (host.fseek file ((nroHeader content).textSeg.offset.setWidth 64)).rest =
        content.drop (nroHeader content).textSeg.offset.toNat := by
    rw [Host.fseek, File.seek_rest, if_pos holds.seeks, source, BitVec.toNat_setWidth,
      Nat.mod_eq_of_lt (by omega)]
  have inside := holds.inside
  simp only [NroCase.loaded, holds.found, holds.named, if_false]
  rw [File.read_whole holds.cells, sought _ rfl]
  · rfl
  · rw [sought _ rfl, List.length_drop]
    omega

end Loads

/-- However many files are loaded, each load comes to the same as alone: no module, and the code in a
buffer of its own.  Nothing is ever given back, so the loads go on until the table is full. -/
theorem runNro_iff (host : Host) (loads : List NroCase) :
    ((∃ final, runNro host loads = .ok final) ↔ (loads.flatMap NroCase.allocs).length ≤ 1024) ∧
    ∀ final, runNro host loads = .ok final →
      final.memory.vmem.Records (loads.flatMap NroCase.allocs) ∧
      (∀ call ∈ final.memory.trace, call.released = none) ∧
      ∀ (index : Nat) (nro : NroCase), loads[index]? = some nro →
        ∃ loaded : NroLoaded, final.loaded[index]? = some loaded ∧ loaded.output = { base := 0, entryPoint := 0 } ∧
          ∀ content, nro.Holds host content → loaded.text = some (textSegment content) := by
  have blocks : ∀ op ∈ loads.flatMap NroCase.allocs, op.block.isSome = true := by
    intro op member
    obtain ⟨nro, -, own⟩ := List.mem_flatMap.mp member
    exact allocs_block op own
  have runs := runNro_allocs host loads { memory := { vmem := .initial, trace := [] }, loaded := [] }
  change runNro host loads = (runVmem (loads.flatMap NroCase.allocs)).map _ at runs
  rw [← runVmem_allocs_iff blocks]
  cases run : runVmem (loads.flatMap NroCase.allocs) with
  | error fault =>
      rw [run] at runs
      refine ⟨?_, fun final loaded => ?_⟩
      · rw [runs]
        exact iff_of_false (by simp [Except.map]) (by simp)
      · cases runs.symm.trans loaded
  | ok memory =>
      rw [run] at runs
      refine ⟨iff_of_true ⟨_, runs⟩ ⟨memory, rfl⟩, fun final loaded => ?_⟩
      cases runs.symm.trans loaded
      obtain ⟨records, keeps⟩ := runVmem_allocs blocks run
      refine ⟨records, keeps, fun index nro here => ⟨nro.loaded host, ?_, rfl, fun content holds => holds.text⟩⟩
      simp only [List.nil_append, List.getElem?_map, here, Option.map_some]

end Koshka.Os
