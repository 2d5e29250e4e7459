import Koshka.Data.Stream
import Koshka.Main

namespace Koshka.Stdio

open Data Elf Os

/-! The loaders with the streams that they read from.

A stream stays open until it is closed.  `load_elf` closes its stream on every way out, `nro_load` does
not where its first buffer is refused, and `file_is_elf` never does.
-/

def fread (f : Nat) (buffer : List U8) (count : Nat) : Command (Streams U8) Fault (List U8) :=
  onStream .outOfBounds f fun file => file.read buffer count

def fseek (host : Host) (f : Nat) (offset : U64) : Command (Streams U8) Fault Unit :=
  onStream .outOfBounds f fun file => ((), host.fseek file offset)

def fclose (f : Nat) : Command (Streams U8) Fault Unit := Data.fclose .outOfBounds f

def fileIsElf (allocator : Allocator (File U8)) (found : Option (List U8)) :
    Command (Streams U8) Fault Bool := do
  let f ← fopen allocator found
  if f = 0 then return false
  else
    let header := Elf64Ehdr.ofBytes (← fread f (List.replicate 64 0) 64)
    return header.eIdent.take 4 = elfMag

def nextSection (host : Host) (header : Elf64Ehdr) (f : Nat) (i : U32) :
    Command (Streams U8) Fault Elf64Shdr := do
  fseek host f (header.eShoff + 64 * i.setWidth 64)
  return .ofBytes (← fread f (List.replicate 64 0) 64)

def loadSection (host : Host) (progHeader : Elf64Shdr) (sizeOut : U64) (f : Nat) :
    Command (Streams U8) Fault (Option (List U8) × U64) := do
  let size := progHeader.shSize
  fseek host f progHeader.shOffset
  match host.malloc size.toNat with
  | none =>
      fclose f
      return (none, sizeOut)
  | some buf =>
      let buf ← fread f buf size.toNat
      fclose f
      return (some buf, size)

def loadSections (host : Host) (header : Elf64Ehdr) (sizeOut : U64) (f : Nat) :
    (left : Nat) → (i : U32) → Command (Streams U8) Fault (Option (List U8) × U64)
  | 0, _ => do
      fclose f
      return (none, sizeOut)
  | left + 1, i => do
      let progHeader ← nextSection host header f i
      if doesNotMatter progHeader then loadSections host header sizeOut f left (i + 1)
      else loadSection host progHeader sizeOut f

def loadElf (allocator : Allocator (File U8)) (host : Host) (found : Option (List U8)) (sizeOut : U64) :
    Command (Streams U8) Fault (Option (List U8) × U64) := do
  let f ← fopen allocator found
  if f = 0 then return (none, sizeOut)
  else
    let header := Elf64Ehdr.ofBytes (← fread f (List.replicate 64 0) 64)
    if header.eIdent.take 4 ≠ elfMag then
      fclose f
      return (none, sizeOut)
    else if header.eMachine ≠ emAArch64 then
      fclose f
      return (none, sizeOut)
    else loadSections host header sizeOut f header.eShnum.toNat 0

/-- With the read of the MOD0 header, from where the start of the file says. -/
def nroLoad (allocator : Allocator (File U8)) (host : Host) (memory : VmemRun) (nro : NroCase) :
    Command (Streams U8) Fault (NroLoaded × VmemRun) := do
  let output : Module := { base := 0, entryPoint := 0 }
  let f ← fopen allocator nro.found
  if f = 0 then return ({ output, text := none }, memory)
  else
    let start ← fread f (List.replicate 16 0) 16
    let mod0Offset : U32 := .ofNat 32 (littleEndian start 4 4)
    let header := NroHdr.ofBytes (← fread f (List.replicate 112 0) 112)
    let textsize := header.textSeg.size
    let textpos := header.textSeg.offset
    fseek host f (textpos.setWidth 64)
    let memory ← vmemStep memory (.alloc (textsize.setWidth 64) .memRW nro.text)
    if nro.text = 0 then return ({ output, text := none }, memory)
    else
      let text ← fread f nro.cells textsize.toNat
      fseek host f (mod0Offset.setWidth 64)
      let _ ← fread f (List.replicate 40 0) 40
      let memory ← vmemStep memory (.alloc (destSize textsize) .memRWX nro.dest)
      fclose f
      return ({ output, text := some text }, memory)

/-- A call of a loader, with the file that is at the path. -/
inductive LoadCall where
  | fileIsElf (found : Option (List U8))
  | loadElf (found : Option (List U8)) (sizeOut : U64)
  | nroLoad (nro : NroCase)
deriving Repr, DecidableEq

inductive Loaded where
  | fileIsElf (answer : Bool)
  | loadElf (buffer : Option (List U8)) (sizeOut : U64)
  | nroLoad (loaded : NroLoaded)
deriving Repr, DecidableEq

def loadCall (allocator : Allocator (File U8)) (host : Host) (memory : VmemRun) :
    LoadCall → Command (Streams U8) Fault (Loaded × VmemRun)
  | .fileIsElf found => do
      let answer ← fileIsElf allocator found
      return (.fileIsElf answer, memory)
  | .loadElf found sizeOut => do
      let (buffer, sizeOut) ← loadElf allocator host found sizeOut
      return (.loadElf buffer sizeOut, memory)
  | .nroLoad nro => do
      let (loaded, memory) ← nroLoad allocator host memory nro
      return (.nroLoad loaded, memory)

def runLoads (allocator : Allocator (File U8)) (host : Host) :
    VmemRun → List LoadCall → Command (Streams U8) Fault (List Loaded × VmemRun)
  | memory, [] => return ([], memory)
  | memory, call :: calls => do
      let (loaded, memory) ← loadCall allocator host memory call
      let (rest, memory) ← runLoads allocator host memory calls
      return (loaded :: rest, memory)

/-- What the call does without streams. -/
def loadAlone (host : Host) (memory : VmemRun) : LoadCall → Except Fault (Loaded × VmemRun)
  | .fileIsElf found => .ok (.fileIsElf (Elf.fileIsElf found), memory)
  | .loadElf found sizeOut =>
      let (buffer, sizeOut) := Elf.loadElf host found sizeOut
      .ok (.loadElf buffer sizeOut, memory)
  | .nroLoad nro => do
      let (loaded, memory) ← Os.nroLoad host memory nro
      return (.nroLoad loaded, memory)

def runAlone (host : Host) : VmemRun → List LoadCall → Except Fault (List Loaded × VmemRun)
  | memory, [] => .ok ([], memory)
  | memory, call :: calls => do
      let (loaded, memory) ← loadAlone host memory call
      let (rest, memory) ← runAlone host memory calls
      return (loaded :: rest, memory)

def LoadCall.found : LoadCall → Option (List U8)
  | .fileIsElf found => found
  | .loadElf found _ => found
  | .nroLoad nro => nro.found

/-- The call, with another file at its path. -/
def LoadCall.given (found : Option (List U8)) : LoadCall → LoadCall
  | .fileIsElf _ => .fileIsElf found
  | .loadElf _ sizeOut => .loadElf found sizeOut
  | .nroLoad nro => .nroLoad { nro with found }

/-- The call never closes the stream that it opens. -/
def LoadCall.leaks : LoadCall → Bool
  | .fileIsElf found => found.isSome
  | .loadElf _ _ => false
  | .nroLoad nro => nro.found.isSome && nro.text = 0

/-- The calls as they go where only so many streams can still be left open: from then on, no file is found. -/
def admitted : (room : Nat) → List LoadCall → List LoadCall
  | _, [] => []
  | room, call :: calls =>
      (if 0 < room then call else call.given none) :: admitted (if call.leaks then room - 1 else room) calls

/-- `main`, with its own streams. -/
def main (allocator : Allocator (File U8)) (around : Surroundings) (argv : List String) :
    Command (Streams U8) Fault Nat :=
  match argv with
  | _ :: path :: _ => do
      if around.common.pathHasExtension path ".nro" then
        let _ ← nroLoad allocator around.host { vmem := .initial, trace := [] } (around.nroCase path)
        return 0
      else if ← fileIsElf allocator (around.files path) then
        match ← loadElf allocator around.host (around.files path) 0 with
        | (none, _) => return exitFailure
        | (some armBuf, size) => if size = 0 then return exitFailure else generate around armBuf size
      else
        let size := around.common.fileSize path
        match around.common.fileLoad path with
        | none => return exitFailure
        | some armBuf => if size.slt 1 then return exitFailure else generate around armBuf size
  | _ => return 1

/-- The streams that the program still has open when it ends. -/
def leftOpen (around : Surroundings) (argv : List String) : Nat :=
  match argv with
  | _ :: path :: _ =>
      if around.common.pathHasExtension path ".nro" then
        if (around.files path).isSome ∧ around.nroText = 0 then 1 else 0
      else if (around.files path).isSome then 1 else 0
  | _ => 0

section Calls

variable {allocator : Allocator (File U8)} {host : Host} {found : Option (List U8)} {sizeOut : U64}
  {base streams : Streams U8} {f : Nat} {file : File U8} {header : Elf64Ehdr} {progHeader : Elf64Shdr}
  {buffer : List U8} {count left : Nat} {offset : U64} {i : U32}

theorem fread_reads (reads : Reads base f streams file) (buffer : List U8) (count : Nat) :
    ∃ after, Returns (fread f buffer count) streams (file.read buffer count).1 after ∧
      Reads base f after (file.read buffer count).2 :=
  reads.use Fault.outOfBounds fun file => file.read buffer count

theorem fseek_reads (reads : Reads base f streams file) (host : Host) (offset : U64) :
    ∃ after, Returns (fseek host f offset) streams () after ∧ Reads base f after (host.fseek file offset) :=
  reads.use Fault.outOfBounds fun file => ((), host.fseek file offset)

/-- What a way out that closes the stream returns. -/
theorem fclose_reads {α : Type} (reads : Reads base f streams file) (value : α) :
    ∃ after, Returns (do fclose f; return value) streams value after ∧ Restores base after := by
  obtain ⟨after, closing, restores⟩ := reads.close Fault.outOfBounds
  exact ⟨after, returns_bind.mpr ⟨(), after, closing, returns_pure.mpr ⟨rfl, rfl⟩⟩, restores⟩

theorem nextSection_reads (reads : Reads base f streams file) (host : Host) (header : Elf64Ehdr) (i : U32) :
    ∃ after, Returns (nextSection host header f i) streams (Elf.nextSection host header i file).1 after ∧
      Reads base f after (Elf.nextSection host header i file).2 := by
  obtain ⟨sought, seeking, reads⟩ := fseek_reads reads host (header.eShoff + 64 * i.setWidth 64)
  obtain ⟨after, reading, reads⟩ := fread_reads reads (List.replicate 64 0) 64
  refine ⟨after, ?_, reads⟩
  exact returns_bind.mpr ⟨_, sought, seeking, returns_bind.mpr ⟨_, after, reading, returns_pure.mpr ⟨rfl, rfl⟩⟩⟩

theorem loadSection_closes (reads : Reads base f streams file) (host : Host) (progHeader : Elf64Shdr)
    (sizeOut : U64) : ∃ after,
      Returns (loadSection host progHeader sizeOut f) streams (Elf.loadSection host progHeader sizeOut file) after ∧
      Restores base after := by
  obtain ⟨sought, seeking, reads⟩ := fseek_reads reads host progHeader.shOffset
  cases allocated : host.malloc progHeader.shSize.toNat with
  | none =>
      obtain ⟨after, closing, restores⟩ := fclose_reads reads (none, sizeOut)
      refine ⟨after, ?_, restores⟩
      simp only [loadSection, Elf.loadSection, allocated]
      exact returns_bind.mpr ⟨_, sought, seeking, closing⟩
  | some buf =>
      obtain ⟨read, reading, reads⟩ := fread_reads reads buf progHeader.shSize.toNat
      obtain ⟨after, closing, restores⟩ := fclose_reads reads
        (some ((host.fseek file progHeader.shOffset).read buf progHeader.shSize.toNat).1, progHeader.shSize)
      refine ⟨after, ?_, restores⟩
      simp only [loadSection, Elf.loadSection, allocated]
      exact returns_bind.mpr ⟨_, sought, seeking, returns_bind.mpr ⟨_, read, reading, closing⟩⟩

theorem loadSections_closes (reads : Reads base f streams file) (host : Host) (header : Elf64Ehdr)
    (sizeOut : U64) (left : Nat) (i : U32) : ∃ after,
      Returns (loadSections host header sizeOut f left i) streams
        (Elf.loadSections host header sizeOut left i file) after ∧ Restores base after := by
  induction left generalizing streams file i with
  | zero => exact fclose_reads reads (none, sizeOut)
  | succ left ih =>
      obtain ⟨next, looking, reads⟩ := nextSection_reads reads host header i
      rw [Elf.loadSections]
      dsimp only
      cases skipped : doesNotMatter (Elf.nextSection host header i file).1 with
      | true =>
          obtain ⟨after, rest, restores⟩ := ih reads (i + 1)
          refine ⟨after, returns_bind.mpr ⟨_, next, looking, ?_⟩, restores⟩
          rwa [skipped]
      | false =>
          obtain ⟨after, loading, restores⟩ := loadSection_closes reads host _ sizeOut
          refine ⟨after, returns_bind.mpr ⟨_, next, looking, ?_⟩, restores⟩
          rwa [skipped]

/-- Whatever the file is and however far the loader gets, its stream is closed, and that once. -/
theorem loadElf_closes (allocator : Allocator (File U8)) (host : Host) (found : Option (List U8))
    (sizeOut : U64) (streams : Streams U8) : ∃ after,
      Returns (loadElf allocator host found sizeOut) streams
        (Elf.loadElf host (opens allocator streams found) sizeOut) after ∧ Restores streams after := by
  cases opened : opens allocator streams found with
  | none =>
      refine ⟨streams, returns_bind.mpr ⟨0, streams, fopen_none opened, ?_⟩, .refl⟩
      rw [if_pos rfl]
      exact returns_pure.mpr ⟨rfl, rfl⟩
  | some content =>
      obtain ⟨f, first, opening, named, reads⟩ := fopen_some opened (ε := Fault)
      obtain ⟨read, reading, reads⟩ := fread_reads reads (List.replicate 64 0) 64
      suffices rest : ∃ after, Returns _ read (Elf.loadElf host (some content) sizeOut) after ∧
          Restores streams after by
        obtain ⟨after, rest, restores⟩ := rest
        refine ⟨after, returns_bind.mpr ⟨f, first, opening, ?_⟩, restores⟩
        rw [if_neg named]
        exact returns_bind.mpr ⟨_, read, reading, rest⟩
      rw [Elf.loadElf]
      dsimp only
      split
      · exact fclose_reads reads (none, sizeOut)
      · split
        · exact fclose_reads reads (none, sizeOut)
        · exact loadSections_closes reads host _ sizeOut _ 0

/-- Whatever the file is, its stream stays open. -/
theorem fileIsElf_leaks (allocator : Allocator (File U8)) (found : Option (List U8)) (streams : Streams U8) :
    ∃ after, Returns (fileIsElf allocator found) streams (Elf.fileIsElf (opens allocator streams found)) after ∧
      after.held = streams.held + if (opens allocator streams found).isSome then 1 else 0 := by
  cases opened : opens allocator streams found with
  | none =>
      refine ⟨streams, returns_bind.mpr ⟨0, streams, fopen_none opened, ?_⟩, rfl⟩
      rw [if_pos rfl]
      exact returns_pure.mpr ⟨rfl, rfl⟩
  | some content =>
      obtain ⟨f, first, opening, named, reads⟩ := fopen_some opened (ε := Fault)
      obtain ⟨after, reading, reads⟩ := fread_reads reads (List.replicate 64 0) 64
      refine ⟨after, returns_bind.mpr ⟨f, first, opening, ?_⟩, reads.held⟩
      rw [if_neg named]
      exact returns_bind.mpr ⟨_, after, reading, returns_pure.mpr ⟨rfl, rfl⟩⟩

/-- The stream of an NRO file stays open if its first buffer is refused. -/
theorem nroLoad_leaks (allocator : Allocator (File U8)) (host : Host) (memory : VmemRun) (nro : NroCase)
    (streams : Streams U8) :
    Meets (nroLoad allocator host memory nro) streams
      (Os.nroLoad host memory { nro with found := opens allocator streams nro.found }) fun after =>
        after.held = streams.held + if (opens allocator streams nro.found).isSome ∧ nro.text = 0 then 1 else 0 := by
  cases opened : opens allocator streams nro.found with
  | none =>
      refine .of_step (fopen_none opened) ?_
      rw [if_pos rfl]
      exact .done (by simp)
  | some content =>
      obtain ⟨f, first, opening, named, reads⟩ := fopen_some opened (ε := Fault)
      obtain ⟨start, starting, reads⟩ := fread_reads reads (List.replicate 16 0) 16
      obtain ⟨head, heading, reads⟩ := fread_reads reads (List.replicate 112 0) 112
      refine .of_step opening ?_
      rw [if_neg named]
      refine .of_step starting (.of_step heading ?_)
      generalize parsed : NroHdr.ofBytes _ = header
      obtain ⟨sought, seeking, reads⟩ := fseek_reads reads host (header.textSeg.offset.setWidth 64)
      refine .of_step seeking ?_
      simp only [Os.nroLoad, parsed]
      refine .lift fun memory => ?_
      by_cases refused : nro.text = 0
      · rw [if_pos refused, if_pos refused, if_pos ⟨rfl, refused⟩]
        exact .done reads.held
      · rw [if_neg refused, if_neg refused, if_neg fun both => refused both.2]
        obtain ⟨read, reading, reads⟩ := fread_reads reads nro.cells header.textSeg.size.toNat
        obtain ⟨moved, moving, reads⟩ := fseek_reads reads host _
        obtain ⟨skipped, skipping, reads⟩ := fread_reads reads (List.replicate 40 0) 40
        refine .of_step reading (.of_step moving (.of_step skipping (.lift fun memory => ?_)))
        obtain ⟨after, closing, restores⟩ := fclose_reads reads _
        exact ⟨after, closing, restores.held⟩

variable {memory : VmemRun} {call : LoadCall} {calls : List LoadCall} {limit : Nat}

theorem LoadCall.given_found : call.given call.found = call := by
  cases call <;> rfl

theorem LoadCall.leaks_none : (call.given none).leaks = false := by
  cases call <;> rfl

theorem loadCall_leaks (allocator : Allocator (File U8)) (host : Host) (memory : VmemRun) (call : LoadCall)
    (streams : Streams U8) :
    let met := call.given (opens allocator streams call.found)
    Meets (loadCall allocator host memory call) streams (loadAlone host memory met) fun after =>
      after.held = streams.held + if met.leaks then 1 else 0 := by
  cases call with
  | fileIsElf found =>
      obtain ⟨after, run, held⟩ := fileIsElf_leaks allocator found streams
      exact .of_step run (.done held)
  | loadElf found sizeOut =>
      obtain ⟨after, run, restores⟩ := loadElf_closes allocator host found sizeOut streams
      exact .of_step run (.done restores.held)
  | nroLoad nro =>
      refine (nroLoad_leaks allocator host memory nro streams).bind fun done after held => .done ?_
      rw [held]
      simp [LoadCall.given, LoadCall.found, LoadCall.leaks]

theorem loadCall_limited (limits : allocator.Limits limit) (host : Host) (memory : VmemRun) (call : LoadCall)
    (streams : Streams U8) :
    let met := if 0 < limit - streams.held then call else call.given none
    Meets (loadCall allocator host memory call) streams (loadAlone host memory met) fun after =>
      after.held = streams.held + if met.leaks then 1 else 0 := by
  have met := loadCall_leaks allocator host memory call streams
  rw [opens_limited limits] at met
  by_cases room : streams.held < limit
  · rw [if_pos room, LoadCall.given_found] at met
    rwa [if_pos (Nat.sub_pos_of_lt room)]
  · rw [if_neg room] at met
    rwa [if_neg fun more => room (Nat.lt_of_sub_pos more)]

theorem runLoads_meets (limits : allocator.Limits limit) (host : Host) (memory : VmemRun)
    (calls : List LoadCall) (streams : Streams U8) (within : streams.held ≤ limit) :
    Meets (runLoads allocator host memory calls) streams
      (runAlone host memory (admitted (limit - streams.held) calls)) fun after =>
        after.held = min limit (streams.held + calls.countP LoadCall.leaks) := by
  induction calls generalizing memory streams with
  | nil => exact .done (by simpa using within)
  | cons call calls ih =>
      refine (loadCall_limited limits host memory call streams).bind fun done middle held => ?_
      -- What the call leaves open, and what is left for the rest.
      have step : middle.held ≤ limit ∧
          limit - middle.held = (if call.leaks then limit - streams.held - 1 else limit - streams.held) ∧
          min limit (middle.held + calls.countP LoadCall.leaks) =
            min limit (streams.held + (call :: calls).countP LoadCall.leaks) := by
        rw [List.countP_cons]
        by_cases room : 0 < limit - streams.held
        · rw [if_pos room] at held
          cases leaks : call.leaks with
          | false =>
              simp only [leaks, Bool.false_eq_true, if_false] at held ⊢
              omega
          | true =>
              simp only [leaks, if_true] at held ⊢
              omega
        · -- Nothing can be opened, and the count of the leaks is cut off.
          rw [if_neg room, LoadCall.leaks_none, if_neg Bool.false_ne_true] at held
          split <;> omega
      obtain ⟨below, left, total⟩ := step
      rw [← left, ← total]
      exact (ih done.2 middle below).bind fun rest final held => .done held

end Calls

/-- However the streams are placed, a run of calls never uses one that is closed: it does what the calls do
alone, but that no file is found from the moment on where so many are open that were never closed. -/
theorem runLoads_admitted (allocator : Allocator (File U8)) (limit : Nat) (limits : allocator.Limits limit)
    (host : Host) (calls : List LoadCall) :
    ((runLoads allocator host { vmem := .initial, trace := [] } calls).run .empty).map
        (fun done => (done.1, done.2.held)) =
      (runAlone host { vmem := .initial, trace := [] } (admitted limit calls)).map
        fun done => (done, min limit (calls.countP LoadCall.leaks)) := by
  have meets := runLoads_meets limits host { vmem := .initial, trace := [] } calls .empty (Nat.zero_le _)
  have run := meets.map_run
  simpa only [Heap.held_empty, Nat.sub_zero, Nat.zero_add] using run

/-- Two questions about the same file fill the streams up, whatever is loaded in between. -/
theorem runLoads_admitted_full :
    ((runLoads (.limited 2) posix { vmem := .initial, trace := [] } [.fileIsElf (some elfMag),
        .loadElf (some elfMag) 7, .fileIsElf (some elfMag), .fileIsElf (some elfMag)]).run .empty).map
      (fun done => (done.1, done.2.held)) =
    .ok (([.fileIsElf true, .loadElf none 7, .fileIsElf true, .fileIsElf false],
      { vmem := .initial, trace := [] }), 2) := by
  have run := runLoads_admitted (.limited 2) 2 (Allocator.limited_limits 2) posix [.fileIsElf (some elfMag),
    .loadElf (some elfMag) 7, .fileIsElf (some elfMag), .fileIsElf (some elfMag)]
  exact run.trans rfl

section Main

variable {allocator : Allocator (File U8)} {limit : Nat} {around : Surroundings} {streams : Streams U8}
  {property : Streams U8 → Prop}

/-- Code is generated without streams. -/
theorem generate_meets (holds : property streams) (armBuf : List U8) (size : U64) (empty : Prop)
    [Decidable empty] : Meets
      (if empty then pure exitFailure else generate around armBuf size : Command (Streams U8) Fault Nat) streams
      (if empty then .ok exitFailure else generate around armBuf size) property := by
  split
  · exact .done holds
  · exact .lifted holds

theorem main_meets (limits : allocator.Limits limit) (two : 2 ≤ limit) (around : Surroundings)
    (argv : List String) :
    Meets (main allocator around argv) .empty (Koshka.main around argv) fun after =>
      after.held = leftOpen around argv := by
  have serves {streams : Streams U8} (few : streams.held ≤ 1) (found : Option (List U8)) :
      opens allocator streams found = found := by
    rw [opens_limited limits, if_pos (by omega)]
  match argv with
  | [] => exact .done rfl
  | [_] => exact .done rfl
  | _ :: path :: _ =>
      simp only [main, Koshka.main, leftOpen]
      by_cases nro : around.common.pathHasExtension path ".nro" = true
      · rw [if_pos nro, if_pos nro, if_pos nro]
        have loads := nroLoad_leaks allocator around.host { vmem := .initial, trace := [] }
          (around.nroCase path) .empty
        rw [serves (Nat.zero_le _)] at loads
        refine loads.bind fun done after held => .done ?_
        rw [held, Heap.held_empty, Nat.zero_add]
        rfl
      · rw [if_neg nro, if_neg nro, if_neg nro]
        obtain ⟨asked, asking, held⟩ := fileIsElf_leaks allocator (around.files path) .empty
        rw [serves (Nat.zero_le _)] at asking held
        rw [Heap.held_empty, Nat.zero_add] at held
        refine .of_step asking ?_
        cases elf : Elf.fileIsElf (around.files path) with
        | false =>
            rw [if_neg Bool.false_ne_true, if_neg Bool.false_ne_true]
            cases around.common.fileLoad path with
            | none => exact .done held
            | some armBuf => exact generate_meets held armBuf _ _
        | true =>
            have few : asked.held ≤ 1 := by
              rw [held]
              split <;> omega
            obtain ⟨after, loading, restores⟩ := loadElf_closes allocator around.host (around.files path) 0 asked
            rw [serves few] at loading
            rw [← restores.held] at held
            rw [if_pos rfl, if_pos rfl]
            refine .of_step loading ?_
            rcases Elf.loadElf around.host (around.files path) 0 with ⟨_ | armBuf, size⟩
            · exact .done held
            · exact generate_meets held armBuf size _

end Main

/-- Where two streams can be open at a time, `main` ends as it does without streams.  It leaves the one open
that tells whether the file is an ELF file, and that of an NRO file whose first buffer is refused. -/
theorem main_leaves (allocator : Allocator (File U8)) (limit : Nat) (limits : allocator.Limits limit)
    (two : 2 ≤ limit) (around : Surroundings) (argv : List String) :
    ((main allocator around argv).run .empty).map (fun done => (done.1, done.2.held)) =
      (Koshka.main around argv).map fun status => (status, leftOpen around argv) :=
  (main_meets limits two around argv).map_run

theorem main_leaves_branch :
    ((main (.limited 2) oneFile ["koshka", "b.bin"]).run .empty).map (fun done => (done.1, done.2.held)) =
      .ok (exitSuccess, 1) :=
  (main_leaves (.limited 2) 2 (Allocator.limited_limits 2) (Nat.le_refl 2) oneFile ["koshka", "b.bin"]).trans
    (by decide +kernel)

end Koshka.Stdio
