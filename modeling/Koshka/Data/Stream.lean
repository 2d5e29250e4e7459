import Koshka.Data.Command
import Koshka.Data.File
import Koshka.Data.Heap

namespace Koshka.Data

/-! Streams: open files, each at an address of its own.

That a file is opened can be refused.  Whatever is done with a stream that is not open stops the run.
-/

abbrev Streams (α : Type) := Heap (File α)

section Stream

variable {α β ε : Type} {fault : ε} {allocator : Allocator (File α)} {found : Option (List α)}
  {content : List α} {base streams : Streams α} {stream : Nat} {file : File α}

/-- The address of the stream, or 0. -/
def fopen (allocator : Allocator (File α)) (found : Option (List α)) : Command (Streams α) ε Nat :=
  match found with
  | some content => modifyGet fun streams => streams.allocate allocator [.opened content]
  | none => pure 0

def onStream (fault : ε) (stream : Nat) (use : File α → β × File α) : Command (Streams α) ε β :=
  fun streams =>
    match streams.block stream with
    | some [file] => .ok ((use file).1, streams.store stream [(use file).2])
    | _ => .error fault

def fclose (fault : ε) (stream : Nat) : Command (Streams α) ε Unit :=
  fun streams =>
    if live : streams.Live stream then .ok ((), streams.release stream live) else .error fault

/-- What opening the file comes to. -/
def opens (allocator : Allocator (File α)) (streams : Streams α) (found : Option (List α)) : Option (List α) :=
  found.filter fun _ => (allocator.answer streams 1).isSome

/-- One stream is open, and it is the only difference to the streams of before. -/
structure Reads (base : Streams α) (stream : Nat) (streams : Streams α) (file : File α) : Prop where
  free : base.block stream = none
  here : streams.block stream = some [file]
  elsewhere : ∀ other, other ≠ stream → streams.block other = base.block other
  held : streams.held = base.held + 1

/-- The same streams are open as before. -/
structure Restores (base after : Streams α) : Prop where
  block : after.block = base.block
  held : after.held = base.held

theorem Restores.refl : Restores base base := ⟨rfl, rfl⟩

theorem Reads.live (reads : Reads base stream streams file) : streams.Live stream := by
  rw [Heap.Live, reads.here]
  rfl

theorem fopen_none (missing : opens allocator streams found = none) :
    (fopen allocator found : Command (Streams α) ε Nat).run streams = .ok (0, streams) := by
  cases found with
  | none => rfl
  | some content =>
      have refused : allocator.answer streams 1 = none := by
        rw [← Option.not_isSome_iff_eq_none]
        simpa [opens] using missing
      exact congrArg Except.ok (Heap.allocate_refused refused)

theorem fopen_some (opened : opens allocator streams found = some content) :
    ∃ stream after, (fopen allocator found : Command (Streams α) ε Nat).run streams = .ok (stream, after) ∧
      stream ≠ 0 ∧ Reads streams stream after (.opened content) := by
  obtain ⟨rfl, granted⟩ := Option.filter_eq_some_iff.mp opened
  obtain ⟨address, answer⟩ := Option.isSome_iff_exists.mp granted
  have granted : allocator.answer streams [File.opened content].length = some address := answer
  obtain ⟨free, named⟩ := allocator.fresh granted
  refine ⟨address, _, congrArg Except.ok (Heap.allocate_granted granted), named, free, ?_, ?_, Heap.held_acquire⟩
  · rw [Heap.block_acquire, Function.update_self]
  · intro other apart
    rw [Heap.block_acquire, Function.update_of_ne apart]

theorem Reads.use (reads : Reads base stream streams file) (fault : ε) (use : File α → β × File α) :
    ∃ after, (onStream fault stream use).run streams = .ok ((use file).1, after) ∧
      Reads base stream after (use file).2 := by
  refine ⟨streams.store stream [(use file).2], ?_, reads.free, ?_, ?_, ?_⟩
  · simp only [onStream, StateT.run, reads.here]
  · rw [Heap.block_store reads.live, Function.update_self]
  · intro other apart
    rw [Heap.store_elsewhere apart, reads.elsewhere other apart]
  · rw [Heap.held_store, reads.held]

/-- Once the stream is closed, all is as it was before it was opened. -/
theorem Reads.close (reads : Reads base stream streams file) (fault : ε) :
    ∃ after : Streams α, (fclose fault stream).run streams = .ok ((), after) ∧ Restores base after := by
  refine ⟨streams.release stream reads.live, dif_pos reads.live, ?_, ?_⟩
  · funext other
    by_cases same : other = stream
    · rw [same, reads.free]
      exact Function.update_self ..
    · rw [← reads.elsewhere other same]
      exact Function.update_of_ne same _ _
  · have released := Heap.held_release reads.live
    rw [reads.held] at released
    exact Nat.succ.inj released

/-- The allocator whose streams can be at most so many at a time. -/
def Allocator.limited (limit : Nat) : Allocator α where
  answer heap count := if heap.held < limit then (Allocator.bump α).answer heap count else none
  fresh := by
    intro heap count address answered
    split at answered
    · exact (Allocator.bump α).fresh answered
    · cases answered

/-- So many blocks can be live at a time, and no more. -/
def Allocator.Limits (allocator : Allocator α) (limit : Nat) : Prop :=
  ∀ heap count, (allocator.answer heap count).isSome = decide (heap.held < limit)

theorem Allocator.limited_limits (limit : Nat) : (Allocator.limited limit : Allocator α).Limits limit := by
  intro heap count
  simp only [limited]
  split <;> simp_all [Allocator.bump]

theorem opens_limited {limit : Nat} (limits : allocator.Limits limit) :
    opens allocator streams found = if streams.held < limit then found else none := by
  rw [opens]
  cases found with
  | none => simp
  | some content => simp [Option.filter, limits streams 1]

end Stream

end Koshka.Data
