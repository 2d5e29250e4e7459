import Koshka.Imlgen.Calls

namespace Koshka.Iml

open Data

inductive Access where
  /-- The four bytes behind `arm_instr`. -/
  | readWord (pos : PoolHandle)
  | setBit (index : U32)
  | getBit (index : U32)
deriving Repr, DecidableEq

def Access.Inside (program : Program) : Access → Prop
  | .readWord pos => pos.toNat + 4 ≤ program.armPool.allocSize.toNat
  | .setBit index => Boolset.bytePos index < program.decodedInstrs.byteSize.toNat
  | .getBit index => Boolset.bytePos index < program.decodedInstrs.byteSize.toNat

/-- The accesses of a run, whether it returns or not: a call reads its word, sets its bit when
the nested call has returned, and asks for the bit once the instruction is linked. -/
inductive Accesses (env : Environment) (start : Machine) : Access → Prop
  | readWord {index : Nat} {pos : PoolHandle} {before : Machine}
      (called : Called env start index pos before) : Accesses env start (.readWord pos)
  | setBit {index fuel : Nat} {pos decoded next : PoolHandle} {before pushed middle : Machine}
      {result : DecodeResult} (called : Called env start index pos before)
      (entered : Returns (enterCall env pos) before (result, decoded) pushed)
      (guard : pos + 4 < before.program.armPool.allocSize)
      (nested : Returns (imlgenRecurse env fuel (pos + 4)) pushed next middle) :
      Accesses env start (.setBit (pos / 4))
  | getBit {index fuel : Nat} {pos decoded next : PoolHandle} {before pushed followed linked : Machine}
      {result : DecodeResult} (called : Called env start index pos before)
      (entered : Returns (enterCall env pos) before (result, decoded) pushed)
      (follow : Returns (followCall env fuel before.program.armPool.allocSize pos result.instr.next) pushed
        next followed)
      (link : Returns (writeNext decoded next) followed () linked) :
      Accesses env start (.getBit (pos / 4))

section Accesses

variable {env : Environment} {before pushed : Machine} {code : List U8} {size : U32} {index : Nat}
  {pos decoded : PoolHandle} {result : DecodeResult}

theorem index_inside (whole : index < size.toNat / 4) (place : pos.toNat = 4 * index) :
    Boolset.bytePos (pos / 4) < (Machine.initial env code size).program.decodedInstrs.byteSize.toNat := by
  change _ < (boolsetByteSize (size / 4)).toNat
  rw [boolsetByteSize_toNat, bytePos_eq, BitVec.toNat_udiv, BitVec.toNat_udiv, place]
  change 4 * index / 4 / 8 < (size.toNat / 4 + 7) / 8
  omega

/-- A call that gets past its read is one of a whole word. -/
theorem Called.whole (length : code.length = size.toNat) (positive : 0 < size)
    (called : Called env (.initial env code size) index pos before)
    (entered : Returns (enterCall env pos) before (result, decoded) pushed) : index < size.toNat / 4 := by
  obtain ⟨word, _, loaded, _⟩ := enterCall_returns.mp entered
  obtain ⟨bound, _⟩ := List.getElem?_eq_some_iff.mp (called.reads positive loaded)
  rwa [wordsOf_length, length] at bound

theorem words_taken (length : code.length = size.toNat) (all : size.toNat / 4 ≤ index) :
    (wordsOf code).take index = wordsOf code :=
  List.take_of_length_le (by rwa [wordsOf_length, length])

/-- A call behind the whole words comes after all of them. -/
theorem called_partly (length : code.length = size.toNat) (positive : 0 < size)
    (called : Called env (.initial env code size) index pos before) (partly : ¬ index < size.toNat / 4) :
    (∀ word ∈ wordsOf code, Accepted word) ∧
      ∃ after, Returns (pushWords env (wordsOf code)) (.initial env code size) () after := by
  obtain ⟨_, _, accepted, pushes⟩ := (called_iff length positive).mp ⟨before, called⟩
  rw [words_taken length (Nat.le_of_not_lt partly)] at accepted pushes
  exact ⟨accepted, pushes⟩

/-- Bytes that are left over behind the words are read as one more. -/
theorem reads_outside (length : code.length = size.toNat) (positive : 0 < size)
    (partly : ¬ size.toNat % 4 = 0) (accepted : ∀ word ∈ wordsOf code, Accepted word)
    (pushes : ∃ after, Returns (pushWords env (wordsOf code)) (.initial env code size) () after) :
    ∃ pos, Accesses env (.initial env code size) (.readWord pos) ∧
      ¬ (Access.readWord pos).Inside (Machine.initial env code size).program := by
  have last : 4 * (size.toNat / 4) < size.toNat := by omega
  rw [← words_taken length (Nat.le_refl _)] at accepted pushes
  obtain ⟨before, called⟩ := (called_iff length positive).mpr ⟨rfl, last, accepted, pushes⟩
  refine ⟨_, .readWord called, fun read => ?_⟩
  rw [Access.Inside, (called.position positive).1] at read
  change _ ≤ size.toNat at read
  omega

end Accesses

/-- Every access stays inside, unless all whole words are decoded and stored and there are
bytes left over, which are then read as if they were a word. -/
theorem accesses_inside_iff (env : Environment) (code : List U8) (size : U32)
    (length : code.length = size.toNat) (positive : 0 < size) :
    (∀ access, Accesses env (.initial env code size) access →
      access.Inside (Machine.initial env code size).program) ↔
    size.toNat % 4 = 0 ∨ (∃ word ∈ wordsOf code, ¬ Accepted word) ∨
      ¬ ∃ after, Returns (pushWords env (wordsOf code)) (.initial env code size) () after := by
  constructor
  · intro inside
    by_contra missed
    rw [not_or, not_or, not_not] at missed
    obtain ⟨partly, none, pushes⟩ := missed
    have accepted : ∀ word ∈ wordsOf code, Accepted word := by
      intro word member
      by_contra rejected
      exact none ⟨word, member, rejected⟩
    obtain ⟨_, accessed, outside⟩ := reads_outside length positive partly accepted pushes
    exact outside (inside _ accessed)
  · intro condition access accessed
    cases accessed with
    | readWord called =>
        rename_i index pos before
        obtain ⟨place, inside⟩ := called.position positive
        rw [Access.Inside, place]
        change _ ≤ size.toNat
        by_cases whole : index < size.toNat / 4
        · omega
        · obtain ⟨accepted, pushes⟩ := called_partly length positive called whole
          rcases condition with multiple | ⟨word, member, rejected⟩ | stops
          · omega
          · exact absurd (accepted word member) rejected
          · exact absurd pushes stops
    | setBit called entered guard nested =>
        exact index_inside (called.whole length positive entered) (called.position positive).1
    | getBit called entered follow link =>
        exact index_inside (called.whole length positive entered) (called.position positive).1

/-- Two `b` instructions. -/
theorem accesses_inside_iff_two :
    (∀ access, Accesses .calm (.initial .calm [2, 0, 0, 0x14, 2, 0, 0, 0x14] 8) access →
      access.Inside (Machine.initial .calm [2, 0, 0, 0x14, 2, 0, 0, 0x14] 8).program) ↔
    (8 : U32).toNat % 4 = 0 ∨ (∃ word ∈ wordsOf [2, 0, 0, 0x14, 2, 0, 0, 0x14], ¬ Accepted word) ∨
      ¬ ∃ after, Returns (pushWords .calm (wordsOf [2, 0, 0, 0x14, 2, 0, 0, 0x14]))
        (.initial .calm [2, 0, 0, 0x14, 2, 0, 0, 0x14] 8) () after :=
  accesses_inside_iff .calm [2, 0, 0, 0x14, 2, 0, 0, 0x14] 8 rfl (by decide)

/-- A file of one byte is read as a word. -/
theorem accesses_leave_byte :
    ¬ ∀ (env : Environment) (code : List U8) (size : U32), code.length = size.toNat → 0 < size →
      ∀ access, Accesses env (.initial env code size) access →
        access.Inside (Machine.initial env code size).program := by
  intro inside
  have read := inside .calm [0] 1 rfl (by decide) (.readWord 0) (.readWord .first)
  change 0 + 4 ≤ 1 at read
  omega

end Koshka.Iml
