import Koshka.Boolset
import Koshka.Data.History

namespace Koshka

open Data

inductive BoolsetCall where
  | setBit (pos : U32) (value : Bool)
  | setAll (value : Bool)
deriving Repr, DecidableEq

namespace BoolsetCall

def Inside (bitCount : U32) : BoolsetCall → Prop
  | .setBit pos _ => pos < bitCount
  | .setAll _ => True

instance (bitCount : U32) : DecidablePred (Inside bitCount)
  | .setBit pos _ => inferInstanceAs (Decidable (pos < bitCount))
  | .setAll _ => inferInstanceAs (Decidable True)

def covers : BoolsetCall → U32 → Bool
  | .setBit pos _, other => other == pos
  | .setAll _, _ => true

def value : BoolsetCall → Bool
  | .setBit _ value => value
  | .setAll value => value

/-- What the call leaves in the bits that it covers. -/
def stored : BoolsetCall → Bool
  | .setBit _ _ => true
  | .setAll value => value

end BoolsetCall

def Boolset.call (set : Boolset) : BoolsetCall → Except Fault Boolset
  | .setBit pos value => set.setBit pos value
  | .setAll value => set.setAll value

/-- After the calls every bit has the value of the last call that covered it, and no call
on the way has changed a bit that it does not cover. -/
structure Boolset.IsArray (set : Boolset) (bitCount : U32) (calls : List BoolsetCall) : Prop where
  reads : ∃ final, runHistory Boolset.call set calls = .ok final ∧ ∀ pos < bitCount,
    final.getBit pos = .ok ((lastCovering BoolsetCall.covers calls pos).elim false BoolsetCall.value)
  frame : ∀ earlier command later before after, calls = earlier ++ command :: later →
    runHistory Boolset.call set earlier = .ok before → before.call command = .ok after →
    ∀ pos, command.covers pos = false → after.getBit pos = before.getBit pos

/-- The buffer is there, at the size that the constructor computes. -/
def Boolset.Whole (bitCount : U32) (set : Boolset) : Prop :=
  set.byteSize = boolsetByteSize bitCount ∧ set.buf.length = set.byteSize.toNat

section History

variable {succeeds : Bool} {bitCount pos : U32} {set before after final : Boolset} {command : BoolsetCall}
  {calls : List BoolsetCall}

theorem boolset_whole (usable : bitCount = 0 ∨ succeeds = true) :
    (boolset succeeds bitCount).Whole bitCount := by
  refine ⟨rfl, ?_⟩
  rcases usable with none | there
  · subst none
    cases succeeds <;> rfl
  · simp [boolset, calloc, there]

theorem Boolset.Whole.inside (whole : set.Whole bitCount) (bound : pos < bitCount) :
    bytePos pos < set.buf.length := by
  have less : pos.toNat < bitCount.toNat := bound
  rw [whole.2, whole.1, boolsetByteSize_toNat, bytePos_eq]
  omega

theorem Boolset.Whole.call (whole : before.Whole bitCount) (ran : before.call command = .ok after) :
    after.Whole bitCount := by
  cases command with
  | setBit pos value =>
      change before.setBit pos value = .ok after at ran
      have length := setBit_length ran
      rw [Boolset.setBit] at ran
      split at ran
      · cases ran
        exact ⟨whole.1, length.trans whole.2⟩
      · cases ran
  | setAll value =>
      rw [Boolset.call, setAll_ok value whole.2] at ran
      cases ran
      exact ⟨whole.1, List.length_replicate⟩

theorem Boolset.Whole.call_ok (whole : before.Whole bitCount) (inside : command.Inside bitCount) :
    ∃ after, before.call command = .ok after ∧ after.Whole bitCount := by
  cases command with
  | setBit pos value =>
      obtain ⟨after, ran, _⟩ := setBit_ok value (whole.inside inside)
      exact ⟨after, ran, whole.call (show before.call (.setBit pos value) = .ok after from ran)⟩
  | setAll value =>
      have ran : before.call (.setAll value) = .ok _ := setAll_ok value whole.2
      exact ⟨_, ran, whole.call ran⟩

theorem fillByte_getLsbD {value : Bool} {bit : Nat} (small : bit < 8) :
    (if value then 0xFF else 0x00 : U8).getLsbD bit = value := by
  cases value with
  | false => simp
  | true =>
      have every : ∀ bit < 8, (0xFF : U8).getLsbD bit = true := by decide
      exact every bit small

/-- What one call does to one bit of the set. -/
theorem Boolset.Whole.call_getBit (whole : before.Whole bitCount) (bound : pos < bitCount)
    (ran : before.call command = .ok after) :
    after.getBit pos = if command.covers pos then .ok command.stored else before.getBit pos := by
  cases command with
  | setBit target value =>
      change before.setBit target value = .ok after at ran
      simp only [BoolsetCall.covers, BoolsetCall.stored, beq_iff_eq]
      exact setBit_getBit ran
  | setAll value =>
      rw [Boolset.call, setAll_ok value whole.2] at ran
      cases ran
      have inside := whole.inside bound
      have small : bitPos pos < 8 := by rw [bitPos_eq]; omega
      simp only [getBit_eq, List.getElem?_replicate, if_pos (whole.2 ▸ inside), fillByte_getLsbD small]
      rfl

theorem call_frame (ran : before.call command = .ok after) (elsewhere : command.covers pos = false) :
    after.getBit pos = before.getBit pos := by
  cases command with
  | setBit target value =>
      change before.setBit target value = .ok after at ran
      have other : pos ≠ target := by simpa [BoolsetCall.covers] using elsewhere
      rw [setBit_getBit ran, if_neg other]
  | setAll value => cases elsewhere

/-- A bit that can be read in a new set is not set. -/
theorem boolset_blank {bit : Bool} (read : (boolset succeeds bitCount).getBit pos = .ok bit) :
    bit = false := by
  rw [getBit_eq] at read
  cases found : (boolset succeeds bitCount).buf[Boolset.bytePos pos]? with
  | none => simp [found] at read
  | some byte =>
      have zero : byte = 0 := by
        cases succeeds with
        | false => cases found
        | true => exact List.eq_of_mem_replicate (List.mem_of_getElem? found)
      simp only [found, zero, Except.ok.injEq] at read
      simpa using read.symm

theorem boolset_getBit (usable : bitCount = 0 ∨ succeeds = true) (bound : pos < bitCount) :
    (boolset succeeds bitCount).getBit pos = .ok false := by
  obtain ⟨bit, read⟩ := getBit_ok ((boolset_whole usable).inside bound)
  rw [read, boolset_blank read]

/-- The bits after a run: the last call decides, and a `set_bit` has set them. -/
theorem runHistory_getBit (usable : bitCount = 0 ∨ succeeds = true)
    (run : runHistory Boolset.call (boolset succeeds bitCount) calls = .ok final)
    (bound : pos < bitCount) :
    final.getBit pos =
      .ok ((lastCovering BoolsetCall.covers calls pos).elim false BoolsetCall.stored) := by
  have law : ∀ (before : Boolset) (command : BoolsetCall) (after : Boolset),
    before.Whole bitCount → before.call command = .ok after →
      after.Whole bitCount ∧
        after.getBit pos = if command.covers pos then .ok command.stored else before.getBit pos :=
    fun _ _ _ whole ran => ⟨whole.call ran, whole.call_getBit bound ran⟩
  rw [runHistory_read (Boolset.Whole bitCount) (Boolset.getBit · pos) law (boolset_whole usable) run,
    boolset_getBit usable bound]
  cases lastCovering BoolsetCall.covers calls pos <;> rfl

/-- Without a buffer no call of a set of at least one bit goes through. -/
theorem boolset_false_call (positive : bitCount ≠ 0) :
    (boolset false bitCount).call command = .error .outOfBounds := by
  cases command with
  | setBit pos value => rfl
  | setAll value =>
      have size : 0 < (boolsetByteSize bitCount).toNat := by
        have count : bitCount.toNat ≠ 0 := fun zero => positive (BitVec.eq_of_toNat_eq zero)
        rw [boolsetByteSize_toNat]
        omega
      rw [Boolset.call, Boolset.setAll, memset,
        memcpy_fault (Or.inr (by simpa [boolset, calloc] using size))]
      rfl

end History

/-- The set is an array of bits as long as no bit is cleared by a `set_bit`. -/
theorem boolset_isArray_iff (succeeds : Bool) (bitCount : U32) (calls : List BoolsetCall)
    (inside : ∀ command ∈ calls, command.Inside bitCount) :
    (boolset succeeds bitCount).IsArray bitCount calls ↔
      (bitCount = 0 ∨ succeeds = true) ∧
        ∀ pos < bitCount, lastCovering BoolsetCall.covers calls pos ≠ some (.setBit pos false) := by
  constructor
  · intro array
    obtain ⟨final, run, reads⟩ := array.reads
    have usable : bitCount = 0 ∨ succeeds = true := by
      by_contra unusable
      obtain ⟨positive, failed⟩ := not_or.mp unusable
      rw [Bool.not_eq_true] at failed
      subst failed
      cases calls with
      | nil =>
          cases run
          have count : 0 < bitCount.toNat :=
            Nat.pos_of_ne_zero fun zero => positive (BitVec.eq_of_toNat_eq zero)
          cases reads 0 count
      | cons command rest =>
          rw [runHistory, boolset_false_call positive] at run
          cases run
    refine ⟨usable, fun pos bound cleared => ?_⟩
    have read := (reads pos bound).symm.trans (runHistory_getBit usable run bound)
    rw [cleared] at read
    cases read
  · intro condition
    obtain ⟨usable, kept⟩ := condition
    obtain ⟨final, run, _⟩ := runHistory_ok (Boolset.Whole bitCount)
      (fun before whole command member => whole.call_ok (inside command member)) (boolset_whole usable)
    refine ⟨⟨final, run, fun pos bound => ?_⟩, fun _ _ _ _ _ _ _ ran pos elsewhere =>
      call_frame ran elsewhere⟩
    rw [runHistory_getBit usable run bound]
    cases last : lastCovering BoolsetCall.covers calls pos with
    | none => rfl
    | some command =>
        have covered := (lastCovering_some last).2
        cases command with
        | setAll value => rfl
        | setBit target value =>
            rw [BoolsetCall.covers, beq_iff_eq] at covered
            subst covered
            cases value with
            | true => rfl
            | false => exact absurd last (kept pos bound)

theorem boolset_isArray_iff_nine :
    (boolset true 9).IsArray 9 [.setBit 3 true, .setAll false, .setBit 8 true] ↔
      ((9 : U32) = 0 ∨ true = true) ∧ ∀ pos < 9, lastCovering BoolsetCall.covers
        [.setBit 3 true, .setAll false, .setBit 8 true] pos ≠ some (.setBit pos false) :=
  boolset_isArray_iff true 9 [.setBit 3 true, .setAll false, .setBit 8 true] (by decide)

theorem isArray_fails_clear : ¬ ∀ (bitCount : U32) (calls : List BoolsetCall),
    (∀ command ∈ calls, command.Inside bitCount) → (boolset true bitCount).IsArray bitCount calls := by
  intro array
  obtain ⟨final, run, reads⟩ := (array 1 [.setBit 0 false] (by decide)).reads
  cases run
  cases reads 0 (by decide)

end Koshka
