import Koshka.Bitmanip

namespace Koshka

open Data

/-- Position 0 is the most significant bit of the first byte. -/
structure Boolset where
  buf : List U8
  byteSize : U32
  initialized : Bool
deriving Repr, DecidableEq

def boolsetByteSize (bitCount : U32) : U32 :=
  bitCount / 8 + if bitCount % 8 = 0 then 0 else 1

/-- The constructor; `succeeds` is the answer of its `calloc`. -/
def boolset (succeeds : Bool) (bitCount : U32) : Boolset where
  buf := calloc succeeds (boolsetByteSize bitCount).toNat
  byteSize := boolsetByteSize bitCount
  initialized := succeeds

def Boolset.bytePos (pos : U32) : Nat := (pos / 8).toNat

def Boolset.bitPos (pos : U32) : Nat := (7 - pos % 8).toNat

def Boolset.getBit (set : Boolset) (pos : U32) : Except Fault Bool :=
  match set.buf[bytePos pos]? with
  | some byte => .ok (asBool (getSingleBit byte (bitPos pos)))
  | none => .error .outOfBounds

/-- The value to set is an argument of the source that its body never reads. -/
def Boolset.setBit (set : Boolset) (pos : U32) (_value : Bool) : Except Fault Boolset :=
  match set.buf[bytePos pos]? with
  | some byte => .ok { set with buf := set.buf.set (bytePos pos) (byte ||| 1 <<< bitPos pos) }
  | none => .error .outOfBounds

def Boolset.setAll (set : Boolset) (value : Bool) : Except Fault Boolset := do
  let byteVal : U8 := if value then 0xFF else 0x00
  let buf ← memset set.buf 0 byteVal set.byteSize.toNat
  return { set with buf }

section Bits

variable {set after : Boolset} {pos other : U32} {value : Bool}

theorem getBit_ok (inside : Boolset.bytePos pos < set.buf.length) :
    ∃ bit, set.getBit pos = .ok bit :=
  ⟨_, by rw [Boolset.getBit, List.getElem?_eq_getElem inside]⟩

theorem setBit_ok (value : Bool) (inside : Boolset.bytePos pos < set.buf.length) :
    ∃ after, set.setBit pos value = .ok after ∧ after.buf.length = set.buf.length := by
  refine ⟨_, by rw [Boolset.setBit, List.getElem?_eq_getElem inside], ?_⟩
  simp

theorem bytePos_eq (pos : U32) : Boolset.bytePos pos = pos.toNat / 8 := by
  rw [Boolset.bytePos, BitVec.toNat_udiv]
  rfl

theorem bitPos_eq (pos : U32) : Boolset.bitPos pos = 7 - pos.toNat % 8 := by
  have rest : (pos % 8).toNat = pos.toNat % 8 := by
    rw [BitVec.toNat_umod]
    rfl
  rw [Boolset.bitPos, BitVec.toNat_sub, rest]
  change (2 ^ 32 - pos.toNat % 8 + 7) % 2 ^ 32 = _
  omega

/-- A position is a byte and a bit of it. -/
theorem pos_eq_iff : other = pos ↔
    Boolset.bytePos other = Boolset.bytePos pos ∧ Boolset.bitPos other = Boolset.bitPos pos := by
  rw [← BitVec.toNat_inj, bytePos_eq, bytePos_eq, bitPos_eq, bitPos_eq]
  omega

theorem getBit_eq : set.getBit pos =
    match set.buf[Boolset.bytePos pos]? with
    | some byte => .ok (byte.getLsbD (Boolset.bitPos pos))
    | none => .error .outOfBounds := by
  rw [Boolset.getBit]
  split <;> simp only [asBool_getSingleBit _ _ (show 0 < 8 by decide)]

theorem oneBit_getLsbD {bit index : Nat} (small : bit < 8) :
    (BitVec.ofNat 8 (1 <<< bit)).getLsbD index = decide (index = bit) := by
  rw [BitVec.getLsbD_ofNat, Nat.one_shiftLeft, Nat.testBit_two_pow]
  by_cases same : bit = index
  · simp [← same, small]
  · simp [same, Ne.symm same]

theorem setBit_getBit (ran : set.setBit pos value = .ok after) :
    after.getBit other = if other = pos then .ok true else set.getBit other := by
  rw [Boolset.setBit] at ran
  cases found : set.buf[Boolset.bytePos pos]? with
  | none => simp [found] at ran
  | some byte =>
      simp only [found, Except.ok.injEq] at ran
      subst ran
      obtain ⟨bound, _⟩ := List.getElem?_eq_some_iff.mp found
      have small : Boolset.bitPos pos < 8 := by rw [bitPos_eq]; omega
      simp only [getBit_eq, pos_eq_iff, List.getElem?_set]
      by_cases same : Boolset.bytePos pos = Boolset.bytePos other
      · rw [if_pos same, if_pos (same ▸ bound), ← same, found]
        simp only [true_and, BitVec.getLsbD_or, BitVec.natCast_eq_ofNat, oneBit_getLsbD small]
        by_cases bit : Boolset.bitPos other = Boolset.bitPos pos
        · simp [bit]
        · simp [bit]
      · rw [if_neg same, if_neg (fun both => same both.1.symm)]

theorem setBit_length (ran : set.setBit pos value = .ok after) : after.buf.length = set.buf.length := by
  rw [Boolset.setBit] at ran
  split at ran
  · cases ran
    exact List.length_set
  · cases ran

theorem setAll_ok (value : Bool) (whole : set.buf.length = set.byteSize.toNat) :
    set.setAll value =
      .ok { set with buf := List.replicate set.byteSize.toNat (if value then 0xFF else 0x00) } := by
  rw [Boolset.setAll, memset_ok (by omega), overwrite_zero, List.length_replicate, ← whole,
    List.drop_length, List.append_nil]
  rfl

theorem boolsetByteSize_toNat (bitCount : U32) :
    (boolsetByteSize bitCount).toNat = (bitCount.toNat + 7) / 8 := by
  have range := bitCount.isLt
  by_cases whole : bitCount % 8 = 0
  · have rest : bitCount.toNat % 8 = 0 := by simpa using congrArg BitVec.toNat whole
    rw [boolsetByteSize, if_pos whole, BitVec.toNat_add, BitVec.toNat_udiv]
    change (bitCount.toNat / 8 + 0) % 2 ^ 32 = _
    omega
  · have rest : bitCount.toNat % 8 ≠ 0 := fun zero => whole (BitVec.eq_of_toNat_eq zero)
    rw [boolsetByteSize, if_neg whole, BitVec.toNat_add, BitVec.toNat_udiv]
    change (bitCount.toNat / 8 + 1) % 2 ^ 32 = _
    omega

theorem boolset_inside {bitCount : U32} (bound : pos < bitCount) :
    Boolset.bytePos pos < (boolset true bitCount).buf.length := by
  have less : pos.toNat < bitCount.toNat := bound
  simp only [boolset, calloc, if_true, List.length_replicate, boolsetByteSize_toNat, Boolset.bytePos,
    BitVec.toNat_udiv]
  change pos.toNat / 8 < _
  omega

end Bits

end Koshka
