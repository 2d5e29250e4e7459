import Koshka.Boolset.History

namespace Koshka

open Data

/-- The byte that `set_in_byte` stores. -/
def filledByte (byte bitsFromMsb : U8) (value : Bool) : U8 :=
  let sizeToSet := 8 - bitsFromMsb
  if value then byte ||| (maxValForSize sizeToSet.toNat).setWidth 8
  else byte &&& ~~~(maxValForSize sizeToSet.toNat).setWidth 8

/-- The byte behind the source's pointer is cell `index` of the buffer. -/
def setInByte (buf : List U8) (index : Nat) (bitsFromMsb : U8) (value : Bool) :
    Except Fault (List U8) :=
  if bitsFromMsb > 7 then .ok buf
  else
    match buf[index]? with
    | some byte => .ok (buf.set index (filledByte byte bitsFromMsb value))
    | none => .error .outOfBounds

def Boolset.setRange (set : Boolset) (pos size : U32) (value : Bool) : Except Fault Boolset := do
  let startBytePos := pos / 8
  let startBitPos : U8 := (pos % 8).setWidth 8
  -- The source keeps the sum in a `u8`.
  let endPos : U8 := (startBytePos + size / 8 + if size % 8 = 0 then 0 else 1).setWidth 8
  if startBytePos ≥ set.byteSize then return set
  if endPos.setWidth 32 ≥ set.byteSize then return set
  let buf ← if startBitPos > 0 then setInByte set.buf startBytePos.toNat startBitPos value
    else pure set.buf
  let byteVal : U8 := if value then 0xFF else 0x00
  let buf ← memset buf (startBytePos + 1).toNat byteVal (size / 8).toNat
  let buf ← if size % 8 ≠ 0 then setInByte buf (size / 8).toNat ((size % 8).setWidth 8) value
    else pure buf
  return { set with buf }

/-- Bit `bit` of a buffer, in the order of the positions. -/
def bitAt (buf : List U8) (bit : Nat) : Option Bool := buf[bit / 8]?.map (·.getLsbD (7 - bit % 8))

/-- One buffer is the other with a region of its bits set to a value. -/
structure Fills (before after : List U8) (region : Nat → Prop) (value : Bool) : Prop where
  length : after.length = before.length
  inside : ∀ bit, region bit → bit < 8 * before.length → bitAt after bit = some value
  outside : ∀ bit, ¬ region bit → bitAt after bit = bitAt before bit

section Fills

variable {before between after : List U8} {first second region : Nat → Prop} {index start count : Nat}
  {value : Bool}

theorem Fills.trans (front : Fills before between first value)
    (back : Fills between after second value) :
    Fills before after (fun bit => first bit ∨ second bit) value where
  length := back.length.trans front.length
  inside bit covered bound := by
    by_cases later : second bit
    · exact back.inside bit later (front.length ▸ bound)
    · rw [back.outside bit later, front.inside bit (covered.resolve_right later) bound]
  outside bit missed := by
    rw [back.outside bit (missed ∘ Or.inr), front.outside bit (missed ∘ Or.inl)]

theorem Fills.none (empty : ∀ bit, ¬ region bit) : Fills before before region value where
  length := rfl
  inside bit covered _ := absurd covered (empty bit)
  outside _ _ := rfl

theorem Fills.congr (fills : Fills before after first value) (same : ∀ bit, first bit ↔ second bit) :
    Fills before after second value := by
  have regions : first = second := funext fun bit => propext (same bit)
  exact regions ▸ fills

theorem bitAt_some {byte : U8} {bit : Nat} (found : before[bit / 8]? = some byte) :
    bitAt before bit = some (byte.getLsbD (7 - bit % 8)) := by
  rw [bitAt, found]
  rfl

theorem bitAt_congr {bit : Nat} (same : after[bit / 8]? = before[bit / 8]?) :
    bitAt after bit = bitAt before bit := by
  rw [bitAt, bitAt, same]

/-- A byte is known by its eight bits. -/
theorem getElem?_of_bitAt (same : ∀ bit, bit / 8 = index → bitAt after bit = bitAt before bit) :
    after[index]? = before[index]? := by
  have first := same (8 * index) (by omega)
  rw [bitAt, bitAt, Nat.mul_div_cancel_left _ (by decide)] at first
  cases earlier : before[index]? with
  | none => simpa [earlier] using first
  | some byte =>
      cases later : after[index]? with
      | none => simp [earlier, later] at first
      | some other =>
          refine congrArg some (BitVec.eq_of_getLsbD_eq fun bit small => ?_)
          have here : (8 * index + (7 - bit)) / 8 = index := by omega
          have bits := same (8 * index + (7 - bit)) here
          rw [bitAt_some (by rwa [here]), bitAt_some (by rwa [here]), Option.some.injEq] at bits
          have place : 7 - (8 * index + (7 - bit)) % 8 = bit := by omega
          rwa [place] at bits

theorem filledByte_getLsbD {byte : U8} {start bit : Nat} (begins : start < 8) (small : bit < 8) :
    (filledByte byte (BitVec.ofNat 8 start) value).getLsbD bit =
      if bit < 8 - start then value else byte.getLsbD bit := by
  have mask : ∀ start < 8, ∀ bit < 8,
      ((maxValForSize (8 - BitVec.ofNat 8 start).toNat).setWidth 8 : U8).getLsbD bit =
        decide (bit < 8 - start) := by decide
  have here := mask start begins bit small
  cases value with
  | false =>
      change (byte &&& ~~~BitVec.setWidth 8 _).getLsbD bit = _
      rw [BitVec.getLsbD_and, BitVec.getLsbD_not, here]
      by_cases covered : bit < 8 - start <;> simp [covered, small]
  | true =>
      change (byte ||| BitVec.setWidth 8 _).getLsbD bit = _
      rw [BitVec.getLsbD_or, here]
      by_cases covered : bit < 8 - start <;> simp [covered]

theorem setInByte_eq (begins : start < 8) :
    setInByte before index (BitVec.ofNat 8 start) value =
      match before[index]? with
      | some byte => .ok (before.set index (filledByte byte (BitVec.ofNat 8 start) value))
      | none => .error .outOfBounds := by
  have seven : ¬ BitVec.ofNat 8 start > 7 := by
    change ¬ 7 < start % 256
    omega
  rw [setInByte, if_neg seven]

theorem setInByte_ok (begins : start < 8) (bound : index < before.length) :
    ∃ after, setInByte before index (BitVec.ofNat 8 start) value = .ok after :=
  ⟨_, by rw [setInByte_eq begins, List.getElem?_eq_getElem bound]⟩

/-- `set_in_byte` reaches the rest of its byte. -/
theorem setInByte_fills (begins : start < 8)
    (ran : setInByte before index (BitVec.ofNat 8 start) value = .ok after) :
    index < before.length ∧
      Fills before after (fun bit => 8 * index + start ≤ bit ∧ bit < 8 * (index + 1)) value := by
  rw [setInByte_eq begins] at ran
  cases found : before[index]? with
  | none => simp [found] at ran
  | some byte =>
      obtain ⟨bound, _⟩ := List.getElem?_eq_some_iff.mp found
      simp only [found, Except.ok.injEq] at ran
      subst ran
      refine ⟨bound, List.length_set, fun bit covered _ => ?_, fun bit missed => ?_⟩
      · have here : bit / 8 = index := by omega
        rw [bitAt_some (by rw [here, List.getElem?_set_self bound]),
          filledByte_getLsbD begins (by omega), if_pos (by omega)]
      · by_cases here : bit / 8 = index
        · rw [bitAt_some (by rw [here, List.getElem?_set_self bound]), bitAt_some (by rw [here, found]),
            filledByte_getLsbD begins (by omega), if_neg (by omega)]
        · exact bitAt_congr (List.getElem?_set_ne (Ne.symm here))

/-- The partial byte at an end of a range, if there is one. -/
def setInEdge (buf : List U8) (index start : Nat) (value : Bool) : Except Fault (List U8) :=
  if start = 0 then .ok buf else setInByte buf index (BitVec.ofNat 8 start) value

theorem setInEdge_ok (value : Bool) (begins : start < 8) (bound : start ≠ 0 → index < before.length) :
    ∃ after, setInEdge before index start value = .ok after := by
  rw [setInEdge]
  by_cases whole : start = 0
  · exact ⟨before, if_pos whole⟩
  · rw [if_neg whole]
    exact setInByte_ok begins (bound whole)

theorem setInEdge_fills (begins : start < 8) (ran : setInEdge before index start value = .ok after) :
    (start ≠ 0 → index < before.length) ∧
      Fills before after
        (fun bit => start ≠ 0 ∧ 8 * index + start ≤ bit ∧ bit < 8 * (index + 1)) value := by
  rw [setInEdge] at ran
  by_cases whole : start = 0
  · rw [if_pos whole] at ran
    cases ran
    exact ⟨fun partly => absurd whole partly, Fills.none fun bit covered => covered.1 whole⟩
  · rw [if_neg whole] at ran
    obtain ⟨bound, fills⟩ := setInByte_fills begins ran
    simp only [whole, ne_eq, not_false_eq_true, true_and]
    exact ⟨fun _ => bound, fills⟩

theorem memset_inside {fill : U8} (ran : memset before start fill count = .ok after) :
    start + count ≤ before.length := by
  by_contra outside
  rw [memset_fault (by omega)] at ran
  cases ran

/-- A `memset` reaches whole bytes. -/
theorem memset_fills (ran : memset before start (if value then 0xFF else 0x00) count = .ok after) :
    Fills before after (fun bit => 8 * start ≤ bit ∧ bit < 8 * (start + count)) value := by
  have room := memset_inside ran
  rw [memset_ok room] at ran
  cases ran
  have fits : start + (List.replicate count (if value then 0xFF else 0x00 : U8)).length ≤ before.length := by
    rwa [List.length_replicate]
  refine ⟨overwrite_length fits, fun bit covered _ => ?_, fun bit missed => ?_⟩
  · have filled : (overwrite before start (List.replicate count (if value then 0xFF else 0x00 : U8)))[bit / 8]? =
        some (if value then 0xFF else 0x00) := by
      rw [overwrite_getElem? fits, if_pos (by rw [List.length_replicate]; omega),
        List.getElem?_replicate, if_pos (by omega)]
    rw [bitAt_some filled, fillByte_getLsbD (by omega)]
  · apply bitAt_congr
    rw [overwrite_getElem? fits, if_neg (by rw [List.length_replicate]; omega)]

end Fills

namespace Boolset

def withContent (set : Boolset) (content : List U8) : Boolset := { set with buf := content }

/-- Neither check of `set_range` turns the call away. -/
def Accepts (set : Boolset) (pos size : U32) : Prop :=
  pos.toNat / 8 < set.byteSize.toNat ∧
    (pos.toNat / 8 + size.toNat / 8 + if size.toNat % 8 = 0 then 0 else 1) % 256 < set.byteSize.toNat

instance (set : Boolset) (pos size : U32) : Decidable (set.Accepts pos size) :=
  inferInstanceAs (Decidable (_ ∧ _))

/-- The bits that an accepted call stores to: the rest of the first byte, the bytes of
the `memset`, and the rest of byte `size / 8` from its bit `size % 8`. -/
def Reaches (pos size : U32) (bit : Nat) : Prop :=
  (pos.toNat % 8 ≠ 0 ∧ pos.toNat ≤ bit ∧ bit < 8 * (pos.toNat / 8 + 1)) ∨
    (8 * (pos.toNat / 8 + 1) ≤ bit ∧ bit < 8 * (pos.toNat / 8 + 1 + size.toNat / 8)) ∨
      (size.toNat % 8 ≠ 0 ∧ size.toNat ≤ bit ∧ bit < 8 * (size.toNat / 8 + 1))

instance (pos size : U32) (bit : Nat) : Decidable (Reaches pos size bit) :=
  inferInstanceAs (Decidable (_ ∨ _))

def Stores (set : Boolset) (pos size : U32) (bit : Nat) : Prop :=
  set.Accepts pos size ∧ Reaches pos size bit

def InRange (pos size : U32) (bit : Nat) : Prop :=
  pos.toNat ≤ bit ∧ bit < pos.toNat + size.toNat

/-- The call returns, and afterwards the bits of the range have the value and all others are
as before. -/
def WritesRange (set : Boolset) (pos size : U32) (value : Bool) : Prop :=
  ∃ after, set.setRange pos size value = .ok after ∧ ∀ bit : U32,
    (InRange pos size bit.toNat → after.getBit bit = .ok value) ∧
      (¬ InRange pos size bit.toNat → after.getBit bit = set.getBit bit)

/-- The `memset` of an accepted call ends behind the buffer. -/
def Overruns (set : Boolset) (pos size : U32) : Prop :=
  set.Accepts pos size ∧ size.toNat / 8 ≠ 0 ∧ set.byteSize.toNat ≤ pos.toNat / 8 + size.toNat / 8

/-- An empty range that starts a byte, or one that ends a byte but does not start one, is not
shorter than the bits in front of it, and is not turned away. -/
def Aligned (set : Boolset) (pos size : U32) : Prop :=
  (size.toNat = 0 ∧ pos.toNat % 8 = 0) ∨
    (pos.toNat % 8 ≠ 0 ∧ (pos.toNat + size.toNat) % 8 = 0 ∧ pos.toNat ≤ size.toNat ∧
      (pos.toNat + size.toNat) / 8 % 256 < set.byteSize.toNat)

/-- The byte indexes that `set_range` writes, in order. -/
def rangeWrites (set : Boolset) (pos size : U32) : List Nat :=
  if set.Accepts pos size then
    (if pos.toNat % 8 = 0 then [] else [pos.toNat / 8]) ++
      List.range' (pos.toNat / 8 + 1) (size.toNat / 8) ++
        (if size.toNat % 8 = 0 then [] else [size.toNat / 8])
  else []

/-- The call writes bytes of the buffer only, and none for a range that leaves it. -/
structure StaysInside (set : Boolset) (pos size : U32) (value : Bool) : Prop where
  /-- The listed bytes are those with a bit that the call stores to. -/
  listed : ∀ index, index ∈ set.rangeWrites pos size ↔ ∃ bit, bit / 8 = index ∧ set.Stores pos size bit
  stores : ∀ after, set.setRange pos size value = .ok after →
    Fills set.buf after.buf (set.Stores pos size) value
  keeps : ∀ after, set.setRange pos size value = .ok after → ∀ index, index ∉ set.rangeWrites pos size →
    after.buf[index]? = set.buf[index]?
  inside : ∀ index ∈ set.rangeWrites pos size, index < set.byteSize.toNat
  runs : set.buf.length = set.byteSize.toNat → ∃ after, set.setRange pos size value = .ok after
  ignored : 8 * set.byteSize.toNat < pos.toNat + size.toNat →
    set.rangeWrites pos size = [] ∧ set.setRange pos size value = .ok set

end Boolset

section Range

open Boolset

variable {set after : Boolset} {pos size : U32} {value : Bool} {bitCount : U32}

theorem u32_mod_eight (pos : U32) : (pos % 8).setWidth 8 = BitVec.ofNat 8 (pos.toNat % 8) := by
  apply BitVec.eq_of_toNat_eq
  rw [BitVec.toNat_setWidth, BitVec.toNat_umod, BitVec.toNat_ofNat]
  rfl

theorem u32_mod_eight_pos (pos : U32) : BitVec.ofNat 8 (pos.toNat % 8) > 0 ↔ ¬ pos.toNat % 8 = 0 := by
  change 0 < (pos.toNat % 8) % 2 ^ 8 ↔ _
  omega

theorem u32_mod_eight_eq (pos : U32) : pos % 8 = 0 ↔ pos.toNat % 8 = 0 := by
  rw [← BitVec.toNat_inj, BitVec.toNat_umod]
  rfl

theorem endPos_toNat (pos size : U32) :
    (((pos / 8 + size / 8 + if size.toNat % 8 = 0 then 0 else 1).setWidth 8 : U8).setWidth 32 : U32).toNat =
      (pos.toNat / 8 + size.toNat / 8 + if size.toNat % 8 = 0 then 0 else 1) % 256 := by
  have posRange := pos.isLt
  have sizeRange := size.isLt
  have first : (pos / 8).toNat = pos.toNat / 8 := BitVec.toNat_udiv
  have count : (size / 8).toNat = size.toNat / 8 := BitVec.toNat_udiv
  simp only [BitVec.toNat_setWidth, BitVec.toNat_add, first, count]
  split
  · change ((_ % 2 ^ 32 + 0) % 2 ^ 32 % 2 ^ 8) % 2 ^ 32 = _
    omega
  · change ((_ % 2 ^ 32 + 1) % 2 ^ 32 % 2 ^ 8) % 2 ^ 32 = _
    omega

/-- `set_range` over naturals. -/
theorem setRange_eq : set.setRange pos size value =
    if set.Accepts pos size then do
      let begun ← setInEdge set.buf (pos.toNat / 8) (pos.toNat % 8) value
      let filled ← memset begun (pos.toNat / 8 + 1) (if value then 0xFF else 0x00) (size.toNat / 8)
      let buf ← setInEdge filled (size.toNat / 8) (size.toNat % 8) value
      return { set with buf }
    else .ok set := by
  have posRange := pos.isLt
  have first : (pos / 8).toNat = pos.toNat / 8 := BitVec.toNat_udiv
  have next : (pos / 8 + 1).toNat = pos.toNat / 8 + 1 := by
    rw [BitVec.toNat_add, first]
    change (pos.toNat / 8 + 1) % 2 ^ 32 = _
    omega
  have count : (size / 8).toNat = size.toNat / 8 := BitVec.toNat_udiv
  have start : pos / 8 ≥ set.byteSize ↔ set.byteSize.toNat ≤ pos.toNat / 8 := by
    rw [ge_iff_le, BitVec.le_def, first]
  simp only [Boolset.setRange, start, ge_iff_le, BitVec.le_def, endPos_toNat, u32_mod_eight_pos, ne_eq,
    u32_mod_eight_eq, u32_mod_eight, first, next, count, ite_not]
  by_cases accepted : set.Accepts pos size
  · rw [if_pos accepted, if_neg (Nat.not_le.mpr accepted.1), if_neg (Nat.not_le.mpr accepted.2)]
    simp only [setInEdge]
    by_cases front : pos.toNat % 8 = 0 <;> by_cases back : size.toNat % 8 = 0 <;>
      simp only [front, back, if_true, if_false] <;> rfl
  · rw [if_neg accepted]
    by_cases begins : set.byteSize.toNat ≤ pos.toNat / 8
    · rw [if_pos begins]
      rfl
    · rw [if_neg begins, if_pos (Nat.not_lt.mp fun ends => accepted ⟨Nat.not_le.mp begins, ends⟩)]
      rfl

theorem setRange_ignored (ignored : ¬ set.Accepts pos size) : set.setRange pos size value = .ok set := by
  rw [setRange_eq, if_neg ignored]

/-- The three parts of an accepted call and where each of them has to fit. -/
theorem setRange_accepted (accepted : set.Accepts pos size)
    (ran : set.setRange pos size value = .ok after) :
    Fills set.buf after.buf (Reaches pos size) value ∧
      (size.toNat / 8 = 0 ∨ pos.toNat / 8 + size.toNat / 8 < set.buf.length) := by
  rw [setRange_eq, if_pos accepted] at ran
  obtain ⟨begun, front, ran⟩ := bind_eq_ok.mp ran
  obtain ⟨filled, whole, ran⟩ := bind_eq_ok.mp ran
  obtain ⟨buf, back, ran⟩ := bind_eq_ok.mp ran
  cases ran
  obtain ⟨_, frontFills⟩ := setInEdge_fills (Nat.mod_lt _ (by omega)) front
  obtain ⟨_, backFills⟩ := setInEdge_fills (Nat.mod_lt _ (by omega)) back
  have room := memset_inside whole
  have fills := (frontFills.trans (memset_fills whole)).trans backFills
  refine ⟨fills.congr fun bit => ?_, ?_⟩
  · rw [Reaches]
    omega
  · have same := frontFills.length
    omega

theorem setRange_ok (value : Bool) (accepted : set.Accepts pos size)
    (whole : set.buf.length = set.byteSize.toNat)
    (room : size.toNat / 8 = 0 ∨ pos.toNat / 8 + size.toNat / 8 < set.buf.length) :
    ∃ after, set.setRange pos size value = .ok after := by
  have starts := accepted.1
  obtain ⟨begun, front⟩ := setInEdge_ok value (Nat.mod_lt pos.toNat (by decide : 8 > 0))
    (fun _ => whole ▸ starts)
  have begunLength := (setInEdge_fills (Nat.mod_lt _ (by decide)) front).2.length
  obtain ⟨filled, middle⟩ : ∃ filled, memset begun (pos.toNat / 8 + 1) (if value then 0xFF else 0x00)
      (size.toNat / 8) = .ok filled := ⟨_, memset_ok (by omega)⟩
  have filledLength := (memset_fills middle).length
  have inside : size.toNat / 8 < filled.length := by omega
  obtain ⟨buf, back⟩ := setInEdge_ok value (Nat.mod_lt size.toNat (by decide : 8 > 0)) (fun _ => inside)
  refine ⟨{ set with buf }, ?_⟩
  rw [setRange_eq, if_pos accepted, front, ok_bind, middle, ok_bind, back]
  rfl

theorem getBit_bitAt : set.getBit pos = (bitAt set.buf pos.toNat).elim (.error .outOfBounds) .ok := by
  rw [getBit_eq, bytePos_eq, bitPos_eq, bitAt]
  cases set.buf[pos.toNat / 8]? <;> rfl

theorem getBit_outside {bit : U32} (outside : 8 * set.buf.length ≤ bit.toNat) :
    set.getBit bit = .error .outOfBounds := by
  rw [getBit_bitAt, bitAt, List.getElem?_eq_none (by omega)]
  rfl

theorem setRange_fills (ran : set.setRange pos size value = .ok after) :
    Fills set.buf after.buf (set.Stores pos size) value := by
  by_cases accepted : set.Accepts pos size
  · apply (setRange_accepted accepted ran).1.congr
    exact fun bit => ⟨fun reached => ⟨accepted, reached⟩, And.right⟩
  · rw [setRange_ignored accepted] at ran
    cases ran
    exact Fills.none fun bit stored => accepted stored.1

theorem setRange_returns_iff (value : Bool) (whole : set.buf.length = set.byteSize.toNat) :
    (∃ after, set.setRange pos size value = .ok after) ↔ ¬ set.Overruns pos size := by
  constructor
  · intro returns overrun
    obtain ⟨after, ran⟩ := returns
    obtain ⟨accepted, some', ends⟩ := overrun
    have room := (setRange_accepted accepted ran).2
    omega
  · intro fits
    by_cases accepted : set.Accepts pos size
    · apply setRange_ok value accepted whole
      by_contra outside
      exact fits ⟨accepted, by omega, by omega⟩
    · exact ⟨set, setRange_ignored accepted⟩

/-- A call writes its range if each bit that it stores to outside the range, or misses inside
it, has the value already. -/
theorem writesRange_iff (whole : set.buf.length = set.byteSize.toNat)
    (inside : pos.toNat + size.toNat ≤ 8 * set.byteSize.toNat) :
    set.WritesRange pos size value ↔
      ¬ set.Overruns pos size ∧ ∀ bit : U32, bit.toNat < 8 * set.byteSize.toNat →
        ¬ (InRange pos size bit.toNat ↔ set.Stores pos size bit.toNat) → set.getBit bit = .ok value := by
  constructor
  · intro writes
    obtain ⟨after, ran, bits⟩ := writes
    refine ⟨(setRange_returns_iff value whole).mp ⟨after, ran⟩, fun bit bound differ => ?_⟩
    have fills := setRange_fills ran
    by_cases member : InRange pos size bit.toNat
    · have missed : ¬ set.Stores pos size bit.toNat :=
        fun stored => differ ⟨fun _ => stored, fun _ => member⟩
      rw [← (bits bit).1 member, getBit_bitAt, getBit_bitAt, fills.outside _ missed]
    · have stored : set.Stores pos size bit.toNat := by
        by_contra missed
        exact differ ⟨fun range => absurd range member, fun stores => absurd stores missed⟩
      rw [← (bits bit).2 member, getBit_bitAt, fills.inside _ stored (by omega)]
      rfl
  · intro condition
    obtain ⟨fits, settled⟩ := condition
    obtain ⟨after, ran⟩ := (setRange_returns_iff value whole).mpr fits
    have fills := setRange_fills ran
    refine ⟨after, ran, fun bit => ⟨fun member => ?_, fun missed => ?_⟩⟩
    · have bound : bit.toNat < 8 * set.byteSize.toNat := Nat.lt_of_lt_of_le member.2 inside
      by_cases stored : set.Stores pos size bit.toNat
      · rw [getBit_bitAt, fills.inside _ stored (by omega)]
        rfl
      · rw [getBit_bitAt, fills.outside _ stored, ← getBit_bitAt]
        exact settled bit bound fun same => stored (same.mp member)
    · by_cases stored : set.Stores pos size bit.toNat
      · by_cases bound : bit.toNat < 8 * set.byteSize.toNat
        · rw [settled bit bound fun same => missed (same.mpr stored), getBit_bitAt,
            fills.inside _ stored (by omega)]
          rfl
        · have length := fills.length
          rw [getBit_outside (by omega), getBit_outside (by omega)]
      · rw [getBit_bitAt, getBit_bitAt, fills.outside _ stored]

theorem aligned_stores (inside : pos.toNat + size.toNat ≤ 8 * set.byteSize.toNat)
    (aligned : set.Aligned pos size) :
    ¬ set.Overruns pos size ∧
      ∀ bit < 8 * set.byteSize.toNat, (InRange pos size bit ↔ set.Stores pos size bit) := by
  rcases aligned with empty | partly
  · refine ⟨fun overrun => overrun.2.1 (by omega), fun bit _ => ⟨fun member => ?_, fun stored => ?_⟩⟩
    · have range := member.2
      have start := member.1
      omega
    · have reached := stored.2
      rw [Reaches] at reached
      omega
  · obtain ⟨begins, ends, long, small⟩ := partly
    have accepted : set.Accepts pos size := by
      refine ⟨by omega, ?_⟩
      rw [if_neg (by omega)]
      omega
    refine ⟨fun overrun => ?_, fun bit _ => ?_⟩
    · have outside := overrun.2.2
      omega
    · rw [Stores, InRange, Reaches]
      constructor
      · intro member
        exact ⟨accepted, by omega⟩
      · intro stored
        have reached := stored.2
        omega

theorem stores_aligned (inside : pos.toNat + size.toNat ≤ 8 * set.byteSize.toNat)
    (same : ∀ bit < 8 * set.byteSize.toNat, (InRange pos size bit ↔ set.Stores pos size bit)) :
    set.Aligned pos size := by
  by_cases empty : size.toNat = 0
  · refine Or.inl ⟨empty, ?_⟩
    by_contra begins
    have accepted : set.Accepts pos size := by
      refine ⟨by omega, ?_⟩
      rw [if_pos (by omega)]
      omega
    have member := ((same pos.toNat (by omega)).mpr ⟨accepted, Or.inl ⟨begins, by omega, by omega⟩⟩).2
    omega
  · have first := (same pos.toNat (by omega)).mp ⟨by omega, by omega⟩
    have accepted := first.1
    have begins : pos.toNat % 8 ≠ 0 := by
      have reached := first.2
      rw [Reaches] at reached
      omega
    have ends : (pos.toNat + size.toNat) % 8 = 0 := by
      -- Otherwise the last bit of the range is missed or the one behind it is stored to.
      by_contra ragged
      have last := ((same (pos.toNat + size.toNat - 1) (by omega)).mp ⟨by omega, by omega⟩).2
      have behind : ¬ Reaches pos size (pos.toNat + size.toNat) := by
        intro reached
        have member := ((same (pos.toNat + size.toNat) (by omega)).mpr ⟨accepted, reached⟩).2
        omega
      rw [Reaches] at last behind
      omega
    have back := (same size.toNat (by omega)).mpr
      ⟨accepted, Or.inr (Or.inr ⟨by omega, Nat.le_refl _, by omega⟩)⟩
    have limit := accepted.2
    rw [if_neg (by omega)] at limit
    exact Or.inr ⟨begins, ends, back.1, by omega⟩

/-- For some content of the buffer every bit is the opposite of the value. -/
theorem opposite_getBit {bit : U32} (bound : bit.toNat < 8 * set.byteSize.toNat) :
    (set.withContent (List.replicate set.byteSize.toNat (if !value then 0xFF else 0x00))).getBit bit =
      .ok !value := by
  rw [getBit_bitAt, Boolset.withContent, bitAt, List.getElem?_replicate, if_pos (by omega)]
  change Except.ok (BitVec.getLsbD _ _) = _
  rw [fillByte_getLsbD (by omega)]

theorem withContent_writesRange_iff {content : List U8} (whole : content.length = set.byteSize.toNat)
    (inside : pos.toNat + size.toNat ≤ 8 * set.byteSize.toNat) :
    (set.withContent content).WritesRange pos size value ↔
      ¬ set.Overruns pos size ∧ ∀ bit : U32, bit.toNat < 8 * set.byteSize.toNat →
        ¬ (InRange pos size bit.toNat ↔ set.Stores pos size bit.toNat) →
          (set.withContent content).getBit bit = .ok value := by
  have length : (set.withContent content).buf.length = (set.withContent content).byteSize.toNat := whole
  exact writesRange_iff length inside

theorem writesRange_always_iff (whole : set.Whole bitCount) (value : Bool)
    (inside : pos.toNat + size.toNat ≤ 8 * set.byteSize.toNat) :
    (∀ content : List U8, content.length = set.byteSize.toNat →
      (set.withContent content).WritesRange pos size value) ↔ set.Aligned pos size := by
  have capacity : 8 * set.byteSize.toNat ≤ 2 ^ 32 := by
    have range := bitCount.isLt
    rw [whole.1, boolsetByteSize_toNat]
    omega
  constructor
  · intro always
    have writes := always (List.replicate set.byteSize.toNat (if !value then 0xFF else 0x00))
      List.length_replicate
    apply stores_aligned inside
    intro bit bound
    by_contra differ
    have position : (BitVec.ofNat 32 bit).toNat = bit := Nat.mod_eq_of_lt (by omega)
    have read := ((withContent_writesRange_iff List.length_replicate inside).mp writes).2
      (BitVec.ofNat 32 bit) (by rwa [position]) (by rwa [position])
    rw [opposite_getBit (by rwa [position])] at read
    cases value <;> cases read
  · intro aligned content length
    obtain ⟨fits, same⟩ := aligned_stores inside aligned
    apply (withContent_writesRange_iff length inside).mpr
    exact ⟨fits, fun bit bound differ => absurd (same _ bound) differ⟩

theorem mem_rangeWrites {index : Nat} : index ∈ set.rangeWrites pos size ↔
    set.Accepts pos size ∧ ((pos.toNat % 8 ≠ 0 ∧ index = pos.toNat / 8) ∨
      (pos.toNat / 8 + 1 ≤ index ∧ index < pos.toNat / 8 + 1 + size.toNat / 8) ∨
        (size.toNat % 8 ≠ 0 ∧ index = size.toNat / 8)) := by
  rw [rangeWrites]
  by_cases accepted : set.Accepts pos size
  · rw [if_pos accepted, List.mem_append, List.mem_append, List.mem_range'_1]
    by_cases front : pos.toNat % 8 = 0 <;> by_cases back : size.toNat % 8 = 0 <;>
      simp [accepted, front, back, or_assoc]
  · simp [accepted]

/-- The listed bytes are those that hold a bit which the call stores to. -/
theorem mem_rangeWrites_iff {index : Nat} :
    index ∈ set.rangeWrites pos size ↔ ∃ bit, bit / 8 = index ∧ set.Stores pos size bit := by
  rw [mem_rangeWrites]
  constructor
  · intro written
    obtain ⟨accepted, front | whole | back⟩ := written
    · exact ⟨pos.toNat, front.2.symm, accepted, Or.inl ⟨front.1, by omega, by omega⟩⟩
    · exact ⟨8 * index, by omega, accepted, Or.inr (Or.inl ⟨by omega, by omega⟩)⟩
    · exact ⟨size.toNat, back.2.symm, accepted, Or.inr (Or.inr ⟨back.1, by omega, by omega⟩)⟩
  · intro stored
    obtain ⟨bit, here, accepted, reached⟩ := stored
    rw [Reaches] at reached
    exact ⟨accepted, by omega⟩

/-- All other bytes are kept. -/
theorem setRange_keeps (ran : set.setRange pos size value = .ok after) {index : Nat}
    (missed : index ∉ set.rangeWrites pos size) : after.buf[index]? = set.buf[index]? := by
  apply getElem?_of_bitAt
  intro bit here
  apply (setRange_fills ran).outside
  intro stored
  exact missed (mem_rangeWrites_iff.mpr ⟨bit, here, stored⟩)

end Range

/-- `set_range` writes its range exactly where the parts that it stores to are the range, or the
bits where they differ hold the value already.  Over every content that leaves the ranges
which end a byte without starting one, behind a range of at least the same size. -/
theorem setRange_writesRange_iff (bitCount : U32) (set : Boolset) (pos size : U32) (value : Bool)
    (whole : set.Whole bitCount) (inside : pos.toNat + size.toNat ≤ 8 * set.byteSize.toNat) :
    (set.WritesRange pos size value ↔
      ¬ set.Overruns pos size ∧ ∀ bit : U32, bit.toNat < 8 * set.byteSize.toNat →
        ¬ (Boolset.InRange pos size bit.toNat ↔ set.Stores pos size bit.toNat) →
          set.getBit bit = .ok value) ∧
      ((∀ content : List U8, content.length = set.byteSize.toNat →
        (set.withContent content).WritesRange pos size value) ↔ set.Aligned pos size) :=
  ⟨writesRange_iff whole.2 inside, writesRange_always_iff whole value inside⟩

theorem setRange_writesRange_iff_nibble :
    ((boolset true 16).WritesRange 4 4 true ↔
      ¬ (boolset true 16).Overruns 4 4 ∧ ∀ bit : U32, bit.toNat < 8 * (boolset true 16).byteSize.toNat →
        ¬ (Boolset.InRange 4 4 bit.toNat ↔ (boolset true 16).Stores 4 4 bit.toNat) →
          (boolset true 16).getBit bit = .ok true) ∧
      ((∀ content : List U8, content.length = (boolset true 16).byteSize.toNat →
        ((boolset true 16).withContent content).WritesRange 4 4 true) ↔ (boolset true 16).Aligned 4 4) :=
  setRange_writesRange_iff 16 (boolset true 16) 4 4 true (boolset_whole (Or.inr rfl)) (by decide)

theorem setRange_misses : ¬ ∀ (bitCount : U32) (set : Boolset) (pos size : U32) (value : Bool),
    set.Whole bitCount → pos.toNat + size.toNat ≤ 8 * set.byteSize.toNat →
      set.WritesRange pos size value := by
  intro writes
  obtain ⟨after, ran, bits⟩ :=
    writes 16 (boolset true 16) 0 8 true (boolset_whole (Or.inr rfl)) (by decide)
  cases ran
  cases (bits 0).1 ⟨by decide, by decide⟩

/-- `set_range` stays inside the buffer if it turns the call away, or if the range lies in
the set and the bytes of its `memset` do too. -/
theorem setRange_staysInside_iff (set : Boolset) (pos size : U32) (value : Bool) :
    set.StaysInside pos size value ↔
      ¬ set.Accepts pos size ∨ (pos.toNat + size.toNat ≤ 8 * set.byteSize.toNat ∧
        (size.toNat / 8 = 0 ∨ pos.toNat / 8 + size.toNat / 8 < set.byteSize.toNat)) := by
  constructor
  · intro stays
    by_cases accepted : set.Accepts pos size
    · have starts := accepted.1
      refine Or.inr ⟨?_, ?_⟩
      · by_contra beyond
        have none := (stays.ignored (by omega)).1
        have written : pos.toNat / 8 ∈ set.rangeWrites pos size ∨
            pos.toNat / 8 + 1 ∈ set.rangeWrites pos size ∨ size.toNat / 8 ∈ set.rangeWrites pos size := by
          simp only [mem_rangeWrites, accepted, true_and, and_true]
          omega
        simp [none] at written
      · by_contra beyond
        have last := stays.inside (pos.toNat / 8 + size.toNat / 8)
          (mem_rangeWrites.mpr ⟨accepted, Or.inr (Or.inl ⟨by omega, by omega⟩)⟩)
        omega
    · exact Or.inl accepted
  · intro condition
    rcases condition with turned | fits
    · have none : set.rangeWrites pos size = [] := if_neg turned
      refine ⟨fun _ => mem_rangeWrites_iff, fun _ => setRange_fills, fun _ ran _ => setRange_keeps ran,
        fun index written => ?_, fun _ => ⟨set, setRange_ignored turned⟩,
        fun _ => ⟨none, setRange_ignored turned⟩⟩
      rw [none] at written
      cases written
    · obtain ⟨within, room⟩ := fits
      refine ⟨fun _ => mem_rangeWrites_iff, fun _ => setRange_fills, fun _ ran _ => setRange_keeps ran,
        fun index written => ?_, fun whole => ?_, fun beyond => absurd within (by omega)⟩
      · obtain ⟨accepted, place⟩ := mem_rangeWrites.mp written
        have starts := accepted.1
        omega
      · apply (setRange_returns_iff value whole).mpr
        intro overrun
        have ends := overrun.2
        omega

/-- The last byte of a range that fills a set of 256 bytes is written behind its end. -/
theorem setRange_leaves : ¬ ∀ (bitCount pos size : U32) (value : Bool),
    (boolset true bitCount).StaysInside pos size value := by
  intro stays
  have last := (stays 2048 0 2048 true).inside 256 (mem_rangeWrites.mpr (by decide))
  exact absurd last (by decide)

end Koshka
