import Koshka.Imlgen.Shortage

namespace Koshka.Iml

open Data Arm

/-- The pool of an arena: its objects one after the other, and zeros behind them. -/
def Arena.pool (arena : Arena) : ImlPool where
  data := (arena.objects.map (image Stored.size)).flatten ++
    List.replicate (arena.allocSize.toNat - arena.used) 0
  allocSize := arena.allocSize
  pos := arena.top

/-- One byte of a bit set whose first `count` bits are set. -/
def leadingByte (count index : Nat) : U8 := BitVec.allOnes 8 <<< (8 - (count - 8 * index))

/-- The bit set of a program: the bits of all words but the last. -/
def decodedSet (size : U32) : Boolset where
  buf := (List.range (boolsetByteSize (size / 4)).toNat).map (leadingByte (size.toNat / 4 - 1))
  byteSize := boolsetByteSize (size / 4)
  initialized := true

/-- The machine that a run which returns ends in. -/
def laidMachine (env : Environment) (code : List U8) (size : U32) : Machine :=
  let laid := layPlans env ((wordsOf code).filterMap plan) (.initial size)
  { program := {
      imlPool := laid.2.pool
      armPool := { data := code, allocSize := size, pos := 0 }
      entryPoint := 0
      decodedInstrs := decodedSet size }
    callocs := laid.2.callocs
    slots := laid.2.slots
    trace := callTrace 0 laid.1 }

/-- What the recursion leaves alone: the code, and all of the bit set but its bytes. -/
structure Machine.KeepsCode (before after : Machine) : Prop where
  armPool : after.program.armPool = before.program.armPool
  byteSize : after.program.decodedInstrs.byteSize = before.program.decodedInstrs.byteSize
  initialized : after.program.decodedInstrs.initialized = before.program.decodedInstrs.initialized
  width : after.program.decodedInstrs.buf.length = before.program.decodedInstrs.buf.length

section Parts

variable {env : Environment} {before middle after machine : Machine} {arena : Arena} {code : List U8}
  {size : U32} {fuel : Nat} {pos handle decoded next : PoolHandle} {set other : Boolset} {bit : U32}

theorem Machine.KeepsCode.refl : machine.KeepsCode machine := ⟨rfl, rfl, rfl, rfl⟩

theorem Machine.KeepsCode.trans (one : before.KeepsCode middle) (two : middle.KeepsCode after) :
    before.KeepsCode after :=
  ⟨two.armPool.trans one.armPool, two.byteSize.trans one.byteSize, two.initialized.trans one.initialized,
    two.width.trans one.width⟩

theorem Machine.Models.pool (models : machine.Models arena) : machine.program.imlPool = arena.pool := by
  have data := models.stored.data
  rw [models.pos.2, models.allocSize] at data
  have parts : machine.program.imlPool =
      ⟨machine.program.imlPool.data, machine.program.imlPool.allocSize, machine.program.imlPool.pos⟩ := rfl
  rw [parts, data, models.allocSize, models.pos.1]
  rfl

theorem leadingByte_getLsbD {count index bit : Nat} (small : bit < 8) :
    (leadingByte count index).getLsbD (7 - bit) = decide (8 * index + bit < count) := by
  have inside : 7 - bit < 8 ∧ 7 - bit - (8 - (count - 8 * index)) < 8 := by omega
  rw [leadingByte, BitVec.getLsbD_shiftLeft, BitVec.getLsbD_allOnes, decide_eq_true inside.1,
    decide_eq_true inside.2, Bool.true_and, Bool.and_true, ← decide_not, decide_eq_decide]
  omega

theorem decodedSet_getBit (inside : Boolset.bytePos bit < (boolsetByteSize (size / 4)).toNat) :
    (decodedSet size).getBit bit = .ok (decide (bit.toNat + 1 < size.toNat / 4)) := by
  have byte : (decodedSet size).buf[Boolset.bytePos bit]? =
      some (leadingByte (size.toNat / 4 - 1) (Boolset.bytePos bit)) := by
    rw [decodedSet, List.getElem?_map, List.getElem?_range inside]
    rfl
  have bits : 8 * Boolset.bytePos bit + bit.toNat % 8 < size.toNat / 4 - 1 ↔
      bit.toNat + 1 < size.toNat / 4 := by
    rw [bytePos_eq]
    omega
  rw [getBit_eq, byte]
  simp only [bitPos_eq]
  rw [leadingByte_getLsbD (Nat.mod_lt _ (by decide)), decide_eq_decide.mpr bits]

/-- Two bit sets of one length with the same bits have the same bytes. -/
theorem Boolset.buf_eq (length : set.buf.length = other.buf.length) (short : 8 * set.buf.length ≤ 2 ^ 32)
    (same : ∀ bit, Boolset.bytePos bit < set.buf.length → set.getBit bit = other.getBit bit) :
    set.buf = other.buf := by
  refine List.ext_getElem length fun index bound within => ?_
  refine BitVec.eq_of_getLsbD_eq fun place small => ?_
  have position : (BitVec.ofNat 32 (8 * index + (7 - place))).toNat = 8 * index + (7 - place) := by
    rw [BitVec.toNat_ofNat, Nat.mod_eq_of_lt (by omega)]
  have byte : Boolset.bytePos (BitVec.ofNat 32 (8 * index + (7 - place))) = index := by
    rw [bytePos_eq, position]
    omega
  have bit : Boolset.bitPos (BitVec.ofNat 32 (8 * index + (7 - place))) = place := by
    rw [bitPos_eq, position]
    omega
  have equal := same (BitVec.ofNat 32 (8 * index + (7 - place))) (by rw [byte]; exact bound)
  simp only [getBit_eq, byte, bit, List.getElem?_eq_getElem bound, List.getElem?_eq_getElem within,
    Except.ok.injEq] at equal
  exact equal

theorem setBit_keeps {value : Bool} (ran : set.setBit bit value = .ok other) :
    other.byteSize = set.byteSize ∧ other.initialized = set.initialized := by
  rw [Boolset.setBit] at ran
  split at ran
  · cases ran
    exact ⟨rfl, rfl⟩
  · cases ran

theorem leaveCall_keeps (leave : Returns (leaveCall pos decoded next) before handle after) :
    before.KeepsCode after := by
  obtain ⟨-, linked, link, -, rfl⟩ := leaveCall_returns.mp leave
  simp only [writeNext, returns_get_bind] at link
  split at link
  · exact absurd link returns_throw
  · rw [← returns_set.mp link]
    exact ⟨rfl, rfl, rfl, rfl⟩

theorem imlgenRecurse_keeps (run : Returns (imlgenRecurse env fuel pos) before handle after) :
    before.KeepsCode after := by
  induction fuel generalizing before after pos handle with
  | zero => exact absurd run returns_throw
  | succ fuel ih =>
      obtain ⟨result, decoded, pushed, next, followed, entered, follow, leave⟩ :=
        imlgenRecurse_returns.mp run
      have rest := enterCall_closed rest_closed entered
      have enters : before.KeepsCode pushed :=
        ⟨rest.armPool, congrArg Boolset.byteSize rest.decodedInstrs,
          congrArg Boolset.initialized rest.decodedInstrs,
          congrArg (·.buf.length) rest.decodedInstrs⟩
      refine enters.trans (Machine.KeepsCode.trans ?_ (leaveCall_keeps leave))
      rw [followCall_returns] at follow
      split at follow
      · obtain ⟨middle, set, nested, written, rfl⟩ := follow
        obtain ⟨sameSize, sameInitialized⟩ := setBit_keeps written
        exact (ih nested).trans ⟨rfl, sameSize, sameInitialized, setBit_length written⟩
      · obtain ⟨-, rfl⟩ := follow
        exact .refl

/-- A run that returns keeps its code, and marks all words but the last. -/
theorem imlgen_keeps (length : code.length = size.toNat) (run : imlgen env fuel code size = .ok machine) :
    machine.program.armPool = { data := code, allocSize := size, pos := 0 } ∧
      machine.program.decodedInstrs = decodedSet size := by
  obtain ⟨positive, whole⟩ := imlgen_whole length run
  obtain ⟨handle, recursion⟩ := imlgen_recursion run
  have keeps := imlgenRecurse_keeps recursion
  have initial : (Machine.initial env code size).program.decodedInstrs = boolset true (size / 4) := by
    rw [← imlgen_opens_set positive whole recursion]
    rfl
  have bytes : machine.program.decodedInstrs.buf.length = (boolsetByteSize (size / 4)).toNat := by
    rw [keeps.width, initial]
    simp [boolset, calloc]
  have laid : (decodedSet size).buf.length = (boolsetByteSize (size / 4)).toNat := by simp [decodedSet]
  have buf : machine.program.decodedInstrs.buf = (decodedSet size).buf := by
    refine Boolset.buf_eq (bytes.trans laid.symm) ?_ fun bit inside => ?_
    · have most := (size / 4).isLt
      rw [bytes, boolsetByteSize_toNat]
      have range : (size / 4).toNat < 2 ^ 30 := by
        rw [BitVec.toNat_udiv]
        exact Nat.div_lt_of_lt_mul size.isLt
      omega
    · rw [bytes] at inside
      rw [imlgen_marks length run bit inside, decodedSet_getBit inside]
  have parts : machine.program.decodedInstrs = ⟨machine.program.decodedInstrs.buf,
    machine.program.decodedInstrs.byteSize, machine.program.decodedInstrs.initialized⟩ := rfl
  refine ⟨keeps.armPool, ?_⟩
  rw [parts, buf, keeps.byteSize, keeps.initialized, initial]
  rfl

/-- A run that returns ends in the machine of the layout. -/
theorem imlgen_laid (length : code.length = size.toNat) (run : imlgen env fuel code size = .ok machine) :
    machine = laidMachine env code size := by
  obtain ⟨plans, planning, -, -, models, entry, traced⟩ := imlgen_models length run
  obtain ⟨arm, set⟩ := imlgen_keeps length run
  have parts : machine = ⟨⟨machine.program.imlPool, machine.program.armPool, machine.program.entryPoint,
    machine.program.decodedInstrs⟩, machine.callocs, machine.slots, machine.trace⟩ := rfl
  rw [parts, models.pool, arm, entry, set, models.callocs, models.slots, traced, laidMachine,
    filterMap_planned planning]

end Parts

/-- `imlgen` is its layout: it stops where the words and the answers of `calloc` say so, and otherwise it
returns the laid out program, object for object.  What lies in an object beside its members (padding, and
the rest of a union) has no place in a cell. -/
theorem imlgen_eq_laid (env : Environment) (fuel : Nat) (code : List U8) (size : U32)
    (length : code.length = size.toNat) (short : (wordsOf code).length ≤ 14913080)
    (enough : (wordsOf code).length < fuel) :
    imlgen env fuel code size = (shortageFate env code size).map fun _ => laidMachine env code size := by
  rw [← imlgen_shortage env fuel code size length short enough]
  cases run : imlgen env fuel code size with
  | error fault => rfl
  | ok machine => rw [imlgen_laid length run]; rfl

/-- An `add` loses its second operand and goes on, and stops once its instruction finds no room either. -/
theorem imlgen_eq_laid_add :
    imlgen oneFailure 2 [0x20, 4, 0, 0x91] 4 = .ok (laidMachine oneFailure [0x20, 4, 0, 0x91] 4) ∧
      imlgen ⟨fun count => decide (count < 3), fun _ => false⟩ 2 [0x20, 4, 0, 0x91] 4 =
        .error .outOfBounds := by
  have returns : shortageFate oneFailure [0x20, 4, 0, 0x91] 4 = .ok () := by decide
  have stops : shortageFate ⟨fun count => decide (count < 3), fun _ => false⟩ [0x20, 4, 0, 0x91] 4 =
    .error .outOfBounds := by decide
  rw [imlgen_eq_laid _ 2 [0x20, 4, 0, 0x91] 4 rfl (by decide) (by decide), returns,
    imlgen_eq_laid _ 2 [0x20, 4, 0, 0x91] 4 rfl (by decide) (by decide), stops]
  exact ⟨rfl, rfl⟩

end Koshka.Iml
