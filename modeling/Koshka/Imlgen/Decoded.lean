import Koshka.Boolset.History
import Koshka.Imlgen.Calls

namespace Koshka.Iml

open Data

/-- The bits of the words are set, and what the last byte has behind them is not. -/
structure DecodedExact (machine : Machine) (count : Nat) : Prop where
  decoded : ∀ index < count, machine.program.decodedInstrs.getBit (BitVec.ofNat 32 index) = .ok true
  behind : ∀ index, count ≤ index → index < 8 * machine.program.decodedInstrs.byteSize.toNat →
    machine.program.decodedInstrs.getBit (BitVec.ofNat 32 index) = .ok false

section Decoded

variable {env : Environment} {before after machine : Machine} {code : List U8} {size : U32}
  {fuel index : Nat} {pos handle decoded next : PoolHandle}

theorem writeNext_rest (run : Returns (writeNext handle next) before () after) :
    after.program.decodedInstrs = before.program.decodedInstrs := by
  simp only [writeNext, returns_get_bind] at run
  split at run
  · exact absurd run returns_throw
  · rw [← returns_set.mp run]

theorem leaveCall_rest (run : Returns (leaveCall pos decoded next) before handle after) :
    after.program.decodedInstrs = before.program.decodedInstrs ∧
      ∃ bit, before.program.decodedInstrs.getBit (pos / 4) = .ok bit := by
  obtain ⟨_, linked, link, ⟨bit, read⟩, rfl⟩ := leaveCall_returns.mp run
  have same := writeNext_rest link
  rw [same] at read
  exact ⟨same, bit, read⟩

/-- A call marks the words from its own on, but for the last one, and no others. -/
theorem Called.marks (positive : 0 < size) (called : Called env (.initial env code size) index pos before)
    (run : Returns (imlgenRecurse env fuel pos) before handle after) (bit : U32) :
    after.program.decodedInstrs.getBit bit =
      if index ≤ bit.toNat ∧ 4 * (bit.toNat + 1) < size.toNat then .ok true
      else before.program.decodedInstrs.getBit bit := by
  induction fuel generalizing index pos before handle after with
  | zero => exact absurd run returns_throw
  | succ fuel ih =>
      obtain ⟨result, decoded, pushed, next, followed, entered, follow, leave⟩ :=
        imlgenRecurse_returns.mp run
      obtain ⟨place, inside⟩ := called.position positive
      have own : bit = pos / 4 ↔ bit.toNat = index := by
        rw [← BitVec.toNat_inj, BitVec.toNat_udiv, place]
        change bit.toNat = 4 * index / 4 ↔ _
        omega
      have rest := enterCall_closed rest_closed entered
      rw [(leaveCall_rest leave).1, ← rest.decodedInstrs]
      rw [followCall_returns] at follow
      split at follow
      · rename_i guard
        obtain ⟨middle, set, recursion, written, rfl⟩ := follow
        have deeper := Called.next called entered guard
        have more := (deeper.position positive).2
        rw [setBit_getBit written, ih deeper recursion]
        by_cases here : bit = pos / 4
        · have same := own.mp here
          rw [if_pos here, if_pos (by omega)]
        · have other := mt own.mpr here
          rw [if_neg here]
          congr 1
          rw [eq_iff_iff]
          omega
      · rename_i guard
        obtain ⟨_, rfl⟩ := follow
        rw [called.armPool, BitVec.lt_def, BitVec.toNat_add, place] at guard
        change ¬ (4 * index + 4) % 2 ^ 32 < size.toNat at guard
        have last : ¬ (index ≤ bit.toNat ∧ 4 * (bit.toNat + 1) < size.toNat) := by omega
        rw [if_neg last]

/-- A run that returns has asked for its last bit, so there is a set. -/
theorem imlgen_opens_set (positive : 0 < size) (whole : size.toNat % 4 = 0)
    (run : Returns (imlgenRecurse env fuel 0) (.initial env code size) handle after) :
    env.calloc 1 = true := by
  have nonzero : 0 < size.toNat := positive
  obtain ⟨last, count⟩ : ∃ last, size.toNat = 4 * (last + 1) := ⟨size.toNat / 4 - 1, by omega⟩
  have inside : 4 * last < size.toNat := by omega
  obtain ⟨before, called⟩ := called_of_returns positive run inside
  obtain ⟨_, _, ended, returned⟩ := called.returns run
  obtain ⟨_, _, _, _, _, _, _, leave⟩ := imlgenRecurse_returns.mp returned
  obtain ⟨same, bit, read⟩ := leaveCall_rest leave
  have own : (BitVec.ofNat 32 (4 * last) / 4 : U32).toNat = last := by
    rw [BitVec.toNat_udiv, (called.position positive).1]
    change 4 * last / 4 = last
    omega
  rw [← same, called.marks positive returned, own, if_neg (by omega), called.rest.2] at read
  cases answer : env.calloc 1 with
  | true => rfl
  | false => simp [Machine.initial, answer, boolset, calloc, getBit_eq] at read

/-- After a run that returned, the bits of all words but the last one are set. -/
theorem imlgen_marks (length : code.length = size.toNat) (run : imlgen env fuel code size = .ok machine)
    (bit : U32) (inside : Boolset.bytePos bit < (boolsetByteSize (size / 4)).toNat) :
    machine.program.decodedInstrs.getBit bit = .ok (decide (bit.toNat + 1 < size.toNat / 4)) := by
  obtain ⟨positive, whole⟩ := imlgen_whole length run
  simp only [imlgen, bind_eq_ok] at run
  obtain ⟨_, _, ⟨handle, _⟩, recursion, same⟩ := run
  cases same
  have opened := imlgen_opens_set positive whole recursion
  rw [Called.marks positive .first recursion]
  by_cases marked : bit.toNat + 1 < size.toNat / 4
  · rw [if_pos (by omega), decide_eq_true marked]
  · rw [if_neg (by omega), decide_eq_false marked]
    change (boolset (env.calloc 1) (size / 4)).getBit bit = _
    have within : Boolset.bytePos bit < (boolset (env.calloc 1) (size / 4)).buf.length := by
      simpa [boolset, opened, calloc] using inside
    obtain ⟨value, read⟩ := getBit_ok within
    rw [read, boolset_blank read]

theorem imlgen_last_unmarked (length : code.length = size.toNat)
    (run : imlgen env fuel code size = .ok machine) : 0 < size.toNat / 4 ∧
    machine.program.decodedInstrs.getBit (BitVec.ofNat 32 (size.toNat / 4 - 1)) = .ok false := by
  obtain ⟨positive, whole⟩ := imlgen_whole length run
  have nonzero : 0 < size.toNat := positive
  have range := size.isLt
  have index : (BitVec.ofNat 32 (size.toNat / 4 - 1) : U32).toNat = size.toNat / 4 - 1 := by
    rw [BitVec.toNat_ofNat]
    omega
  have inside : Boolset.bytePos (BitVec.ofNat 32 (size.toNat / 4 - 1)) < (boolsetByteSize (size / 4)).toNat := by
    rw [boolsetByteSize_toNat, bytePos_eq, index, BitVec.toNat_udiv]
    change (size.toNat / 4 - 1) / 8 < (size.toNat / 4 + 7) / 8
    omega
  refine ⟨by omega, ?_⟩
  rw [imlgen_marks length run _ inside, index, decide_eq_false (by omega)]

end Decoded

/-- No run that returns leaves the set exact: the call for the last word never marks it. -/
theorem imlgen_not_decodedExact (env : Environment) (fuel : Nat) (code : List U8) (size : U32)
    (machine : Machine) (length : code.length = size.toNat)
    (run : imlgen env fuel code size = .ok machine) : ¬ DecodedExact machine (size.toNat / 4) := by
  intro isExact
  obtain ⟨some, read⟩ := imlgen_last_unmarked length run
  have set := isExact.decoded (size.toNat / 4 - 1) (by omega)
  cases set.symm.trans read

theorem imlgen_not_decodedExact_branch :
    ∃ machine, imlgen .calm 1 [2, 0, 0, 0x14] 4 = .ok machine ∧ ¬ DecodedExact machine 1 := by
  obtain ⟨machine, run⟩ := eq_ok_of_isOk (show (imlgen .calm 1 [2, 0, 0, 0x14] 4).isOk = true by decide)
  exact ⟨machine, run, imlgen_not_decodedExact .calm 1 [2, 0, 0, 0x14] 4 machine rfl run⟩

/-- A program of one `b` instruction: its word is not marked. -/
theorem decodedExact_fails_branch :
    ¬ ∀ (env : Environment) (fuel : Nat) (code : List U8) (size : U32) (machine : Machine),
      code.length = size.toNat → imlgen env fuel code size = .ok machine →
      DecodedExact machine (size.toNat / 4) := by
  intro isExact
  obtain ⟨machine, run⟩ := eq_ok_of_isOk (show (imlgen .calm 1 [2, 0, 0, 0x14] 4).isOk = true by decide)
  have width : ([2, 0, 0, 0x14] : List U8).length = (4 : U32).toNat := rfl
  obtain ⟨_, read⟩ := imlgen_last_unmarked width run
  cases ((isExact _ _ _ _ _ rfl run).decoded 0 (by decide)).symm.trans read

end Koshka.Iml
