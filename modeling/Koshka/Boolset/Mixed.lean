import Koshka.Boolset.Range

namespace Koshka

open Data

inductive BoolsetOp where
  | plain (call : BoolsetCall)
  | setRange (pos size : U32) (value : Bool)
deriving Repr, DecidableEq

def Boolset.operate (set : Boolset) : BoolsetOp → Except Fault Boolset
  | .plain call => set.call call
  | .setRange pos size value => set.setRange pos size value

instance (set : Boolset) (pos size : U32) (bit : Nat) : Decidable (set.Stores pos size bit) :=
  inferInstanceAs (Decidable (_ ∧ _))

instance (set : Boolset) (pos size : U32) : Decidable (set.Overruns pos size) :=
  inferInstanceAs (Decidable (_ ∧ _))

namespace BoolsetOp

/-- The bits that the operation stores to, in a set of the same size. -/
def stores (set : Boolset) : BoolsetOp → U32 → Bool
  | .plain call, bit => call.covers bit
  | .setRange pos size _, bit => decide (set.Stores pos size bit.toNat)

def stored : BoolsetOp → Bool
  | .plain call => call.stored
  | .setRange _ _ value => value

/-- The operation stays in the buffer of a set of this size. -/
def Fits (set : Boolset) : BoolsetOp → Prop
  | .plain (.setBit pos _) => pos.toNat < 8 * set.byteSize.toNat
  | .plain (.setAll _) => True
  | .setRange pos size _ => ¬ set.Overruns pos size

instance (set : Boolset) : DecidablePred (Fits set)
  | .plain (.setBit pos _) => inferInstanceAs (Decidable (pos.toNat < 8 * set.byteSize.toNat))
  | .plain (.setAll _) => inferInstanceAs (Decidable True)
  | .setRange pos size _ => inferInstanceAs (Decidable (¬ set.Overruns pos size))

end BoolsetOp

/-- The buffer is there, as large as that of the other set. -/
structure Boolset.SizedAs (fresh set : Boolset) : Prop where
  byteSize : set.byteSize = fresh.byteSize
  length : set.buf.length = fresh.byteSize.toNat

section Mixed

variable {fresh before after final : Boolset} {op : BoolsetOp} {ops : List BoolsetOp} {pos size bit : U32}

theorem Boolset.SizedAs.whole (sized : fresh.SizedAs before) : before.buf.length = before.byteSize.toNat := by
  rw [sized.length, sized.byteSize]

theorem Boolset.SizedAs.stores_iff (sized : fresh.SizedAs before) (bit : Nat) :
    before.Stores pos size bit ↔ fresh.Stores pos size bit := by
  rw [Boolset.Stores, Boolset.Accepts, sized.byteSize]
  rfl

theorem Boolset.SizedAs.overruns_iff (sized : fresh.SizedAs before) :
    before.Overruns pos size ↔ fresh.Overruns pos size := by
  rw [Boolset.Overruns, Boolset.Accepts, sized.byteSize]
  rfl

theorem setRange_byteSize {value : Bool} (ran : before.setRange pos size value = .ok after) :
    after.byteSize = before.byteSize := by
  rw [setRange_eq] at ran
  split at ran
  · obtain ⟨_, _, ran⟩ := bind_eq_ok.mp ran
    obtain ⟨_, _, ran⟩ := bind_eq_ok.mp ran
    obtain ⟨_, _, ran⟩ := bind_eq_ok.mp ran
    cases ran
    rfl
  · cases ran
    rfl

theorem setBit_byteSize {value : Bool} (ran : before.setBit pos value = .ok after) :
    after.byteSize = before.byteSize := by
  rw [Boolset.setBit] at ran
  split at ran
  · cases ran
    rfl
  · cases ran

theorem Boolset.SizedAs.operate (sized : fresh.SizedAs before) (ran : before.operate op = .ok after) :
    fresh.SizedAs after := by
  match op, ran with
  | .plain (.setBit pos value), ran =>
      change before.setBit pos value = .ok after at ran
      exact ⟨(setBit_byteSize ran).trans sized.byteSize, (setBit_length ran).trans sized.length⟩
  | .plain (.setAll value), ran =>
      rw [Boolset.operate, Boolset.call, setAll_ok value sized.whole] at ran
      cases ran
      exact ⟨sized.byteSize, List.length_replicate.trans (congrArg BitVec.toNat sized.byteSize)⟩
  | .setRange pos size value, ran =>
      exact ⟨(setRange_byteSize ran).trans sized.byteSize, (setRange_fills ran).length.trans sized.length⟩

/-- What one operation does to one bit of the buffer. -/
theorem Boolset.SizedAs.operate_getBit (sized : fresh.SizedAs before)
    (bound : bit.toNat < 8 * fresh.byteSize.toNat) (ran : before.operate op = .ok after) :
    after.getBit bit = if op.stores fresh bit then .ok op.stored else before.getBit bit := by
  match op, ran with
  | .plain (.setBit target value), ran =>
      change before.setBit target value = .ok after at ran
      simp only [BoolsetOp.stores, BoolsetCall.covers, beq_iff_eq]
      exact setBit_getBit ran
  | .plain (.setAll value), ran =>
      rw [Boolset.operate, Boolset.call, setAll_ok value sized.whole] at ran
      cases ran
      have small : bitPos bit < 8 := by rw [bitPos_eq]; omega
      have inside : bytePos bit < before.byteSize.toNat := by
        rw [bytePos_eq, sized.byteSize]
        omega
      simp only [getBit_eq, List.getElem?_replicate, if_pos inside, fillByte_getLsbD small]
      rfl
  | .setRange target size value, ran =>
      have fills := setRange_fills ran
      simp only [BoolsetOp.stores, decide_eq_true_eq]
      split
      · rename_i stores
        rw [getBit_bitAt, fills.inside _ ((sized.stores_iff _).mpr stores) (by rw [sized.length]; exact bound)]
        rfl
      · rename_i spared
        rw [getBit_bitAt, getBit_bitAt, fills.outside _ fun stores => spared ((sized.stores_iff _).mp stores)]

theorem Boolset.SizedAs.operate_iff (sized : fresh.SizedAs before) :
    (∃ after, before.operate op = .ok after) ↔ op.Fits fresh := by
  match op with
  | .plain (.setBit target value) =>
      have inside : bytePos target < before.buf.length ↔ target.toNat < 8 * fresh.byteSize.toNat := by
        rw [bytePos_eq, sized.length]
        omega
      rw [BoolsetOp.Fits, ← inside]
      constructor
      · intro goes
        obtain ⟨after, ran⟩ := goes
        change before.setBit target value = .ok after at ran
        rw [Boolset.setBit] at ran
        split at ran
        · rename_i found
          exact (List.getElem?_eq_some_iff.mp found).1
        · cases ran
      · intro here
        obtain ⟨after, ran, -⟩ := setBit_ok value here
        exact ⟨after, ran⟩
  | .plain (.setAll value) => exact iff_of_true ⟨_, setAll_ok value sized.whole⟩ trivial
  | .setRange target size value =>
      rw [BoolsetOp.Fits, ← sized.overruns_iff]
      exact setRange_returns_iff value sized.whole

/-- A run goes through if every operation of it stays in the buffer. -/
theorem Boolset.SizedAs.run_iff (sized : fresh.SizedAs before) :
    (∃ final, runHistory Boolset.operate before ops = .ok final) ↔ ∀ op ∈ ops, op.Fits fresh := by
  induction ops generalizing before with
  | nil => exact iff_of_true ⟨before, rfl⟩ fun op member => absurd member List.not_mem_nil
  | cons op ops ih =>
      rw [List.forall_mem_cons, ← sized.operate_iff]
      constructor
      · intro goes
        obtain ⟨final, run⟩ := goes
        obtain ⟨next, ran, run⟩ := bind_eq_ok.mp run
        exact ⟨⟨next, ran⟩, (ih (sized.operate ran)).mp ⟨final, run⟩⟩
      · intro both
        obtain ⟨⟨next, ran⟩, fit⟩ := both
        obtain ⟨final, run⟩ := (ih (sized.operate ran)).mpr fit
        exact ⟨final, bind_eq_ok.mpr ⟨next, ran, run⟩⟩

theorem boolset_sized {succeeds : Bool} {bitCount : U32} (usable : bitCount = 0 ∨ succeeds = true) :
    (boolset succeeds bitCount).SizedAs (boolset succeeds bitCount) :=
  ⟨rfl, (boolset_whole usable).2⟩

theorem boolset_getBit_blank {succeeds : Bool} {bitCount : U32} (usable : bitCount = 0 ∨ succeeds = true)
    (bound : bit.toNat < 8 * (boolset succeeds bitCount).byteSize.toNat) :
    (boolset succeeds bitCount).getBit bit = .ok false := by
  have inside : Boolset.bytePos bit < (boolset succeeds bitCount).buf.length := by
    rw [(boolset_sized usable).length, bytePos_eq]
    omega
  obtain ⟨found, read⟩ := getBit_ok inside
  rw [read, boolset_blank read]

end Mixed

/-- Whatever the operations on a new set are: they go through exactly if each of them stays in the
buffer, and every bit of the buffer then holds what the last one that stored to it has stored. -/
theorem runBoolset_iff (succeeds : Bool) (bitCount : U32) (ops : List BoolsetOp)
    (usable : bitCount = 0 ∨ succeeds = true) :
    ((∃ final, runHistory Boolset.operate (boolset succeeds bitCount) ops = .ok final) ↔
      ∀ op ∈ ops, op.Fits (boolset succeeds bitCount)) ∧
    ∀ final, runHistory Boolset.operate (boolset succeeds bitCount) ops = .ok final → ∀ bit : U32,
      final.getBit bit =
        if bit.toNat < 8 * (boolset succeeds bitCount).byteSize.toNat then
          .ok ((lastCovering (BoolsetOp.stores (boolset succeeds bitCount)) ops bit).elim false BoolsetOp.stored)
        else .error .outOfBounds := by
  have sized := boolset_sized usable
  refine ⟨sized.run_iff, fun final run bit => ?_⟩
  split
  · rename_i bound
    have law (before : Boolset) (op : BoolsetOp) (after : Boolset)
        (kept : (boolset succeeds bitCount).SizedAs before) (ran : before.operate op = .ok after) :
        (boolset succeeds bitCount).SizedAs after ∧ after.getBit bit =
          if op.stores (boolset succeeds bitCount) bit then .ok op.stored else before.getBit bit :=
      ⟨kept.operate ran, kept.operate_getBit bound ran⟩
    rw [runHistory_read _ (Boolset.getBit · bit) law sized run, boolset_getBit_blank usable bound]
    cases lastCovering (BoolsetOp.stores (boolset succeeds bitCount)) ops bit <;> rfl
  · rename_i outside
    have kept := runHistory_keeps (Boolset.SizedAs (boolset succeeds bitCount))
      (fun _ kept _ _ _ ran => kept.operate ran) sized run
    exact getBit_outside (by rw [kept.length]; omega)

def mixed : List BoolsetOp :=
  [.plain (.setBit 9 true), .setRange 3 4 true, .plain (.setAll false), .plain (.setBit 1 false),
    .setRange 6 1 true]

theorem runBoolset_iff_mixed : ∃ final, runHistory Boolset.operate (boolset true 12) mixed = .ok final ∧
    ∀ bit : U32, final.getBit bit = if bit.toNat < 16 then
      .ok ((lastCovering (BoolsetOp.stores (boolset true 12)) mixed bit).elim false BoolsetOp.stored)
      else .error .outOfBounds := by
  obtain ⟨returns, reads⟩ := runBoolset_iff true 12 mixed (Or.inr rfl)
  obtain ⟨final, run⟩ := returns.mpr (by decide)
  exact ⟨final, run, reads final run⟩

end Koshka
