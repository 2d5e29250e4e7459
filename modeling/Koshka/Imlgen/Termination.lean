import Koshka.Data.Alike
import Koshka.Imlgen.Capacity
import Koshka.Pool.Contents

namespace Koshka.Iml

open Data Arm

/-- The run returns, or stops at an assert. -/
def Ends {α : Type} (command : Run α) (before : Machine) : Prop :=
  (∃ value after, Returns command before value after) ∨ Fails command before .assertFailed

/-- Pushes of as many expressions, whatever they hold. -/
def pushExpressions (env : Environment) : Nat → Run Unit
  | 0 => pure ()
  | count + 1 => do
      let _ ← pushStored env (.expression .blank)
      pushExpressions env count

/-- How many expressions the decoding of a word pushes. -/
def pushCount (word : U32) : Nat := (plan word).elim 0 fun planned => planned.tree.requests.length

/-- The three loops of `arm_asl.c`, on what the logical immediate decoder extracts: each
comes to its end after some number of steps, with the result it is there for. -/
structure LoopsFinish (immN : Bool) (imms immr : BitVec 6) : Prop where
  highest : ∃ fuel, highestBitSetFrom
      ((BitVec.ofBool immN).setWidth 64 <<< 6 ||| (~~~imms.setWidth 8).setWidth 64 &&& maxValForSize 6) fuel 63 =
    .ok (if (BitVec.ofBool immN ++ ~~~imms).toNat = 0 then -1 else (BitVec.ofBool immN ++ ~~~imms).toNat.log2)
  rotation : ∀ len, 1 ≤ len → len ≤ 6 → ∀ x, ∃ rotated,
    ror x ((1 : U8) <<< len) (immr.setWidth 8 &&& ((1 : U8) <<< len - 1)).toNat = .ok rotated
  replication : ∀ len, 1 ≤ len → len ≤ 6 → ∀ pattern, ∃ fuel filled,
    fillPattern fuel pattern ((1 : U8) <<< len) = .ok filled

section Loops

/-- The counter never goes below 0, so no number of steps finds the end of the loop. -/
theorem highestBitSetFrom_zero (fuel : Nat) (i : U8) {result : Int} :
    highestBitSetFrom 0 fuel i ≠ .ok result := by
  induction fuel generalizing i with
  | zero => exact fun run => by cases run
  | succ fuel ih =>
      have clear : ¬ (0 : U64).getLsbD i.toNat = true := by simp
      rw [highestBitSetFrom, asBool_getSingleBit _ _ (by decide), if_neg clear]
      split
      · exact ih (i - 1)
      · exact fun run => by cases run

theorem ror_ok {bitSize : U8} (positive : 0 < bitSize.toNat) (room : bitSize.toNat ≤ 64) (shift : Nat)
    (x : U64) : ∃ rotated, ror x bitSize shift = .ok rotated := by
  induction shift generalizing x with
  | zero => exact ⟨x, rfl⟩
  | succ shift ih =>
      have shifted : shiftLeft x (bitSize.toNat - 1) = .ok (x <<< ((bitSize.toNat : Int) - 1).toNat) :=
        if_pos (by omega)
      rw [ror, shifted, ok_bind]
      exact ih _

theorem fillPattern_ok {len : Nat} (positive : 1 ≤ len) (short : len ≤ 6) (pattern : U64) :
    ∃ filled, fillPattern 7 pattern ((1 : U8) <<< len) = .ok filled := by
  interval_cases len <;> exact ⟨_, rfl⟩

theorem loopsFinish_iff {immN : Bool} {imms immr : BitVec 6} :
    LoopsFinish immN imms immr ↔ ¬ (immN = false ∧ imms = 63) := by
  constructor
  · intro finish empty
    obtain ⟨fuel, run⟩ := finish.highest
    have bits := lengthBits_zero_iff.mpr empty
    have zero : (BitVec.ofBool immN ++ ~~~imms).setWidth 64 = (0 : U64) := by
      apply BitVec.eq_of_toNat_eq
      rw [BitVec.toNat_setWidth, bits]
      rfl
    rw [lengthBits_eq, zero] at run
    exact highestBitSetFrom_zero fuel 63 run
  · intro someBit
    have nonzero : ¬ (BitVec.ofBool immN ++ ~~~imms).toNat = 0 :=
      fun zero => someBit (lengthBits_zero_iff.mp zero)
    refine ⟨⟨65, ?_⟩, ?_, fun len positive short pattern => ⟨7, fillPattern_ok positive short pattern⟩⟩
    · rw [lengthBits_eq, if_neg nonzero]
      exact highestBitSet_lengthBits.trans (if_neg someBit)
    · intro len positive short x
      have size := elementSize_toNat short
      have power : 2 ^ len ≤ 2 ^ 6 := Nat.pow_le_pow_right (by omega) short
      have elements := Nat.two_pow_pos len
      exact ror_ok (by omega) (by omega) _ x

end Loops

section Pushes

variable {env : Environment} {before : Machine} {word : U32} {planned : Plan} {fault : Fault}

/-- What the fate of a push depends on. -/
def Machine.sizes (machine : Machine) : Pool Nat × Nat :=
  (machine.program.imlPool.map fun _ => 0, machine.callocs)

theorem pushStored_sizes (object : Stored) (machine : Machine) :
    ((pushStored env object).run machine).map (fun ended => ended.2.sizes) =
      (poolPush (env.calloc machine.sizes.2) machine.sizes.1 (List.replicate object.size 0)
        (BitVec.ofNat 32 object.size) 0).map fun pushed => (pushed.2, machine.sizes.2 + 1) := by
  have erased : List.replicate object.size 0 = (image Stored.size object).map fun _ => 0 := by
    rw [List.map_const', image_length]
  rw [erased, Machine.sizes, poolPush_map (fun _ => (0 : Nat)) rfl]
  cases pushed : poolPush (env.calloc machine.callocs) machine.program.imlPool (image Stored.size object)
      (BitVec.ofNat 32 object.size) 0 with
  | error fault =>
      have failed : Fails (pushStored env object) machine fault := by
        simp only [pushStored, fails_bind, returns_get, fails_lift]
        exact Or.inr ⟨machine, machine, ⟨rfl, rfl⟩, Or.inl pushed⟩
      rw [show (pushStored env object).run machine = .error fault from failed]
      rfl
  | ok found =>
      have returned : Returns (pushStored env object) machine found.1 { machine with
          program := { machine.program with imlPool := found.2 }, callocs := machine.callocs + 1 } :=
        pushStored_returns.mpr ⟨found.2, pushed, rfl⟩
      rw [show (pushStored env object).run machine = .ok _ from returned]
      rfl

theorem pushStored_alike {object other : Stored} (size : object.size = other.size) :
    Alike Machine.sizes (pushStored env object) (pushStored env other) := by
  intro first second same
  rw [pushStored_sizes, pushStored_sizes, same, size]

theorem pushExpressions_add (count more : Nat) : pushExpressions env (count + more) =
    pushExpressions env count >>= fun _ => pushExpressions env more := by
  induction count with
  | zero => rw [Nat.zero_add, pushExpressions, pure_bind]
  | succ count ih => rw [Nat.add_right_comm, pushExpressions, pushExpressions, ih, bind_assoc]

theorem operatorExpression_alike (left right : Expression) (op : MathOp) :
    Alike Machine.sizes (operatorExpression env left op right false) (pushExpressions env 2) := by
  refine .bind (pushStored_alike rfl) fun _ _ => .bind (pushStored_alike rfl) fun _ _ => .of_keeps ?_
  intro machine
  simp only [returns_bind, returns_get, returns_set, returns_pure]
  exact ⟨_, _, ⟨machine, machine, ⟨rfl, rfl⟩, (), _, rfl, rfl, rfl⟩, rfl⟩

/-- Building a tree runs like its pushes. -/
theorem Tree.build_alike (tree : Tree) :
    Alike Machine.sizes (tree.build env) (pushExpressions env tree.requests.length) := by
  induction tree with
  | value operand => exact .of_keeps fun machine => ⟨_, machine, returns_pure.mpr ⟨rfl, rfl⟩, rfl⟩
  | blank => exact .of_keeps fun machine => ⟨_, machine, returns_pure.mpr ⟨rfl, rfl⟩, rfl⟩
  | node op left right ihLeft ihRight =>
      have count : (Tree.node op left right).requests.length =
          left.requests.length + (right.requests.length + 2) := by
        simp [Tree.requests]
      rw [count, pushExpressions_add, pushExpressions_add]
      exact .bind ihLeft fun _ _ => .bind ihRight fun _ _ => operatorExpression_alike _ _ op

theorem Plan.build_alike (planned : Plan) :
    Alike Machine.sizes (planned.build env) (pushExpressions env planned.tree.requests.length) := by
  rw [← bind_pure (pushExpressions env planned.tree.requests.length)]
  exact .bind (Tree.build_alike planned.tree) fun _ _ =>
    .of_keeps fun machine => ⟨_, machine, returns_pure.mpr ⟨rfl, rfl⟩, rfl⟩

theorem pushStored_fails {object : Stored} (failed : Fails (pushStored env object) before fault) :
    fault = .assertFailed ∨ fault = .outOfBounds := by
  simp only [pushStored, fails_bind, not_fails_get, returns_get, returns_lift, fails_lift, not_fails_set,
    not_fails_pure, false_or, or_false, and_false, exists_false] at failed
  obtain ⟨_, _, _, stopped⟩ := failed
  exact poolPush_error stopped

theorem pushExpressions_fails {count : Nat} (failed : Fails (pushExpressions env count) before fault) :
    fault = .assertFailed ∨ fault = .outOfBounds := by
  induction count generalizing before with
  | zero => exact absurd failed not_fails_pure
  | succ count ih =>
      rcases fails_bind.mp failed with stopped | ⟨_, _, _, stopped⟩
      · exact pushStored_fails stopped
      · exact ih stopped

theorem Plan.build_ends_iff : Ends (planned.build env) before ↔
    ¬ Fails (pushExpressions env planned.tree.requests.length) before .outOfBounds := by
  rw [← (Plan.build_alike planned).fails_iff rfl]
  constructor
  · intro ends overrun
    rcases ends with ⟨_, _, returned⟩ | stopped
    · exact returned.not_fails overrun
    · cases stopped.unique overrun
  · intro inside
    rcases returns_or_fails (planned.build env) before with returned | ⟨fault, stopped⟩
    · exact Or.inl returned
    · rcases pushExpressions_fails ((Plan.build_alike planned).fails rfl stopped) with same | same
      · exact Or.inr (same ▸ stopped)
      · exact absurd (same ▸ stopped) inside

theorem Endless.plan_none (endless : Endless word) : plan word = none := by
  obtain ⟨inClass, plain, ones⟩ := endless
  have otherClass : ¬ AddSubImmediate word := by
    have bits := logicalImmediate_iff.mp inClass
    rw [addSubImmediate_iff]
    simp [bits]
  have reserved : ¬ LogicalImmAccepted word := by
    rw [LogicalImmAccepted, plain, ones]
    exact fun accepted => accepted.2 (by decide)
  simp only [plan, otherClass, inClass, reserved, if_true, if_false, ite_self]

theorem decode_ends_iff : Ends (decode env word) before ↔
    ¬ Endless word ∧ ¬ Fails (pushExpressions env (pushCount word)) before .outOfBounds := by
  rw [decode_eq, pushCount]
  cases found : plan word with
  | none =>
      simp only [Option.elim, Ends, returns_throw, exists_false, false_or, fails_throw, planFault,
        pushExpressions, not_fails_pure, not_false_eq_true, and_true]
      split
      · rename_i endless
        simp [endless]
      · rename_i finite
        simp [finite]
  | some planned =>
      have finite : ¬ Endless word := by
        intro endless
        rw [endless.plan_none] at found
        cases found
      exact Plan.build_ends_iff.trans (and_iff_right finite).symm

end Pushes

/-- Decoding ends but for the words that ask for the highest bit of 0, as long as the pushes
of their expressions stay inside the pool's buffer. -/
theorem decode_finishes_iff (env : Environment) (word : U32) (before : Machine) :
    (Ends (decode env word) before ∧
      (LogicalImmediate word → LoopsFinish (immN word) (imms word) (immr word))) ↔
    ¬ Endless word ∧ ¬ Fails (pushExpressions env (pushCount word)) before .outOfBounds := by
  rw [decode_ends_iff, and_iff_left_iff_imp]
  intro condition inClass
  exact loopsFinish_iff.mpr fun both => condition.1 ⟨inClass, both⟩

/-- The `and x0, x1` whose `N:imms` is 0:111111. -/
theorem decode_endless :
    ¬ Ends (decode .calm 0x9200FC20) (.initial .calm [] 0) ∧
      ¬ LoopsFinish (immN 0x9200FC20) (imms 0x9200FC20) (immr 0x9200FC20) := by
  have endless : Endless 0x9200FC20 := by decide
  exact ⟨fun ends => (decode_ends_iff.mp ends).1 endless, fun finish =>
    loopsFinish_iff.mp finish endless.2⟩

end Koshka.Iml
