import Koshka.Arm.Operands
import Koshka.Imlgen.Evaluation

namespace Koshka.Iml

open Data Arm

/-- The two operations that bit 30 chooses from. -/
def addSub {width : Nat} (word : U32) (x y : BitVec width) :
    BitVec width := if op word then x - y else x + y

section Classes

variable {env : Environment} {word : U32} {before after : Machine} {arena : Arena} {planned : Plan}
  {result : DecodeResult} {pool : ImlPool} {instr : Instruction}

theorem Plan.build_fits (memory : ∀ count, env.calloc count = true) (models : before.Models arena)
    (fits : arena.Fits planned.tree.requests) :
    ∃ result after, Returns (planned.build env) before result after := by
  rw [← List.append_nil planned.tree.requests] at fits
  obtain ⟨_, _, run, _⟩ := Tree.build_exists memory models fits
  exact ⟨_, _, Plan.build_returns.mpr ⟨_, run, rfl⟩⟩

theorem decode_fits (memory : ∀ count, env.calloc count = true) (models : before.Models arena)
    (planning : plan word = some planned) (fits : arena.Fits planned.tree.requests) :
    ∃ result after, Returns (decode env word) before result after := by
  obtain ⟨result, after, building⟩ := Plan.build_fits memory models fits
  exact ⟨result, after, decode_returns.mpr ⟨planned, planning, building⟩⟩

theorem calm_models : (Machine.initial .calm [] 0).Models (.initial 0) := Machine.initial_models rfl

theorem calm_build_returns (fits : SizesFit 0 0 (planned.tree.requests.map some)) :
    ∃ result after, Returns (planned.build .calm) (.initial .calm [] 0) result after :=
  Plan.build_fits (fun _ => rfl) calm_models fits

theorem shiftAccepted_iff : ShiftAccepted word ↔ (sf word = false → (imm6 word).toNat < 32) := by
  have top : ∀ field : BitVec 6, field.getLsbD 5 = false ↔ field.toNat < 32 := by decide
  exact imp_congr_right fun _ => top (imm6 word)

theorem shiftAmount_inside (accepted : ShiftAccepted word) : (imm6 word).toNat < datasize word := by
  have bound := (imm6 word).isLt
  cases wide : sf word with
  | true => rw [datasize_wide wide]; exact bound
  | false => rw [datasize_narrow wide]; exact shiftAccepted_iff.mp accepted wide

/-- An addition or subtraction with the operation of the code, against the one of the architecture. -/
theorem addSub_means_iff {second : Resolved} {setFlags touchedFlags : Bool}
    {operand : Cpu → BitVec (datasize word)}
    (resolves : instr.Resolves pool
      (.ofMath word (if op word then .add else .sub) setFlags touchedFlags second))
    (value : ∀ cpu, second.eval (datasize word) cpu = some (operand cpu)) :
    instr.Means pool ((Rd word).setWidth 8) setFlags (fun cpu =>
        addSub word ((cpu.read false (Rn word)).setWidth (datasize word)) (operand cpu)) ↔
      ∀ cpu, operand cpu + operand cpu = 0 := by
  rw [resolves.means_iff]
  refine forall_congr' fun cpu => ?_
  rw [value, Option.bind_some, addSub]
  cases op word with
  | true => exact Option.some_inj.trans add_eq_sub_iff
  | false => exact Option.some_inj.trans (eq_comm.trans add_eq_sub_iff)

theorem bitwise_means_iff {second : Resolved} {setFlags touchedFlags : Bool}
    {operand expected : Cpu → BitVec (datasize word)}
    (resolves : instr.Resolves pool
      (.ofMath word (bitwiseOpTable (opc word)) setFlags touchedFlags second))
    (value : ∀ cpu, second.eval (datasize word) cpu = some (operand cpu)) :
    instr.Means pool ((Rd word).setWidth 8) setFlags (fun cpu =>
        bitwise (opc word) ((cpu.read false (Rn word)).setWidth (datasize word)) (expected cpu)) ↔
      ∀ cpu : Cpu, bitwise (opc word) ((cpu.read false (Rn word)).setWidth (datasize word)) (operand cpu) =
        bitwise (opc word) ((cpu.read false (Rn word)).setWidth (datasize word)) (expected cpu) := by
  rw [resolves.means_iff]
  refine forall_congr' fun cpu => ?_
  rw [value, Option.bind_some, bitwiseOpTable_eval, Option.some_inj]

theorem planAddsubShift_means_iff (models : before.Models arena) (accepted : ShiftAccepted word)
    (building : Returns ((planAddsubShift word).build env) before result after) :
    result.instr.Means after.program.imlPool ((Rd word).setWidth 8) (S word) (fun cpu =>
        addSub word ((cpu.read false (Rn word)).setWidth (datasize word))
          (shiftedSource cpu word (datasize word))) ↔
      (planAddsubShift word).tree.supplied env arena = true ∧
        (Rm word = 31 ∨ (shift word = 0 ∧ (imm6 word).toNat = datasize word - 1)) := by
  have size := datasize_bounds word
  refine Plan.build_means_iff models building planAddsubShift_resolved fun resolves => ?_
  have value (cpu : Cpu) : (shiftedOperand word).eval (datasize word) cpu =
      some (shiftedSource cpu word (datasize word)) := shiftedOperand_eval (by omega) size.2
  rw [addSub_means_iff resolves value]
  exact shiftedSource_double_iff (by omega) (shiftAmount_inside accepted) size.2

theorem shiftedConstant (allocated : shift word = 0 ∨ shift word = 1) :
    BitVec.ofNat (datasize word) ((imm12 word).toNat * 4096 ^ (shift word).toNat) =
      immediateOperand word (datasize word) := by
  have wide : 32 ≤ datasize word := by rcases datasize_cases word with size | size <;> omega
  have power : 2 ^ 32 ≤ 2 ^ datasize word := Nat.pow_le_pow_right (by omega) wide
  have bound := (imm12 word).isLt
  apply BitVec.eq_of_toNat_eq
  rw [BitVec.toNat_ofNat, immediateOperand_toNat wide]
  rcases allocated with same | same <;> rw [same]
  · change (imm12 word).toNat * 1 % _ = (imm12 word).toNat
    exact (congrArg (· % _) (Nat.mul_one _)).trans (Nat.mod_eq_of_lt (by omega))
  · change (imm12 word).toNat * 4096 % _ = (imm12 word).toNat * 4096
    exact Nat.mod_eq_of_lt (by omega)

theorem planAddsubImm_means_iff (models : before.Models arena)
    (allocated : shift word = 0 ∨ shift word = 1) (named : Rn word ≠ 31)
    (building : Returns ((planAddsubImm word).build env) before result after) :
    result.instr.Means after.program.imlPool ((Rd word).setWidth 8) (S word) (fun cpu =>
        addSub word ((cpu.registers (Rn word)).setWidth (datasize word))
          (BitVec.ofNat (datasize word) ((imm12 word).toNat * 4096 ^ (shift word).toNat))) ↔
      (planAddsubImm word).tree.supplied env arena = true ∧ imm12 word = 0 := by
  have size := datasize_bounds word
  have wide : 32 ≤ datasize word := by rcases datasize_cases word with size | size <;> omega
  refine Plan.build_means_iff models building planAddsubImm_resolved fun resolves => ?_
  have value (cpu : Cpu) : (addsubImmOperand word).eval (datasize word) cpu =
      some (immediateOperand word (datasize word)) := addsubImmOperand_eval (by omega) size.2
  have means := addSub_means_iff resolves value
  simp only [Cpu.read_named named] at means
  have inhabited : Nonempty Cpu := ⟨.filled 0⟩
  rw [shiftedConstant allocated, means, ← immediateOperand_double_iff wide, forall_const]

/-- Where the mask that the code keeps does what the whole mask does. -/
theorem lowMask_same_iff :
    (∀ cpu : Cpu, bitwise (opc word) ((cpu.read false (Rn word)).setWidth (datasize word))
        ((lowMask word).setWidth (datasize word)) =
      bitwise (opc word) ((cpu.read false (Rn word)).setWidth (datasize word))
        ((mask (immN word) (imms word) (immr word)).setWidth (datasize word))) ↔
      sf word = false ∨ (Rn word = 31 ∧ (opc word = 0 ∨ opc word = 3)) ∨
        ((mask (immN word) (imms word) (immr word)).setWidth 32).setWidth 64 =
          mask (immN word) (imms word) (immr word) := by
  cases wide : sf word with
  | false =>
      rw [datasize_narrow wide, lowMask, BitVec.setWidth_eq]
      simp only [true_or, implies_true]
  | true =>
      rw [datasize_wide wide]
      simp only [BitVec.setWidth_eq, Bool.true_eq_false, false_or]
      by_cases same : (lowMask word).setWidth 64 = mask (immN word) (imms word) (immr word)
      · exact iff_of_true (fun cpu => by rw [same]) (Or.inr same)
      · rw [bitwise_same_iff same]
        exact (or_iff_left same).symm

theorem planLogicalImm_means_iff (models : before.Models arena)
    (building : Returns ((planLogicalImm word).build env) before result after) :
    result.instr.Means after.program.imlPool ((Rd word).setWidth 8) (opc word = 3) (fun cpu =>
        bitwise (opc word) ((cpu.read false (Rn word)).setWidth (datasize word))
          ((mask (immN word) (imms word) (immr word)).setWidth (datasize word))) ↔
      (planLogicalImm word).tree.supplied env arena = true ∧
        (sf word = false ∨ (Rn word = 31 ∧ (opc word = 0 ∨ opc word = 3)) ∨
          (immN word = true ∧
            ((immr word = 0 ∧ (imms word).toNat < 32) ∨ (imms word).toNat + 33 ≤ (immr word).toNat))) := by
  have size := datasize_bounds word
  refine Plan.build_means_iff models building planLogicalImm_resolved fun resolves => ?_
  have value (cpu : Cpu) : (logicalImmOperand word).eval (datasize word) cpu =
      some ((lowMask word).setWidth (datasize word)) := constant_eval _ size.2
  rw [bitwise_means_iff resolves value, ← mask_lowHalf_iff]
  exact lowMask_same_iff

end Classes

/-- Logical (shifted register): the operation, the shift and the complement of the architecture, but
where the push of an operand that is read is refused. -/
theorem decodeDataRegLogicalShift_means_iff (env : Environment) (word : U32) (before : Machine)
    (arena : Arena) (models : before.Models arena) (amount : sf word = false → (imm6 word).toNat < 32) :
    ((∀ count, env.calloc count = true) → arena.Fits (planLogicalShift word).tree.requests →
      ∃ result after, Returns (decodeDataRegLogicalShift env word) before result after) ∧
    ∀ result after, Returns (decodeDataRegLogicalShift env word) before result after →
      (result.instr.Means after.program.imlPool ((Rd word).setWidth 8) (opc word = 3) (fun cpu =>
          bitwise (opc word) ((cpu.read false (Rn word)).setWidth (datasize word))
            (invertedSource cpu word (datasize word))) ∧
        result.instr.touchedNegativeFlag = decide (opc word = 3) ∧
        result.instr.touchedZeroFlag = decide (opc word = 3) ∧
        result.instr.touchedCarryFlag = decide (opc word = 3) ∧
        result.instr.touchedOverflowFlag = decide (opc word = 3) ↔
      (planLogicalShift word).tree.supplied env arena = true) := by
  have accepted : ShiftAccepted word := shiftAccepted_iff.mpr amount
  have size := datasize_bounds word
  constructor
  · intro memory fits
    obtain ⟨result, after, building⟩ := Plan.build_fits memory models fits
    exact ⟨result, after, decodeDataRegLogicalShift_returns.mpr ⟨accepted, building⟩⟩
  · intro result after run
    have building := (decodeDataRegLogicalShift_returns.mp run).2
    constructor
    · intro both
      exact both.1.supplied models building
    · intro supplied
      have resolves := Plan.build_resolves_supplied models building planLogicalShift_resolved supplied
      have value (cpu : Cpu) : (logicalShiftOperand word).eval (datasize word) cpu =
          some (invertedSource cpu word (datasize word)) := logicalShiftOperand_eval (by omega) size.2
      exact ⟨(bitwise_means_iff resolves value).mpr fun _ => rfl, resolves.ofMath_record.2.2⟩

/-- `orn x0, x1, x2, lsr #3` -/
theorem decodeDataRegLogicalShift_means_iff_orn : ∃ result after,
    Returns (decodeDataRegLogicalShift .calm 0xAA620C20) (.initial .calm [] 0) result after ∧
      result.instr.Means after.program.imlPool 0 false (fun cpu : Cpu =>
        bitwise 1 ((cpu.read false 1).setWidth (datasize 0xAA620C20))
          (invertedSource cpu 0xAA620C20 (datasize 0xAA620C20))) := by
  have means := decodeDataRegLogicalShift_means_iff .calm 0xAA620C20 (.initial .calm [] 0) (.initial 0)
    calm_models (by decide)
  obtain ⟨result, after, run⟩ := means.1 (fun _ => rfl)
    (show SizesFit 0 0 ((planLogicalShift 0xAA620C20).tree.requests.map some) by decide)
  exact ⟨result, after, run, ((means.2 result after run).mpr (by decide)).1⟩

/-- `orr x0, x1, x2`, in a pool of 48 bytes that cannot grow: the second operand is lost. -/
theorem logicalShift_loses_operand : ∃ result after,
    Returns (decodeDataRegLogicalShift { calloc := (· < 3), stale := fun _ => false } 0xAA020020)
        (.initial { calloc := (· < 3), stale := fun _ => false } [0x20, 0, 2, 0xAA] 4) result after ∧
      ¬ result.instr.Means after.program.imlPool 0 false (fun cpu : Cpu =>
        bitwise 1 ((cpu.read false 1).setWidth (datasize 0xAA020020))
          (invertedSource cpu 0xAA020020 (datasize 0xAA020020))) := by
  have models : (Machine.initial { calloc := (· < 3), stale := fun _ => false } [0x20, 0, 2, 0xAA] 4).Models
      (.initial 4) := Machine.initial_models rfl
  obtain ⟨result, after, run⟩ : ∃ result after,
    Returns (decodeDataRegLogicalShift { calloc := (· < 3), stale := fun _ => false } 0xAA020020)
        (.initial { calloc := (· < 3), stale := fun _ => false } [0x20, 0, 2, 0xAA] 4) result after := ⟨_, _, rfl⟩
  refine ⟨result, after, run, fun means => ?_⟩
  have building := (decodeDataRegLogicalShift_returns.mp run).2
  exact absurd (means.supplied models building) (by decide)

/-- Logical (immediate): a 64-bit mask loses its upper half. -/
theorem decodeLogicalImm_means_iff (env : Environment) (word : U32) (before : Machine) (arena : Arena)
    (models : before.Models arena) (allocated : LogicalImmAccepted word) :
    ((∀ count, env.calloc count = true) → arena.Fits (planLogicalImm word).tree.requests →
      ∃ result after, Returns (decodeLogicalImm env word) before result after) ∧
    ∀ result after, Returns (decodeLogicalImm env word) before result after →
      (result.instr.Means after.program.imlPool ((Rd word).setWidth 8) (opc word = 3) (fun cpu =>
        bitwise (opc word) ((cpu.read false (Rn word)).setWidth (datasize word))
          ((mask (immN word) (imms word) (immr word)).setWidth (datasize word))) ↔
      (planLogicalImm word).tree.supplied env arena = true ∧
        (sf word = false ∨ (Rn word = 31 ∧ (opc word = 0 ∨ opc word = 3)) ∨
          (immN word = true ∧
            ((immr word = 0 ∧ (imms word).toNat < 32) ∨ (imms word).toNat + 33 ≤ (immr word).toNat)))) := by
  constructor
  · intro memory fits
    obtain ⟨result, after, building⟩ := Plan.build_fits memory models fits
    exact ⟨result, after, decodeLogicalImm_returns.mpr ⟨allocated, building⟩⟩
  · intro result after run
    exact planLogicalImm_means_iff models (decodeLogicalImm_returns.mp run).2

/-- `and x0, x1, #0xff` -/
theorem decodeLogicalImm_means_iff_and : ∃ result after,
    Returns (decodeLogicalImm .calm 0x92401C20) (.initial .calm [] 0) result after ∧
      result.instr.Means after.program.imlPool 0 false (fun cpu : Cpu =>
        bitwise 0 ((cpu.read false 1).setWidth (datasize 0x92401C20))
          ((mask true 7 0).setWidth (datasize 0x92401C20))) := by
  have means := decodeLogicalImm_means_iff .calm 0x92401C20 (.initial .calm [] 0) (.initial 0)
    calm_models (by decide)
  obtain ⟨result, after, run⟩ :=
    means.1 (fun _ => rfl) (show SizesFit 0 0 ((planLogicalImm 0x92401C20).tree.requests.map some) by decide)
  exact ⟨result, after, run, (means.2 result after run).mpr (by decide)⟩

/-- `orr x0, x1, #0xffffffff00000000` is made `orr x0, x1, #0`. -/
theorem logicalImm_loses_upper : ∃ result after,
    Returns (decodeLogicalImm .calm 0xB2607C20) (.initial .calm [] 0) result after ∧
      ¬ result.instr.Means after.program.imlPool 0 false (fun cpu : Cpu =>
        bitwise 1 ((cpu.read false 1).setWidth (datasize 0xB2607C20))
          ((mask true 31 32).setWidth (datasize 0xB2607C20))) := by
  obtain ⟨result, after, building⟩ :=
    calm_build_returns (show SizesFit 0 0 ((planLogicalImm 0xB2607C20).tree.requests.map some) by decide)
  refine ⟨result, after, decodeLogicalImm_returns.mpr ⟨by decide, building⟩, fun means => ?_⟩
  exact absurd ((planLogicalImm_means_iff calm_models building).mp means) (by decide)

/-- Add/subtract (shifted register): the two operations are taken for each other. -/
theorem decodeDataRegAddsubShift_means_iff (env : Environment) (word : U32) (before : Machine)
    (arena : Arena) (models : before.Models arena) (amount : sf word = false → (imm6 word).toNat < 32) :
    ((∀ count, env.calloc count = true) → arena.Fits (planAddsubShift word).tree.requests →
      ∃ result after, Returns (decodeDataRegAddsubShift env word) before result after) ∧
    ∀ result after, Returns (decodeDataRegAddsubShift env word) before result after →
      (result.instr.Means after.program.imlPool ((Rd word).setWidth 8) (S word) (fun cpu =>
        addSub word ((cpu.read false (Rn word)).setWidth (datasize word))
          (shiftedSource cpu word (datasize word))) ↔
      (planAddsubShift word).tree.supplied env arena = true ∧
        (Rm word = 31 ∨ (shift word = 0 ∧ (imm6 word).toNat = datasize word - 1))) := by
  have accepted : ShiftAccepted word := shiftAccepted_iff.mpr amount
  constructor
  · intro memory fits
    obtain ⟨result, after, building⟩ := Plan.build_fits memory models fits
    exact ⟨result, after, decodeDataRegAddsubShift_returns.mpr ⟨accepted, building⟩⟩
  · intro result after run
    exact planAddsubShift_means_iff models accepted (decodeDataRegAddsubShift_returns.mp run).2

/-- `add w0, w1, wzr` -/
theorem decodeDataRegAddsubShift_means_iff_zero : ∃ result after,
    Returns (decodeDataRegAddsubShift .calm 0x0B1F0020) (.initial .calm [] 0) result after ∧
      result.instr.Means after.program.imlPool 0 false (fun cpu : Cpu =>
        addSub 0x0B1F0020 ((cpu.read false 1).setWidth (datasize 0x0B1F0020))
          (shiftedSource cpu 0x0B1F0020 (datasize 0x0B1F0020))) := by
  have means := decodeDataRegAddsubShift_means_iff .calm 0x0B1F0020 (.initial .calm [] 0) (.initial 0)
    calm_models (by decide)
  obtain ⟨result, after, run⟩ :=
    means.1 (fun _ => rfl) (show SizesFit 0 0 ((planAddsubShift 0x0B1F0020).tree.requests.map some) by decide)
  exact ⟨result, after, run, (means.2 result after run).mpr (by decide)⟩

/-- `add x0, x1, x2` is made a subtraction. -/
theorem addsubShift_swaps : ∃ result after,
    Returns (decodeDataRegAddsubShift .calm 0x8B020020) (.initial .calm [] 0) result after ∧
      ¬ result.instr.Means after.program.imlPool 0 false (fun cpu : Cpu =>
        addSub 0x8B020020 ((cpu.read false 1).setWidth (datasize 0x8B020020))
          (shiftedSource cpu 0x8B020020 (datasize 0x8B020020))) := by
  obtain ⟨result, after, building⟩ :=
    calm_build_returns (show SizesFit 0 0 ((planAddsubShift 0x8B020020).tree.requests.map some) by decide)
  refine ⟨result, after, decodeDataRegAddsubShift_returns.mpr ⟨by decide, building⟩, fun means => ?_⟩
  exact absurd ((planAddsubShift_means_iff calm_models (by decide) building).mp means) (by decide)

/-- Add/subtract (immediate): the same, and only the immediate 0 is right. -/
theorem decodeAddsubImm_means_iff (env : Environment) (word : U32) (before : Machine) (arena : Arena)
    (models : before.Models arena) (allocated : shift word = 0 ∨ shift word = 1) (named : Rn word ≠ 31) :
    ((∀ count, env.calloc count = true) → arena.Fits (planAddsubImm word).tree.requests →
      ∃ result after, Returns (decodeAddsubImm env word) before result after) ∧
    ∀ result after, Returns (decodeAddsubImm env word) before result after →
      (result.instr.Means after.program.imlPool ((Rd word).setWidth 8) (S word) (fun cpu =>
        addSub word ((cpu.registers (Rn word)).setWidth (datasize word))
          (BitVec.ofNat (datasize word) ((imm12 word).toNat * 4096 ^ (shift word).toNat))) ↔
      (planAddsubImm word).tree.supplied env arena = true ∧ imm12 word = 0) := by
  rw [decodeAddsubImm_eq]
  exact ⟨fun memory => Plan.build_fits memory models,
    fun _ _ building => planAddsubImm_means_iff models allocated named building⟩

/-- `add x0, x1, #0` -/
theorem decodeAddsubImm_means_iff_zero : ∃ result after,
    Returns (decodeAddsubImm .calm 0x91000020) (.initial .calm [] 0) result after ∧
      result.instr.Means after.program.imlPool 0 false (fun cpu : Cpu =>
        addSub 0x91000020 ((cpu.registers 1).setWidth (datasize 0x91000020))
          (BitVec.ofNat (datasize 0x91000020) (0 * 4096 ^ 0))) := by
  have means := decodeAddsubImm_means_iff .calm 0x91000020 (.initial .calm [] 0) (.initial 0)
    calm_models (by decide) (by decide)
  obtain ⟨result, after, run⟩ :=
    means.1 (fun _ => rfl) (show SizesFit 0 0 ((planAddsubImm 0x91000020).tree.requests.map some) by decide)
  exact ⟨result, after, run, (means.2 result after run).mpr (by decide)⟩

/-- `add x0, x1, #1` is made a subtraction. -/
theorem addsubImm_swaps : ∃ result after,
    Returns (decodeAddsubImm .calm 0x91000420) (.initial .calm [] 0) result after ∧
      ¬ result.instr.Means after.program.imlPool 0 false (fun cpu : Cpu =>
        addSub 0x91000420 ((cpu.registers 1).setWidth (datasize 0x91000420))
          (BitVec.ofNat (datasize 0x91000420) (1 * 4096 ^ 0))) := by
  obtain ⟨result, after, building⟩ :=
    calm_build_returns (show SizesFit 0 0 ((planAddsubImm 0x91000420).tree.requests.map some) by decide)
  refine ⟨result, after, by rwa [decodeAddsubImm_eq], fun means => ?_⟩
  exact absurd ((planAddsubImm_means_iff calm_models (by decide) (by decide) building).mp means)
    (by decide)

end Koshka.Iml
