import Koshka.Arm.Operands

namespace Koshka.Arm

/-- The difference or the sum, with its flags. -/
def sum {width : Nat} (subtracts : Bool) (x y : BitVec width) : BitVec width × Flags :=
  if subtracts then addWithCarry x (~~~y) true else addWithCarry x y false

/-- `Cpu.addSub` with the operation given. -/
def Cpu.sum {width : Nat} (cpu : Cpu) (word : U32) (subtracts sourceSp destSp : Bool)
    (operand2 : BitVec width) : Cpu :=
  let sum := Arm.sum subtracts ((cpu.read sourceSp (Rn word)).setWidth width) operand2
  let flagged := if S word then { cpu with flags := sum.2 } else cpu
  flagged.write destSp (Rd word) (sum.1.setWidth 64)

/-- A CPU with one value in SP and another in every other register. -/
def Cpu.pair (sp other : U64) : Cpu where
  registers number := if number = 31 then sp else other
  flags := { n := false, z := false, c := false, v := false }

section Sums

variable {width : Nat} {x y : BitVec width} {subtracts sourceSp destSp : Bool} {word : U32} {cpu : Cpu}

theorem Cpu.addSub_eq_sum :
    cpu.addSub word sourceSp destSp y = cpu.sum word (op word) sourceSp destSp y := by
  rw [Cpu.addSub, Cpu.sum, Arm.sum]

theorem sum_result : (sum subtracts x y).1 = if subtracts then x - y else x + y := by
  unfold sum
  split
  · apply BitVec.eq_of_toNat_eq
    have bound := y.isLt
    have negated : (~~~y).toNat = 2 ^ width - 1 - y.toNat := BitVec.toNat_not
    change (BitVec.ofNat width (x.toNat + (~~~y).toNat + 1)).toNat = _
    rw [BitVec.toNat_ofNat, BitVec.toNat_sub, negated]
    congr 1
    omega
  · apply BitVec.eq_of_toNat_eq
    exact BitVec.toNat_ofNat ..

theorem sum_zero : (sum subtracts x y).2.z = decide ((sum subtracts x y).1 = 0) := by
  cases subtracts <;> rfl

/-- Nothing borrows from nothing: the carry of a subtraction is set. -/
theorem sum_carry : (sum subtracts (0 : BitVec width) 0).2.c = subtracts := by
  have nothing : (0 : BitVec width).toNat = 0 := BitVec.toNat_zero
  cases subtracts with
  | true =>
      have power := Nat.two_pow_pos width
      have whole : (0 : BitVec width).toNat + (~~~(0 : BitVec width)).toNat + 1 = 2 ^ width := by
        rw [BitVec.toNat_not, nothing, Nat.zero_add, Nat.sub_zero, Nat.sub_add_cancel power]
      have wrapped : (BitVec.ofNat width (2 ^ width)).toNat = 0 := by
        rw [BitVec.toNat_ofNat, Nat.mod_self]
      change decide ((BitVec.ofNat width ((0 : BitVec width).toNat + (~~~(0 : BitVec width)).toNat + 1)).toNat ≠
          (0 : BitVec width).toNat + (~~~(0 : BitVec width)).toNat + 1) = true
      rw [whole, wrapped]
      exact decide_eq_true (Nat.ne_of_lt power)
  | false =>
      change decide ((BitVec.ofNat width ((0 : BitVec width).toNat + (0 : BitVec width).toNat + 0)).toNat ≠
          (0 : BitVec width).toNat + (0 : BitVec width).toNat + 0) = false
      rw [nothing]
      exact decide_eq_false (not_not.mpr nothing)

theorem sum_injective {other : BitVec width} (same : (sum subtracts x y).1 = (sum subtracts other y).1) :
    x = other := by
  rw [sum_result, sum_result] at same
  split at same
  · simpa using same
  · simpa using same

theorem sum_reaches (target : BitVec width) : ∃ x, (sum subtracts x y).1 = target := by
  cases subtracts with
  | true => exact ⟨target + y, by rw [sum_result, if_pos rfl, BitVec.add_sub_cancel]⟩
  | false => exact ⟨target - y, by rw [sum_result, if_neg (by decide), BitVec.sub_add_cancel]⟩

theorem setWidth_inj (short : width ≤ 64) : x.setWidth 64 = y.setWidth 64 ↔ x = y := by
  constructor
  · intro same
    have back := congrArg (BitVec.setWidth width) same
    simpa only [BitVec.setWidth_setWidth_of_le _ short, BitVec.setWidth_eq] using back
  · exact congrArg _

theorem Cpu.read_filled_nothing {number : BitVec 5} :
    ((Cpu.filled 0).read sourceSp number).setWidth width = 0 := by
  have nothing : (Cpu.filled 0).read sourceSp number = 0 := by
    unfold Cpu.read
    split <;> rfl
  rw [nothing]
  exact BitVec.setWidth_zero ..

theorem Cpu.read_pair_sp {sp other : U64} : (Cpu.pair sp other).read true 31 = sp := rfl

theorem Cpu.read_pair_named {sp other : U64} (named : Rn word ≠ 31) :
    (Cpu.pair sp other).read sourceSp (Rn word) = other := by
  rw [Cpu.read_named named]
  exact if_neg named

theorem Cpu.sum_dest (named : Rd word ≠ 31 ∨ destSp = true) :
    (cpu.sum word subtracts sourceSp destSp y).registers (Rd word) =
      (Arm.sum subtracts ((cpu.read sourceSp (Rn word)).setWidth width) y).1.setWidth 64 :=
  Cpu.write_named named

theorem Cpu.sum_flags (flagged : S word = true) : (cpu.sum word subtracts sourceSp destSp y).flags =
    (Arm.sum subtracts ((cpu.read sourceSp (Rn word)).setWidth width) y).2 := by
  rw [Cpu.sum, if_pos flagged, Cpu.write_flags]

/-- Without the flags, number 31 as a destination is no destination. -/
theorem Cpu.sum_nowhere (plain : S word = false) (dest : Rd word = 31) :
    cpu.sum word subtracts sourceSp false y = cpu := by
  rw [Cpu.sum, plain, dest, Cpu.write_zero]
  rfl

theorem Cpu.sum_source (named : Rn word ≠ 31) :
    cpu.sum word subtracts sourceSp destSp y = cpu.sum word subtracts true destSp y := by
  rw [Cpu.sum, Cpu.sum, Cpu.read_named named, Cpu.read_named named]

theorem Cpu.sum_open (named : Rd word ≠ 31) :
    cpu.sum word subtracts sourceSp destSp y = cpu.sum word subtracts sourceSp true y := by
  simp only [Cpu.sum, Cpu.write, named, false_and]

end Sums

section Swapped

variable {width : Nat} {word : U32} {subtracts sourceSp destSp : Bool}

theorem sum_swapped_iff {x y : BitVec width} :
    (sum (!subtracts) x y).1 = (sum subtracts x y).1 ↔ y + y = 0 := by
  rw [sum_result, sum_result]
  cases subtracts with
  | true => exact add_eq_sub_iff
  | false => exact eq_comm.trans add_eq_sub_iff

theorem Cpu.sum_swapped_iff {operand : Cpu → BitVec width} (short : width ≤ 64) (plain : S word = false)
    (named : Rd word ≠ 31) :
    (∀ cpu : Cpu, cpu.sum word (!subtracts) sourceSp destSp (operand cpu) =
        cpu.sum word subtracts sourceSp destSp (operand cpu)) ↔
      ∀ cpu, operand cpu + operand cpu = 0 := by
  refine forall_congr' fun cpu => ⟨fun same => ?_, fun nothing => ?_⟩
  · have value := congrArg (fun cpu : Cpu => cpu.registers (Rd word)) same
    simp only [Cpu.sum_dest (Or.inl named)] at value
    exact Arm.sum_swapped_iff.mp ((setWidth_inj short).mp value)
  · simp only [Cpu.sum, plain, Bool.false_eq_true, if_false, Arm.sum_swapped_iff.mpr nothing]

/-- No operand hides the operation from the flags: nothing has another carry,
  and all others another zero. -/
theorem Cpu.sum_swapped_flags {operand : BitVec width} (short : width ≤ 64) (flagged : S word = true)
    (named : Rn word ≠ 31) (single : operand + operand = 0 → operand = 0) :
    ¬ ∀ cpu : Cpu, cpu.sum word (!subtracts) sourceSp destSp operand =
      cpu.sum word subtracts sourceSp destSp operand := by
  intro same
  have flags (value : BitVec width) : (Arm.sum (!subtracts) value operand).2 =
      (Arm.sum subtracts value operand).2 := by
    have whole := congrArg Cpu.flags (same (.filled (value.setWidth 64)))
    have source : ((Cpu.filled (value.setWidth 64)).read sourceSp (Rn word)).setWidth width = value := by
      rw [Cpu.read_named named]
      exact (BitVec.setWidth_setWidth_of_le _ short).trans (BitVec.setWidth_eq _)
    simpa only [Cpu.sum_flags flagged, source] using whole
  by_cases zero : operand = 0
  · subst zero
    have carries := congrArg Flags.c (flags 0)
    rw [sum_carry, sum_carry] at carries
    exact absurd carries (by cases subtracts <;> decide)
  · have zeros := congrArg Flags.z (flags operand)
    have twice : operand + operand ≠ 0 := fun nothing => zero (single nothing)
    rw [sum_zero, sum_zero, sum_result, sum_result, BitVec.sub_self] at zeros
    cases subtracts <;> exact absurd (by simpa using zeros) twice

/-- Add/subtract (shifted register), with the operation of the other. -/
theorem addSubShifted_swapped_iff (inside : (imm6 word).toNat < datasize word) :
    (∀ cpu : Cpu, cpu.sum word (!op word) false false (shiftedSource cpu word (datasize word)) =
        addSubShifted cpu word) ↔
      S word = false ∧ (Rd word = 31 ∨ Rm word = 31 ∨
        (shift word = 0 ∧ (imm6 word).toNat = datasize word - 1)) := by
  have size : 32 ≤ datasize word ∧ datasize word ≤ 64 := by
    rcases datasize_cases word with size | size <;> omega
  simp only [addSubShifted, Cpu.addSub_eq_sum]
  cases flagged : S word with
  | true =>
      refine iff_of_false (fun same => ?_) (by simp)
      -- every register is nothing, and so is the shifted one
      have nothing : shiftedSource (.filled 0) word (datasize word) = 0 := by
        rw [shiftedSource, Cpu.read_filled_nothing, shiftReg_zero]
      have carries := congrArg (fun cpu : Cpu => cpu.flags.c) (same (.filled 0))
      simp only [Cpu.sum_flags flagged, nothing, Cpu.read_filled_nothing,
        sum_carry] at carries
      exact absurd carries (by cases op word <;> decide)
  | false =>
      simp only [true_and]
      by_cases dest : Rd word = 31
      · refine iff_of_true (fun cpu => ?_) (Or.inl dest)
        rw [Cpu.sum_nowhere flagged dest, Cpu.sum_nowhere flagged dest]
      · rw [Cpu.sum_swapped_iff size.2 flagged dest, shiftedSource_double_iff (by omega) inside size.2]
        simp only [dest, false_or]

end Swapped

section Stack

variable {width : Nat} {word : U32} {subtracts sourceSp destSp : Bool} {operand : BitVec width}

theorem one_ne_nothing (some_ : 0 < width) : (1 : BitVec width) ≠ 0 := by
  intro one
  have value := congrArg BitVec.toNat one
  simp [show ¬ width = 0 by omega] at value

/-- SP as a source shows in the flags. -/
theorem Cpu.sum_stack_flags {other : Bool} (short : width ≤ 64) (some_ : 0 < width)
    (flagged : S word = true)
    (source : Rn word = 31) :
    ¬ ∀ cpu : Cpu, cpu.sum word other false destSp operand =
    cpu.sum word subtracts true destSp operand := by
  intro same
  obtain ⟨x, reaches⟩ : ∃ x, (Arm.sum subtracts x operand).1 = 0 := sum_reaches 0
  have zeros (value : BitVec width) : decide ((Arm.sum other 0 operand).1 = 0) =
      decide ((Arm.sum subtracts value operand).1 = 0) := by
    have flag := congrArg (fun cpu : Cpu => cpu.flags.z) (same (.pair (value.setWidth 64) 0))
    have back : (value.setWidth 64).setWidth width = value :=
      (BitVec.setWidth_setWidth_of_le _ short).trans (BitVec.setWidth_eq _)
    have zero : (0 : U64).setWidth width = 0 := BitVec.setWidth_zero ..
    simpa only [Cpu.sum_flags flagged, source, Cpu.read_zero, Cpu.read_pair_sp, sum_zero, back, zero]
      using flag
  have apart : (Arm.sum subtracts (x + 1) operand).1 ≠ 0 := by
    intro again
    have next : x + 1 = x := sum_injective (again.trans reaches.symm)
    exact one_ne_nothing some_ (by simpa using next)
  have both := (zeros (x + 1)).symm.trans (zeros x)
  rw [decide_eq_decide, reaches] at both
  exact apart (both.mpr rfl)

/-- SP as a source shows in the destination. -/
theorem Cpu.sum_stack_dest {other : Bool} (short : width ≤ 64) (some_ : 0 < width)
    (named : Rd word ≠ 31) (source : Rn word = 31) :
    ¬ ∀ cpu : Cpu, cpu.sum word other false false operand =
    cpu.sum word subtracts true destSp operand := by
  intro same
  have results (value : BitVec width) :
      (Arm.sum other 0 operand).1 = (Arm.sum subtracts value operand).1 := by
    have dest := congrArg (fun cpu : Cpu => cpu.registers (Rd word)) (same (.pair (value.setWidth 64) 0))
    have back : (value.setWidth 64).setWidth width = value :=
      (BitVec.setWidth_setWidth_of_le _ short).trans (BitVec.setWidth_eq _)
    have zero : (0 : U64).setWidth width = 0 := BitVec.setWidth_zero ..
    simp only [Cpu.sum_dest (Or.inl named), source, Cpu.read_zero, Cpu.read_pair_sp, back, zero] at dest
    exact (setWidth_inj short).mp dest
  exact one_ne_nothing some_ (sum_injective ((results 1).symm.trans (results 0)))

/-- A destination SP is changed, but by a move to itself. -/
theorem Cpu.sum_stack_kept_iff (size : width = 32 ∨ width = 64) (plain : S word = false)
    (dest : Rd word = 31) :
    (∀ cpu : Cpu, cpu = cpu.sum word subtracts true true operand) ↔
      Rn word = 31 ∧ width = 64 ∧ operand = 0 := by
  have short : width ≤ 64 := by omega
  constructor
  · intro same
    have kept (cpu : Cpu) : cpu.registers 31 =
        (Arm.sum subtracts ((cpu.read true (Rn word)).setWidth width) operand).1.setWidth 64 := by
      have value := congrArg (fun cpu : Cpu => cpu.registers (Rd word)) (same cpu)
      rw [Cpu.sum_dest (Or.inr rfl), dest] at value
      exact value
    have source : Rn word = 31 := by
      by_contra named
      have one := kept (.pair 1 0)
      have zero := kept (.pair 0 0)
      rw [Cpu.read_pair_named named] at one zero
      exact absurd (one.trans zero.symm) (by decide)
    have sp (value : U64) : value = (Arm.sum subtracts (value.setWidth width) operand).1.setWidth 64 := by
      have read := kept (.pair value 0)
      rw [source, Cpu.read_pair_sp] at read
      exact read
    have zero : (Arm.sum subtracts (0 : BitVec width) operand).1 = 0 := by
      have start := sp 0
      have nothing : (0 : U64).setWidth width = 0 := BitVec.setWidth_zero ..
      have wide : (0 : BitVec width).setWidth 64 = 0 := BitVec.setWidth_zero ..
      rw [nothing] at start
      exact (setWidth_inj short).mp (start.symm.trans wide.symm)
    have none : operand = 0 := by
      rw [sum_result] at zero
      split at zero <;> simpa using zero
    refine ⟨source, ?_, none⟩
    rcases size with narrow | wide
    · subst narrow
      have upper := sp 0x100000000
      have cut : (0x100000000 : U64).setWidth 32 = 0 := by decide
      rw [cut, zero] at upper
      exact absurd upper (by decide)
    · exact wide
  · intro all cpu
    obtain ⟨source, rfl, rfl⟩ := all
    have moved : (Arm.sum subtracts ((cpu.read true (Rn word)).setWidth 64) 0).1.setWidth 64 =
        cpu.registers 31 := by
      rw [sum_result, source, Cpu.read_sp]
      split <;> simp
    rw [Cpu.sum, plain, moved, dest]
    exact (Cpu.write_same rfl true).symm

/-- Sources other than SP: the destination and the operation decide. -/
theorem addSubImmediate_named_iff (source : Rn word ≠ 31) :
    (∀ cpu : Cpu, cpu.sum word subtracts true false (immediateOperand word (datasize word)) =
        cpu.sum word (op word) true (!S word) (immediateOperand word (datasize word))) ↔
      (S word = true ∨ Rd word ≠ 31) ∧ (subtracts = op word ∨ (S word = false ∧ imm12 word = 0)) := by
  have size : datasize word = 32 ∨ datasize word = 64 := (datasize_cases word).symm
  have short : datasize word ≤ 64 := by omega
  have double := @immediateOperand_double_iff word (datasize word) (by omega)
  have inhabited : Nonempty Cpu := ⟨.filled 0⟩
  cases flagged : S word with
  | true =>
      simp only [Bool.not_true, true_or, true_and, Bool.true_eq_false, false_and, or_false]
      rcases Bool.eq_or_eq_not subtracts (op word) with same | other
      · exact iff_of_true (fun cpu => by rw [same]) same
      · subst other
        refine iff_of_false (Cpu.sum_swapped_flags short flagged source fun nothing => ?_) (by simp)
        exact immediateOperand_zero (double.mp nothing)
  | false =>
      simp only [Bool.not_false, Bool.false_eq_true, false_or, true_and]
      by_cases dest : Rd word = 31
      · simp only [Cpu.sum_nowhere flagged dest]
        rw [Cpu.sum_stack_kept_iff size flagged dest]
        exact iff_of_false (fun all => source all.1) (fun both => both.1 dest)
      · simp only [ne_eq, dest, not_false_eq_true, true_and]
        have opened (cpu : Cpu) :
            cpu.sum word subtracts true false (immediateOperand word (datasize word)) =
              cpu.sum word subtracts true true (immediateOperand word (datasize word)) :=
              Cpu.sum_open dest
        simp only [opened]
        rcases Bool.eq_or_eq_not subtracts (op word) with same | other
        · exact iff_of_true (fun cpu => by rw [same]) (Or.inl same)
        · subst other
          rw [Cpu.sum_swapped_iff short flagged dest, forall_const, double]
          simp

/-- Add/subtract (immediate), with any operation and number 31 for the zero register. -/
theorem addSubImmediate_sum_iff :
    (∀ cpu : Cpu, cpu.sum word subtracts false false (immediateOperand word (datasize word)) =
        addSubImmediate cpu word) ↔
      (S word = false ∧ Rn word = 31 ∧ Rd word = 31 ∧ sf word = true ∧ imm12 word = 0) ∨
      (Rn word ≠ 31 ∧ (S word = true ∨ Rd word ≠ 31) ∧
        (subtracts = op word ∨ (S word = false ∧ imm12 word = 0))) := by
  have size : datasize word = 32 ∨ datasize word = 64 := (datasize_cases word).symm
  have short : datasize word ≤ 64 := by omega
  simp only [addSubImmediate, Cpu.addSub_eq_sum]
  by_cases source : Rn word = 31
  · have unnamed : ¬ (Rn word ≠ 31 ∧ (S word = true ∨ Rd word ≠ 31) ∧
        (subtracts = op word ∨ (S word = false ∧ imm12 word = 0))) := fun all => all.1 source
    rw [or_iff_left unnamed]
    cases flagged : S word with
    | true => exact iff_of_false (Cpu.sum_stack_flags short (by omega) flagged source) (by simp)
    | false =>
        by_cases dest : Rd word = 31
        · have wide : datasize word = 64 ↔ sf word = true := by
            cases full : sf word with
            | true => exact iff_of_true (datasize_wide full) rfl
            | false => exact iff_of_false (by rw [datasize_narrow full]; decide) Bool.false_ne_true
          have zero : immediateOperand word (datasize word) = 0 ↔ imm12 word = 0 := by
            refine ⟨fun nothing => ?_, immediateOperand_zero⟩
            refine (immediateOperand_double_iff (show 32 ≤ datasize word by omega)).mp ?_
            rw [nothing]
            exact BitVec.add_zero 0
          simp only [Cpu.sum_nowhere flagged dest, Bool.not_false]
          rw [Cpu.sum_stack_kept_iff size flagged dest, wide, zero]
          simp only [source, dest, true_and]
        · exact iff_of_false (Cpu.sum_stack_dest short (by omega) dest source) (fun all => dest all.2.2.1)
  · have named : ¬ (S word = false ∧ Rn word = 31 ∧ Rd word = 31 ∧ sf word = true ∧ imm12 word = 0) :=
      fun all => source all.2.1
    have fromSp (cpu : Cpu) :
        cpu.sum word subtracts false false (immediateOperand word (datasize word)) =
          cpu.sum word subtracts true false (immediateOperand word (datasize word)) :=
          Cpu.sum_source source
    simp only [fromSp]
    rw [or_iff_right named, addSubImmediate_named_iff source]
    simp only [ne_eq, source, not_false_eq_true, true_and]

end Stack

end Koshka.Arm
