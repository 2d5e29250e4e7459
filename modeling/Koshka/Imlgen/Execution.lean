import Koshka.Arm.Sums
import Koshka.Data.Linked
import Koshka.Imlgen.Classes
import Koshka.Imlgen.Meaning

namespace Koshka.Iml

open Data Arm

/-! What a consumer of the IML would run on a CPU.

The repository has none yet.  This one follows the handles of an instruction, computes its
expression, and takes the flags from the operation at the root.  Since the decoders exchange sums
and differences, it can also be told to read each for the other.
-/

/-- Sums and differences as they are named, or each for the other. -/
inductive Reading where
  | named
  | exchanged
deriving Repr, DecidableEq

def Reading.read : Reading → MathOp → MathOp
  | .exchanged, .add => .sub
  | .exchanged, .sub => .add
  | _, op => op

def MathOp.flags {width : Nat} (op : MathOp) (left right result : BitVec width) : Flags :=
  match op with
  | .add => (addWithCarry left right false).2
  | .sub => (addWithCarry left (~~~right) true).2
  | _ => { n := result.msb, z := result = 0, c := false, v := false }

/-- An operation writes its destination, where number 31 is the zero register, and sets the flags
if it is told to.  There is nothing else that could be executed. -/
def InstrMath.execute (reading : Reading) (width : Nat) (math : InstrMath) (cpu : Cpu) :
    Resolved → Option Cpu
  | .operation op _ _ left right => do
      let left ← left.eval width cpu
      let right ← right.eval width cpu
      let result ← (reading.read op).eval left right
      let flagged :=
        if math.setFlags then { cpu with flags := (reading.read op).flags left right result } else cpu
      return flagged.write false (math.destRegister.setWidth 5) (result.setWidth 64)
  | _ => none

/-- No decoder builds a deeper expression. -/
def maxDepth : Nat := 4

def Instruction.execute (reading : Reading) (pool : ImlPool) (instr : Instruction) (cpu : Cpu) :
    Option Cpu :=
  match instr.payload with
  | .math math => do
      let resolved ← math.expr.resolve pool maxDepth
      math.execute reading (if instr.is64bit then 64 else 32) cpu resolved
  | .branch _ => none

/-- The instruction at a handle, with its link. -/
def fetchInstruction (pool : ImlPool) (handle : PoolHandle) : Option (Instruction × PoolHandle) :=
  (instructionAt pool handle).map fun instr => (instr, instr.next)

/-- Run `count` instructions of the program, from the one at the handle on. -/
def runProgram (reading : Reading) (pool : ImlPool) (count : Nat) (handle : PoolHandle) (cpu : Cpu) :
    Option Cpu :=
  runLinked (fetchInstruction pool) (Instruction.execute reading pool) count handle cpu

/-- The instruction does, on every CPU, what the word does. -/
def Kept (reading : Reading) (pool : ImlPool) (instr : Instruction) (word : U32) : Prop :=
  ∀ cpu, instr.execute reading pool cpu = some (execute word cpu)

/-- Whether what is read from the word is a subtraction. -/
def Reading.subtracts (reading : Reading) (word : U32) : Bool :=
  match reading with
  | .named => !op word
  | .exchanged => op word

section Following

variable {pool : ImlPool} {expr : Expression} {resolved : Resolved} {instr : Instruction} {word : U32}

theorem Instruction.Resolves.math_tree {form : ResolvedInstruction} (resolves : instr.Resolves pool form)
    (formula : form.expr = some resolved) :
    ∃ math, instr.payload = .math math ∧ math.expr.Resolves pool resolved := by
  cases resolves with
  | math payload tree =>
      cases formula
      exact ⟨_, payload, tree⟩
  | branch payload => cases formula

/-- What is run of a decoded word follows from the word's form alone. -/
theorem Instruction.Resolves.execute {op : MathOp} {setFlags touchedFlags : Bool} {second : Resolved}
    (resolves : instr.Resolves pool (.ofMath word op setFlags touchedFlags second))
    (shallow : second.depth ≤ 3) (reading : Reading) (cpu : Cpu) :
    ∃ expr, instr.execute reading pool cpu =
      InstrMath.execute reading (datasize word) { destRegister := (Rd word).setWidth 8, setFlags, expr }
        cpu (.operation op false false (.value (sourceOperand (Rn word))) second) := by
  obtain ⟨wide, ⟨_, expr, payload⟩, _⟩ := resolves.ofMath_record
  obtain ⟨math, again, tree⟩ := resolves.math_tree rfl
  cases payload.symm.trans again
  have followed := tree.resolve (show max 1 second.depth + 1 ≤ maxDepth by rw [maxDepth]; omega)
  refine ⟨expr, ?_⟩
  rw [Instruction.execute, payload, wide]
  simp only [followed, Option.bind_eq_bind, Option.bind_some]
  rfl

theorem InstrMath.execute_operation {reading : Reading} {width : Nat} {math : InstrMath} {cpu : Cpu}
    {op : MathOp} {left right : Resolved} {x y : BitVec width} {flags : Flags} {result : BitVec width}
    (leftValue : left.eval width cpu = some x) (rightValue : right.eval width cpu = some y)
    (value : (reading.read op).eval x y = some result)
    (flagged : (reading.read op).flags x y result = flags) :
    math.execute reading width cpu (.operation op false false left right) =
      some ((if math.setFlags then { cpu with flags } else cpu).write false
        (math.destRegister.setWidth 5) (result.setWidth 64)) := by
  simp only [InstrMath.execute, leftValue, rightValue, value, flagged, Option.bind_eq_bind,
    Option.bind_some, Option.pure_def]

theorem Reading.read_sum (reading : Reading) (word : U32) {width : Nat} (x y : BitVec width) :
    (reading.read (if op word then .add else .sub)).eval x y = some (sum (reading.subtracts word) x y).1 ∧
      ∀ result, (reading.read (if op word then .add else .sub)).flags x y result =
        (sum (reading.subtracts word) x y).2 := by
  rw [sum_result]
  unfold Reading.subtracts
  cases reading <;> cases op word <;> exact ⟨rfl, fun _ => rfl⟩

theorem Reading.read_bitwise (reading : Reading) (index : BitVec 2) :
    reading.read (bitwiseOpTable index) = bitwiseOpTable index := by
  cases reading <;> revert index <;> decide

theorem bitwiseOpTable_flags {width : Nat} (index : BitVec 2) (x y result : BitVec width) :
    (bitwiseOpTable index).flags x y result =
    { n := result.msb, z := result = 0, c := false, v := false } := by
  unfold bitwiseOpTable
  split <;> rfl

theorem source_eval {width : Nat} {cpu : Cpu} (register : BitVec 5) :
    (Resolved.value (sourceOperand register)).eval width cpu =
      some ((cpu.read false register).setWidth width) := sourceOperand_eval register

theorem registerByte_back (register : BitVec 5) : (register.setWidth 8).setWidth 5 = register := by
  rw [BitVec.setWidth_setWidth_of_le _ (by decide), BitVec.setWidth_eq]

/-- Sums and differences are run with number 31 for the zero register. -/
theorem Instruction.Resolves.execute_sum {touchedFlags : Bool} {second : Resolved} {cpu : Cpu}
    {operand : BitVec (datasize word)} (reading : Reading)
    (resolves : instr.Resolves pool
      (.ofMath word (if op word then .add else .sub) (S word) touchedFlags second))
    (shallow : second.depth ≤ 3) (value : second.eval (datasize word) cpu = some operand) :
    instr.execute reading pool cpu =
      some (cpu.sum word (reading.subtracts word) false false operand) := by
  obtain ⟨expr, run⟩ := resolves.execute shallow reading cpu
  obtain ⟨result, flags⟩ :=
    reading.read_sum word ((cpu.read false (Rn word)).setWidth (datasize word)) operand
  rw [run, InstrMath.execute_operation (source_eval _) value result (flags _), registerByte_back]
  rfl

theorem Instruction.Resolves.execute_logical {touchedFlags : Bool} {second : Resolved} {cpu : Cpu}
    {operand : BitVec (datasize word)} (reading : Reading)
    (resolves : instr.Resolves pool
      (.ofMath word (bitwiseOpTable (opc word)) (opc word = 3) touchedFlags second))
    (shallow : second.depth ≤ 3) (value : second.eval (datasize word) cpu = some operand) :
    instr.execute reading pool cpu = some (cpu.logical word false operand) := by
  obtain ⟨expr, run⟩ := resolves.execute shallow reading cpu
  have read := reading.read_bitwise (opc word)
  rw [run, InstrMath.execute_operation (source_eval _) value
    (by rw [read]; exact bitwiseOpTable_eval _ _ _) rfl, read, bitwiseOpTable_flags, registerByte_back]
  simp only [decide_eq_true_eq, Cpu.logical]

end Following

/-- The words of which every effect is kept. -/
def Reading.Right (reading : Reading) (word : U32) : Prop :=
  (dataClass word = some .addSubImmediate ∧
    ((S word = false ∧ Rn word = 31 ∧ Rd word = 31 ∧ sf word = true ∧ imm12 word = 0) ∨
      (Rn word ≠ 31 ∧ (S word = true ∨ Rd word ≠ 31) ∧
        (reading = .exchanged ∨ (S word = false ∧ imm12 word = 0))))) ∨
  (dataClass word = some .logicalImmediate ∧ (opc word = 3 ∨ Rd word ≠ 31) ∧
    (sf word = false ∨ (Rn word = 31 ∧ (opc word = 0 ∨ opc word = 3)) ∨
      (immN word = true ∧
        ((immr word = 0 ∧ (imms word).toNat < 32) ∨ (imms word).toNat + 33 ≤ (immr word).toNat)))) ∨
  dataClass word = some .logicalShifted ∨
  (dataClass word = some .addSubShifted ∧ (reading = .exchanged ∨
    (S word = false ∧ (Rd word = 31 ∨ Rm word = 31 ∨
      (shift word = 0 ∧ (imm6 word).toNat = datasize word - 1)))))

instance (reading : Reading) (word : U32) : Decidable (reading.Right word) :=
  inferInstanceAs (Decidable (_ ∨ _))

section Words

variable {word : U32} {reading : Reading} {kind : DataClass}

theorem accepted_of_form {form : ResolvedInstruction} (found : resolvedForm word = some form) :
    Accepted word := by
  obtain ⟨planned, planning, _⟩ := Option.bind_eq_some_iff.mp found
  exact accepted_iff.mpr ⟨planned, planning⟩

theorem shiftedOperand_depth (word : U32) : (shiftedOperand word).depth ≤ 2 := by
  unfold shiftedOperand
  split <;> simp [Resolved.depth]

theorem addsubImmOperand_depth (word : U32) : (addsubImmOperand word).depth ≤ 3 := by
  unfold addsubImmOperand
  split <;> simp [Resolved.depth]

theorem logicalShiftOperand_depth (word : U32) : (logicalShiftOperand word).depth ≤ 3 := by
  have inner := shiftedOperand_depth word
  unfold logicalShiftOperand
  split
  · exact Nat.succ_le_succ inner
  · omega

section Kept

variable {pool : ImlPool} {instr : Instruction}

theorem kept_iff {effect : Cpu → Cpu} (runs : ∀ cpu, instr.execute reading pool cpu = some (effect cpu)) :
    Kept reading pool instr word ↔ ∀ cpu, effect cpu = execute word cpu :=
  forall_congr' fun cpu => by rw [runs, Option.some_inj]

theorem kept_addSubImmediate (found : dataClass word = some .addSubImmediate)
    (resolves : instr.Resolves pool (classForm .addSubImmediate word)) :
    Kept reading pool instr word ↔ ∀ cpu : Cpu,
      cpu.sum word (reading.subtracts word) false false (immediateOperand word (datasize word)) =
        addSubImmediate cpu word := by
  have size := datasize_bounds word
  have value (cpu : Cpu) : (addsubImmOperand word).eval (datasize word) cpu =
      some (immediateOperand word (datasize word)) := addsubImmOperand_eval (by omega) size.2
  rw [kept_iff fun cpu => resolves.execute_sum reading (addsubImmOperand_depth word) (value cpu)]
  simp only [execute_class found]

theorem kept_addSubShifted (found : dataClass word = some .addSubShifted)
    (resolves : instr.Resolves pool (classForm .addSubShifted word)) :
    Kept reading pool instr word ↔ ∀ cpu : Cpu,
      cpu.sum word (reading.subtracts word) false false (shiftedSource cpu word (datasize word)) =
        addSubShifted cpu word := by
  have size := datasize_bounds word
  have shallow := shiftedOperand_depth word
  have value (cpu : Cpu) : (shiftedOperand word).eval (datasize word) cpu =
      some (shiftedSource cpu word (datasize word)) := shiftedOperand_eval (by omega) size.2
  rw [kept_iff fun cpu => resolves.execute_sum reading (by omega) (value cpu)]
  simp only [execute_class found]

theorem kept_logicalImmediate (found : dataClass word = some .logicalImmediate)
    (resolves : instr.Resolves pool (classForm .logicalImmediate word)) :
    Kept reading pool instr word ↔ ∀ cpu : Cpu,
      cpu.logical word false ((lowMask word).setWidth (datasize word)) = logicalImmediate cpu word := by
  have size := datasize_bounds word
  have value (cpu : Cpu) : (logicalImmOperand word).eval (datasize word) cpu =
      some ((lowMask word).setWidth (datasize word)) := constant_eval _ size.2
  rw [kept_iff fun cpu => resolves.execute_logical reading (show 1 ≤ 3 by decide) (value cpu)]
  simp only [execute_class found]

theorem kept_logicalShifted (found : dataClass word = some .logicalShifted)
    (resolves : instr.Resolves pool (classForm .logicalShifted word)) :
    Kept reading pool instr word := by
  have size := datasize_bounds word
  have value (cpu : Cpu) : (logicalShiftOperand word).eval (datasize word) cpu =
      some (invertedSource cpu word (datasize word)) := logicalShiftOperand_eval (by omega) size.2
  rw [kept_iff fun cpu => resolves.execute_logical reading (logicalShiftOperand_depth word) (value cpu)]
  intro cpu
  rw [execute_class found]
  rfl

end Kept

/-- SP is no destination of a logical instruction, and a 64-bit mask loses its upper half. -/
theorem logicalImmediate_run_iff :
    (∀ cpu : Cpu, cpu.logical word false ((lowMask word).setWidth (datasize word)) =
        logicalImmediate cpu word) ↔
      (opc word = 3 ∨ Rd word ≠ 31) ∧ (sf word = false ∨ (Rn word = 31 ∧ (opc word = 0 ∨ opc word = 3)) ∨
        ((mask (immN word) (imms word) (immr word)).setWidth 32).setWidth 64 =
          mask (immN word) (imms word) (immr word)) := by
  by_cases dest : opc word = 3 ∨ Rd word ≠ 31
  · have opened (cpu : Cpu) (operand : BitVec (datasize word)) :
        cpu.logical word false operand = cpu.logical word (opc word ≠ 3) operand := by
      rcases dest with flagged | named
      · simp only [flagged, ne_eq, not_true_eq_false, decide_false]
      · simp only [Cpu.logical, Cpu.write, named, false_and]
    simp only [dest, true_and, opened, logicalImmediate]
    cases wide : sf word with
    | false =>
        rw [datasize_narrow wide, lowMask, BitVec.setWidth_eq]
        simp only [true_or, implies_true]
    | true =>
        rw [datasize_wide wide]
        simp only [BitVec.setWidth_eq, Bool.true_eq_false, false_or]
        by_cases same : (lowMask word).setWidth 64 = mask (immN word) (imms word) (immr word)
        · exact iff_of_true (fun cpu => by rw [same]) (Or.inr same)
        · exact (logical_same_iff same).trans (or_iff_left same).symm
  · obtain ⟨plain, unnamed⟩ := not_or.mp dest
    have nowhere : Rd word = 31 := not_not.mp unnamed
    refine iff_of_false (fun same => ?_) (fun both => dest both.1)
    -- the source does not see SP, which the instruction overwrites
    have kept (sp : U64) : sp =
      (bitwise (opc word) (((Cpu.pair 0 0).read false (Rn word)).setWidth (datasize word))
        ((mask (immN word) (imms word) (immr word)).setWidth (datasize word))).setWidth 64 := by
      have value := congrArg (fun cpu : Cpu => cpu.registers (Rd word)) (same (.pair sp 0))
      have unseen : (Cpu.pair sp 0).read false (Rn word) = (Cpu.pair 0 0).read false (Rn word) := by
        unfold Cpu.read Cpu.pair
        split <;> simp_all
      have open_ : decide (opc word ≠ 3) = true := decide_eq_true plain
      rw [logicalImmediate, Cpu.logical, Cpu.logical, Cpu.write_named (Or.inr open_), unseen, nowhere,
        Cpu.write_zero, if_neg plain] at value
      exact value
    exact absurd ((kept 0).trans (kept 1).symm) (by decide)

/-- Wherever the word's form is stored, the word's own fields decide whether its effect is kept. -/
theorem kept_iff_right {pool : ImlPool} {instr : Instruction} {form : ResolvedInstruction}
    (allocated : Allocated word) (shape : resolvedForm word = some form)
    (resolves : instr.Resolves pool form) : Kept reading pool instr word ↔ reading.Right word := by
  have cases_ := allocated
  unfold Allocated at cases_
  rcases cases_ with ⟨found, _⟩ | ⟨found, _⟩ | ⟨found, _⟩ | ⟨found, _, accepted⟩ <;>
    cases shape.symm.trans (allocated_form allocated found)
  · rw [kept_addSubImmediate found resolves, addSubImmediate_sum_iff]
    have sum : reading.subtracts word = op word ↔ reading = .exchanged := by
      cases reading <;> simp [Reading.subtracts]
    simp only [Reading.Right, found, sum, true_and, Option.some.injEq, reduceCtorEq, false_and, or_false]
  · rw [kept_logicalImmediate found resolves, logicalImmediate_run_iff, mask_lowHalf_iff]
    simp only [Reading.Right, found, true_and, Option.some.injEq, reduceCtorEq, false_and, or_false,
      false_or]
  · refine iff_of_true (kept_logicalShifted found resolves) ?_
    exact Or.inr (Or.inr (Or.inl found))
  · rw [kept_addSubShifted found resolves]
    cases reading with
    | named =>
        rw [show Reading.named.subtracts word = !op word from rfl,
          addSubShifted_swapped_iff (shiftAmount_inside accepted)]
        simp only [Reading.Right, found, true_and, Option.some.injEq, reduceCtorEq, false_and, false_or]
    | exchanged =>
        refine iff_of_true (fun cpu => Cpu.addSub_eq_sum.symm) ?_
        simp only [Reading.Right, found, true_and, true_or, or_true]

theorem Instruction.execute_follows {pool : ImlPool} {instr : Instruction} {cpu after : Cpu}
    (run : instr.execute reading pool cpu = some after) :
    ∃ math resolved, instr.payload = .math math ∧ math.expr.resolve pool maxDepth = some resolved := by
  unfold Instruction.execute at run
  split at run
  · rename_i math payload
    obtain ⟨resolved, followed, _⟩ := Option.bind_eq_some_iff.mp run
    exact ⟨math, resolved, payload, followed⟩
  · cases run

/-- A word's instruction keeps the effect exactly if the word is none of those that lose SP, half a
mask, or their operation, and none of the operands that are read was lost. -/
theorem Plan.kept_iff {env : Environment} {machine : Machine} {arena final : Arena} {planned : Plan}
    (models : machine.Models final) (keeps : Keeps (planned.lay env arena).2.objects final.objects)
    (allocated : Allocated word) (fromWord : plan word = some planned) (next : PoolHandle) :
    Kept reading machine.program.imlPool { (planned.lay env arena).1 with next } word ↔
      reading.Right word ∧ planned.tree.supplied env arena = true := by
  obtain ⟨_, kind, again, _, form⟩ := allocated_plan allocated
  cases fromWord.symm.trans again
  have shape : resolvedForm word = some (classForm kind word) :=
    Option.bind_eq_some_iff.mpr ⟨planned, fromWord, form⟩
  cases supplied : planned.tree.supplied env arena with
  | true =>
      rw [kept_iff_right allocated shape (Plan.supplied_resolves models keeps form supplied next)]
      exact (and_iff_left rfl).symm
  | false =>
      refine iff_of_false (fun kept => ?_) fun both => Bool.false_ne_true both.2
      obtain ⟨math, resolved, stored, followed⟩ := Instruction.execute_follows (kept (.filled 0))
      rw [Plan.lay_expr stored] at followed
      exact Bool.false_ne_true (supplied.symm.trans (Tree.supplied_of_resolve models keeps followed))

/-- A consumer of what was decoded, into whatever pool, does what the word does exactly if the word is
right and the pushes of its operands were served. -/
theorem decode_keeps_iff (env : Environment) (reading : Reading) (word : U32) (before : Machine)
    (arena : Arena) (models : before.Models arena) (allocated : Allocated word) :
    ∃ planned, plan word = some planned ∧
      ((∀ count, env.calloc count = true) → planned.tree.supplied env arena = true ∧
        (arena.Fits planned.tree.requests →
          ∃ result after, Returns (decode env word) before result after)) ∧
      ∀ result after, Returns (decode env word) before result after →
        (Kept reading after.program.imlPool result.instr word ↔
          reading.Right word ∧ planned.tree.supplied env arena = true) := by
  obtain ⟨planned, _, planning, _⟩ := allocated_plan allocated
  refine ⟨planned, planning, fun memory => ?_, fun result after run => ?_⟩
  · exact ⟨planned.tree.supplied_of_memory memory, decode_fits memory models planning⟩
  obtain ⟨_, again, building⟩ := decode_returns.mp run
  cases planning.symm.trans again
  obtain ⟨built, models, _⟩ := Plan.build_models models building
  rw [built]
  exact Plan.kept_iff models (.of_extends (List.prefix_refl _)) allocated planning _

/-- `add x0, x1, #1` is kept by the exchange, but not in a pool of 48 bytes that cannot grow. -/
theorem decode_keeps_iff_add :
    (∃ result after, Returns (decode .calm 0x91000420) (.initial .calm [] 0) result after ∧
      Kept .exchanged after.program.imlPool result.instr 0x91000420 ∧
      ¬ Kept .named after.program.imlPool result.instr 0x91000420) ∧
    ∃ result after, Returns (decode { calloc := (· < 3), stale := fun _ => false } 0x91000420)
        (.initial { calloc := (· < 3), stale := fun _ => false } [0x20, 4, 0, 0x91] 4) result after ∧
      ¬ Kept .exchanged after.program.imlPool result.instr 0x91000420 := by
  constructor
  · obtain ⟨result, after, run⟩ : ∃ result after,
        Returns (decode .calm 0x91000420) (.initial .calm [] 0) result after := ⟨_, _, rfl⟩
    have kept (reading : Reading) := decode_keeps_iff .calm reading 0x91000420 (.initial .calm [] 0)
      (.initial 0) calm_models (by decide)
    obtain ⟨_, planning, -, exchanged⟩ := kept .exchanged
    obtain ⟨_, again, -, named⟩ := kept .named
    cases planning
    cases again
    exact ⟨result, after, run, (exchanged result after run).mpr (by decide),
      mt (named result after run).mp (by decide)⟩
  · obtain ⟨result, after, run⟩ : ∃ result after,
        Returns (decode { calloc := (· < 3), stale := fun _ => false } 0x91000420)
          (.initial { calloc := (· < 3), stale := fun _ => false } [0x20, 4, 0, 0x91] 4) result after :=
      ⟨_, _, rfl⟩
    obtain ⟨_, planning, -, kept⟩ := decode_keeps_iff { calloc := (· < 3), stale := fun _ => false }
      .exchanged 0x91000420 (.initial { calloc := (· < 3), stale := fun _ => false } [0x20, 4, 0, 0x91] 4)
      (.initial 4) (Machine.initial_models rfl) (by decide)
    cases planning
    exact ⟨result, after, run, mt (kept result after run).mp (by decide)⟩

end Words

end Koshka.Iml
