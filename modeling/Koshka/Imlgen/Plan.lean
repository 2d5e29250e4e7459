import Koshka.Imlgen.Dispatch

namespace Koshka.Iml

open Data Arm

/-! What a decoder builds, apart from where it puts it.

The plan of a word is an instruction record and the expression tree that belongs into
it.  Decoding a word is making its plan and building the plan's tree, bottom up, with
the expression constructors.
-/

inductive Tree where
  | value (operand : Operand)
  | blank
  | node (op : MathOp) (left right : Tree)
deriving Repr, DecidableEq

def Tree.build (env : Environment) : Tree → Run Expression
  | .value operand => pure { isValue := true, payload := .value operand }
  | .blank => pure .blank
  | .node op left right => do
      let left ← left.build env
      let right ← right.build env
      operatorExpression env left op right false

structure Plan where
  tree : Tree
  instr : Instruction
deriving Repr, DecidableEq

/-- Only data-processing instructions have room for an expression. -/
def Instruction.withExpr (instr : Instruction) (expr : Expression) : Instruction :=
  match instr.payload with
  | .math math => { instr with payload := .math { math with expr } }
  | .branch _ => instr

def Plan.build (env : Environment) (plan : Plan) : Run DecodeResult := do
  let expr ← plan.tree.build env
  return { instr := plan.instr.withExpr expr }

/-- A register field read as a source: number 31 is the constant 0. -/
def sourceOperand (register : BitVec 5) : Operand :=
  if register = 31 then { type := .immediate, payload := .imm 0 }
  else { type := .register, payload := .reg (register.setWidth 8) }

def Tree.source (register : BitVec 5) : Tree := .value (sourceOperand register)

def Tree.constant (value : U64) : Tree := .value { type := .immediate, payload := .imm value }

section Plans

variable (word : U32)

def planAddsubImm : Plan where
  tree := .node (if op word then .add else .sub) (.source (Rn word))
    (if shift word = 1 then .node .lsl (.constant ((imm12 word).setWidth 64)) (.constant 12)
    else .constant ((imm12 word).setWidth 64))
  instr := .ofMath ((Rd word).setWidth 8) (S word) .blank (sf word) false

def lowMask : U32 := (mask (immN word) (imms word) (immr word)).setWidth 32

def planLogicalImm : Plan where
  tree := .node (bitwiseOpTable (opc word)) (.source (Rn word)) (.constant ((lowMask word).setWidth 64))
  instr := .ofMath ((Rd word).setWidth 8) (opc word = 3) .blank (sf word) (opc word = 3)

def Tree.shifted : Tree :=
  if 0 < imm6 word then
    .node (shiftTypeTable (shift word)) (.source (Rm word)) (.constant ((imm6 word).setWidth 64))
  else .source (Rm word)

def planLogicalShift : Plan where
  tree := .node (bitwiseOpTable (opc word)) (.source (Rn word))
    (if N word then .node .neg (.shifted word) .blank else .shifted word)
  instr := .ofMath ((Rd word).setWidth 8) (opc word = 3) .blank (sf word) (opc word = 3)

def planAddsubShift : Plan where
  tree := .node (if op word then .add else .sub) (.source (Rn word)) (.shifted word)
  instr := .ofMath ((Rd word).setWidth 8) (S word) .blank (sf word) (S word)

def planBranch (page : L2BranchPage) : Plan where
  tree := .blank
  instr := (decodeBranchUnconditional word page).instr

def Plan.blank : Plan where
  tree := .blank
  instr := .blank

/-- What the logical immediate decoder's asserts let through. -/
def LogicalImmAccepted : Prop :=
  (sf word = false → immN word = false) ∧ ¬ MaskReserved (immN word) (imms word)

/-- What the asserts of the shifted register decoders let through. -/
def ShiftAccepted : Prop := sf word = false → (imm6 word).getLsbD 5 = false

instance : Decidable (LogicalImmAccepted word) := inferInstanceAs (Decidable (_ ∧ _))
instance : Decidable (ShiftAccepted word) := inferInstanceAs (Decidable (_ → _))

/-- The plan of a word, where no assert stops its decoding. -/
def plan : Option Plan :=
  if word = 0 then none
  else if AddSubImmediate word then some (planAddsubImm word)
  else if LogicalImmediate word then
    if LogicalImmAccepted word then some (planLogicalImm word) else none
  else if LogicalShifted word then
    if ShiftAccepted word then some (planLogicalShift word) else none
  else if AddSubShifted word then
    if ShiftAccepted word then some (planAddsubShift word) else none
  else if BranchImmediate word then some (planBranch word .unconditionalImm)
  else if BranchRegister word then some (planBranch word .unconditionalReg)
  else some .blank

/-- The plans, class by class. -/
inductive Planned : Plan → Prop
  | addsubImm (member : AddSubImmediate word) : Planned (planAddsubImm word)
  | logicalImm (member : LogicalImmediate word) (accepted : LogicalImmAccepted word) :
      Planned (planLogicalImm word)
  | logicalShift (member : LogicalShifted word) (accepted : ShiftAccepted word) :
      Planned (planLogicalShift word)
  | addsubShift (member : AddSubShifted word) (accepted : ShiftAccepted word) :
      Planned (planAddsubShift word)
  | branchImm (member : BranchImmediate word) : Planned (planBranch word .unconditionalImm)
  | branchReg (member : BranchRegister word) : Planned (planBranch word .unconditionalReg)
  | blank (data : ¬ DataProcessing word) (branch : ¬ UnconditionalBranch word) : Planned .blank

/-- The words for which `HighestBitSet` is asked for the highest bit of 0. -/
def Endless : Prop := LogicalImmediate word ∧ immN word = false ∧ imms word = 63

instance : Decidable (Endless word) := inferInstanceAs (Decidable (_ ∧ _))

/-- How the decoding of a word without a plan stops. -/
def planFault : Fault := if Endless word then .shiftOutOfRange else .assertFailed

end Plans

theorem plan_planned {word : U32} {planned : Plan} (found : plan word = some planned) :
    Planned word planned := by
  simp only [plan] at found
  repeat' split at found
  all_goals cases found
  · exact .addsubImm ‹_›
  · exact .logicalImm ‹_› ‹_›
  · exact .logicalShift ‹_› ‹_›
  · exact .addsubShift ‹_› ‹_›
  · exact .branchImm ‹_›
  · exact .branchReg ‹_›
  · exact .blank (by simp only [DataProcessing, not_or]; tauto) (by simp only [UnconditionalBranch, not_or]; tauto)

theorem plan_addsubImm {word : U32} (member : AddSubImmediate word) :
    plan word = some (planAddsubImm word) := by
  have nonzero : word ≠ 0 := by
    intro zero
    subst zero
    exact absurd member (by decide)
  rw [plan, if_neg nonzero, if_pos member]

theorem plan_unconditional {word : U32} (branch : UnconditionalBranch word) : plan word =
    if BranchImmediate word then some (planBranch word .unconditionalImm)
    else some (planBranch word .unconditionalReg) := by
  have data := branch.not_data
  simp only [DataProcessing, not_or] at data
  rw [plan, if_neg branch.nonzero, if_neg data.1, if_neg data.2.1, if_neg data.2.2.1, if_neg data.2.2.2]
  by_cases immediate : BranchImmediate word
  · rw [if_pos immediate, if_pos immediate]
  · rw [if_neg immediate, if_neg immediate, if_pos (branch.resolve_left immediate)]

section Decoders

variable {env : Environment} {word : U32} {before after : Machine} {result : DecodeResult}

theorem valueExpression_source (register : BitVec 5) :
    valueExpression .register ((register.setWidth 8).setWidth 64) false =
      { isValue := true, payload := .value (sourceOperand register) } := by
  revert register
  decide

theorem field_setWidth {low high : Nat} {width : Nat} (ordered : low ≤ high) (within : high < 32)
    (narrow : width ≤ 32) :
    (getBitRegion word low high).setWidth width =
      (word.extractLsb' low (high - low + 1)).setWidth width := by
  rw [getBitRegion_field word ordered within, BitVec.setWidth_setWidth_of_le _ narrow]

theorem RdField : (getBitRegion word 0 4).setWidth 8 = (Rd word).setWidth 8 :=
  field_setWidth (by omega) (by omega) (by omega)

theorem RnField : (getBitRegion word 5 9).setWidth 8 = (Rn word).setWidth 8 :=
  field_setWidth (by omega) (by omega) (by omega)

theorem RmField : (getBitRegion word 16 20).setWidth 8 = (Rm word).setWidth 8 :=
  field_setWidth (by omega) (by omega) (by omega)

theorem imm6Field : (getBitRegion word 10 15).setWidth 8 = (imm6 word).setWidth 8 :=
  field_setWidth (by omega) (by omega) (by omega)

theorem shiftField : (getBitRegion word 22 23).setWidth 8 = (shift word).setWidth 8 :=
  field_setWidth (by omega) (by omega) (by omega)

theorem imm12Field : (getBitRegion word 10 21).setWidth 64 = (imm12 word).setWidth 64 := by
  rw [getBitRegion_field word (by omega) (by omega), BitVec.setWidth_setWidth (by decide)]
  rfl

theorem shiftTypeField : (getBitRegion word 22 23).setWidth 2 = shift word :=
  Eq.trans (field_setWidth (by omega) (by omega) (by omega)) (BitVec.setWidth_eq _)

theorem opcField : (getBitRegion word 29 30).setWidth 2 = opc word :=
  Eq.trans (field_setWidth (by omega) (by omega) (by omega)) (BitVec.setWidth_eq _)

theorem sfBit : asBool (getSingleBit word 31) = sf word := asBool_bit word 31

theorem opBit_ne_zero : (getSingleBit word 30).setWidth 8 ≠ (0 : U8) ↔ op word = true := by
  rw [Ne, singleBit_eq_zero, Bool.not_eq_false]
  rfl

theorem shiftByte_eq_one : (shift word).setWidth 8 = (1 : U8) ↔ shift word = 1 := by
  generalize shift word = field
  revert field
  decide

theorem decodeAddsubImm_eq : decodeAddsubImm env word = (planAddsubImm word).build env := by
  simp only [decodeAddsubImm, RdField, RnField, shiftField, imm12Field, asBool_bit, opBit_ne_zero,
    shiftByte_eq_one, valueExpression_source, planAddsubImm, Plan.build]
  by_cases shifted : shift word = 1
  · simp only [shifted, if_true, Tree.build, Tree.source, Tree.constant, pure_bind, bind_assoc]
    rfl
  · simp only [shifted, if_false, Tree.build, Tree.source, Tree.constant, pure_bind]
    rfl

theorem immNByte_eq_zero : (getSingleBit word 22).setWidth 8 = (0 : U8) ↔ immN word = false :=
  singleBit_eq_zero 22

theorem immNByte_asBool : asBool ((getSingleBit word 22).setWidth 8 : U8) = immN word := by
  rw [getSingleBit_eq]
  change _ = word.getLsbD 22
  cases word.getLsbD 22 <;> decide

theorem opcByte_eq_three : (opc word).setWidth 8 = (3 : U8) ↔ opc word = 3 := by
  generalize opc word = field
  revert field
  decide

/-- The assert of a decoder on the 32-bit form of its class. -/
theorem narrow_assert {α : Type} {is64bit : Bool} {condition : Prop} [Decidable condition]
    {rest : Run α} :
    (if (!is64bit) = true then (do liftM (assert condition); rest) else rest) =
      if is64bit = false → condition then rest else throw .assertFailed := by
  cases is64bit with
  | true => simp
  | false =>
      by_cases holds : condition
      · rw [if_pos (by decide), assert_true holds, lift_ok_bind, if_pos fun _ => holds]
      · rw [if_pos (by decide), assert_false holds, lift_error_bind, if_neg fun always => holds (always rfl)]

/-- The logical immediate decoder is its checks, then the plan. -/
theorem decodeLogicalImm_eq : decodeLogicalImm env word =
    if LogicalImmAccepted word then (planLogicalImm word).build env
    else throw (if immN word = false ∧ imms word = 63 then Fault.shiftOutOfRange else .assertFailed) := by
  have immsField : (getBitRegion word 10 15).setWidth 8 = (imms word).setWidth 8 :=
    field_setWidth (by omega) (by omega) (by omega)
  have immrField : (getBitRegion word 16 21).setWidth 8 = (immr word).setWidth 8 :=
    field_setWidth (by omega) (by omega) (by omega)
  have opByte : (getBitRegion word 29 30).setWidth 8 = (opc word).setWidth 8 :=
    field_setWidth (by omega) (by omega) (by omega)
  have opBack : ((opc word).setWidth 8).setWidth 2 = opc word := by
    rw [BitVec.setWidth_setWidth_of_le _ (by decide), BitVec.setWidth_eq]
  simp only [decodeLogicalImm, RdField, RnField, immsField, immrField, opByte, opBack, sfBit,
    immNByte_eq_zero, immNByte_asBool, opcByte_eq_three, valueExpression_source, planLogicalImm,
    Plan.build, Tree.build, Tree.source, Tree.constant, pure_bind, LogicalImmAccepted, decodeBitMasks_run]
  rw [narrow_assert]
  by_cases narrow : sf word = false → immN word = false
  · by_cases reserved : MaskReserved (immN word) (imms word)
    · have refused : ¬ ((sf word = false → immN word = false) ∧ ¬ MaskReserved (immN word) (imms word)) :=
        fun both => both.2 reserved
      rw [if_pos narrow, if_pos reserved, lift_error_bind, if_neg refused]
    · rw [if_pos narrow, if_neg reserved, lift_ok_bind, if_pos ⟨narrow, reserved⟩]
      rfl
  · have wideMask : immN word ≠ false := fun plain => narrow fun _ => plain
    rw [if_neg narrow, if_neg (fun both => narrow both.1), if_neg (fun both => wideMask both.1)]

theorem decodeLogicalImm_returns : Returns (decodeLogicalImm env word) before result after ↔
    LogicalImmAccepted word ∧ Returns ((planLogicalImm word).build env) before result after := by
  rw [decodeLogicalImm_eq, returns_guard]

theorem imm6Byte_positive : 0 < (imm6 word).setWidth 8 ↔ 0 < imm6 word := by
  generalize imm6 word = field
  revert field
  decide

theorem imm6Byte_top :
    getSingleBit ((imm6 word).setWidth 8 : U8) 5 = 0 ↔ (imm6 word).getLsbD 5 = false := by
  generalize imm6 word = field
  revert field
  decide

theorem opcWord_eq_three : getBitRegion word 29 30 = 3 ↔ opc word = 3 := by
  rw [getBitRegion_field word (by omega) (by omega)]
  change (opc word).setWidth 32 = 3 ↔ _
  generalize opc word = field
  revert field
  decide

theorem shiftType_value : (shiftTypeTable (shift word)).value ≠ 3 := by
  generalize shift word = field
  revert field
  decide

theorem imm6Wide : ((imm6 word).setWidth 8).setWidth 64 = (imm6 word).setWidth 64 :=
  BitVec.setWidth_setWidth (by decide)

theorem NBit : asBool (getSingleBit word 21) = N word := asBool_bit word 21

theorem decodeDataRegLogicalShift_eq : decodeDataRegLogicalShift env word =
    if ShiftAccepted word then (planLogicalShift word).build env else throw .assertFailed := by
  have shifting : (do
      let exprRm ←
        if 0 < imm6 word then
          operatorExpression env { isValue := true, payload := .value (sourceOperand (Rm word)) }
            (shiftTypeTable (shift word)) (valueExpression .immediate ((imm6 word).setWidth 64) false) false
        else pure { isValue := true, payload := .value (sourceOperand (Rm word)) }
      let exprRm ← if N word then operatorExpression env exprRm .neg .blank false else pure exprRm
      let expr ← operatorExpression env { isValue := true, payload := .value (sourceOperand (Rn word)) }
        (bitwiseOpTable (opc word)) exprRm false
      return DecodeResult.mk (.ofMath ((Rd word).setWidth 8) (opc word = 3) expr (sf word) (opc word = 3))) =
      (planLogicalShift word).build env := by
    simp only [planLogicalShift, Plan.build, Tree.build, Tree.source, Tree.shifted, pure_bind]
    by_cases shifted : 0 < imm6 word <;> cases N word <;>
      simp only [shifted, if_true, if_false, Tree.build, Tree.constant, pure_bind, bind_assoc,
        Bool.false_eq_true] <;> rfl
  simp only [decodeDataRegLogicalShift, RdField, RnField, RmField, imm6Field, shiftTypeField,
    opcField, sfBit,
    NBit, opcWord_eq_three, imm6Byte_positive, imm6Byte_top, imm6Wide, valueExpression_source, shifting,
    narrow_assert]
  exact if_congr Iff.rfl rfl rfl

theorem decodeDataRegLogicalShift_returns :
    Returns (decodeDataRegLogicalShift env word) before result after ↔
      ShiftAccepted word ∧ Returns ((planLogicalShift word).build env) before result after := by
  rw [decodeDataRegLogicalShift_eq, returns_guard]

theorem decodeDataRegAddsubShift_eq : decodeDataRegAddsubShift env word =
    if ShiftAccepted word then (planAddsubShift word).build env else throw .assertFailed := by
  have opBit : asBool (getSingleBit word 30) = op word := asBool_bit word 30
  have SBit : asBool (getSingleBit word 29) = S word := asBool_bit word 29
  have shifting : (do
      let exprRm ←
        if 0 < imm6 word then
          operatorExpression env { isValue := true, payload := .value (sourceOperand (Rm word)) }
            (shiftTypeTable (shift word)) (valueExpression .immediate ((imm6 word).setWidth 64) false) false
        else pure { isValue := true, payload := .value (sourceOperand (Rm word)) }
      let expr ← operatorExpression env { isValue := true, payload := .value (sourceOperand (Rn word)) }
        (if op word then .add else .sub) exprRm false
      return DecodeResult.mk (.ofMath ((Rd word).setWidth 8) (S word) expr (sf word) (S word))) =
      (planAddsubShift word).build env := by
    simp only [planAddsubShift, Plan.build, Tree.build, Tree.source, Tree.shifted, pure_bind]
    by_cases shifted : 0 < imm6 word <;>
      simp only [shifted, if_true, if_false, Tree.build, Tree.constant, pure_bind, bind_assoc] <;> rfl
  simp only [decodeDataRegAddsubShift, RdField, RnField, RmField, imm6Field, shiftTypeField, sfBit,
    opBit, SBit,
    imm6Byte_positive, imm6Byte_top, imm6Wide, valueExpression_source, shifting,
    assert_true shiftType_value, lift_ok_bind, narrow_assert]
  exact if_congr Iff.rfl rfl rfl

theorem decodeDataRegAddsubShift_returns :
    Returns (decodeDataRegAddsubShift env word) before result after ↔
      ShiftAccepted word ∧ Returns ((planAddsubShift word).build env) before result after := by
  rw [decodeDataRegAddsubShift_eq, returns_guard]

theorem plain_build {instr : Instruction} (same : instr.withExpr .blank = instr) :
    (Plan.mk .blank instr).build env = pure { instr } := by
  simp only [Plan.build, Tree.build, pure_bind, same]

theorem decodeBranchUnconditional_branch (word : U32) (page : L2BranchPage) :
    ∃ branch, (decodeBranchUnconditional word page).instr =
      { Instruction.blank with var := .branch, payload := .branch branch } := by
  unfold decodeBranchUnconditional
  simp only []
  repeat' split
  all_goals exact ⟨_, rfl⟩

theorem planBranch_build (page : L2BranchPage) :
    (planBranch word page).build env = pure (decodeBranchUnconditional word page) := by
  obtain ⟨branch, shape⟩ := decodeBranchUnconditional_branch word page
  refine plain_build ?_
  rw [shape]
  rfl

/-- Decoding makes the plan of the word and builds it, and stops where there is none. -/
theorem decode_eq : decode env word =
    (plan word).elim (throw (planFault word)) fun planned => planned.build env := by
  have blank : Plan.blank.build env = pure DecodeResult.blank := plain_build rfl
  by_cases zero : word = 0
  · subst zero
    rfl
  rw [decode, assert_true zero, lift_ok_bind]
  simp only [plan, zero, if_false, planFault, Endless, addSubImmediate_dispatch,
    logicalImmediate_dispatch, logicalShifted_dispatch, addSubShifted_dispatch, branchImmediate_dispatch,
    branchRegister_dispatch]
  cases group : instrGetGroup word with
  | dataImm =>
      cases page : dataImmGetGroup word <;>
        simp [decodeDataImm, page, decodeAddsubImm_eq, decodeLogicalImm_eq, decodeMovw, blank]
      · split <;> rfl
  | branch =>
      cases page : branchGetGroup word <;>
        simp [decodeSystemExceptionBranch, page, planBranch_build, blank]
  | dataReg =>
      cases page : dataRegGetGroup word <;>
        simp [decodeDataReg, page, decodeDataRegLogicalShift_eq,
          decodeDataRegAddsubShift_eq, blank]
      · split <;> rfl
      · split <;> rfl
  | ldStr => simp [decodeLoadStore, blank]
  | dataSimd | unallocated => simp [blank]

theorem decode_returns : Returns (decode env word) before result after ↔
    ∃ planned, plan word = some planned ∧ Returns (planned.build env) before result after := by
  rw [decode_eq]
  cases plan word with
  | none => simp
  | some planned => simp

/-- A branch is decoded without a push. -/
theorem decode_planBranch {page : L2BranchPage} (planned : plan word = some (planBranch word page)) :
    Returns (decode env word) before result after ↔
      decodeBranchUnconditional word page = result ∧ before = after := by
  rw [decode_eq, planned, Option.elim_some, planBranch_build, returns_pure]

end Decoders

section Building

variable {env : Environment} {before after : Machine}

theorem pushStored_returns {object : Stored} {handle : PoolHandle} :
    Returns (pushStored env object) before handle after ↔
      ∃ pool, poolPush (env.calloc before.callocs) before.program.imlPool (image Stored.size object)
          (.ofNat 32 object.size) 0 = .ok (handle, pool) ∧
        after = { before with
          program := { before.program with imlPool := pool }
          callocs := before.callocs + 1 } := by
  simp only [pushStored, returns_bind, returns_get, returns_lift, returns_set, returns_pure]
  constructor
  · intro run
    obtain ⟨_, _, ⟨rfl, rfl⟩, ⟨_, pool⟩, _, ⟨pushed, rfl⟩, _, _, rfl, rfl, rfl⟩ := run
    exact ⟨pool, pushed, rfl⟩
  · intro run
    obtain ⟨pool, pushed, rfl⟩ := run
    exact ⟨_, _, ⟨rfl, rfl⟩, _, _, ⟨pushed, rfl⟩, (), _, rfl, rfl, rfl⟩

theorem operatorExpression_returns {left right expr : Expression} {op : MathOp} {carry : Bool} :
    Returns (operatorExpression env left op right carry) before expr after ↔
      ∃ leftHandle stored rightHandle pushed,
        Returns (pushStored env (.expression left)) before leftHandle stored ∧
        Returns (pushStored env (.expression right)) stored rightHandle pushed ∧
        expr = {
          isValue := env.stale pushed.slots
          payload := .expr { op, signedOp := false, carry, left := leftHandle, right := rightHandle } } ∧
        after = { pushed with slots := pushed.slots + 1 } := by
  simp only [operatorExpression, returns_bind, returns_get, returns_set, returns_pure]
  constructor
  · intro run
    obtain ⟨_, _, pushLeft, _, _, pushRight, _, _, ⟨rfl, rfl⟩, _, _, rfl, rfl, rfl⟩ := run
    exact ⟨_, _, _, _, pushLeft, pushRight, rfl, rfl⟩
  · intro run
    obtain ⟨_, _, _, _, pushLeft, pushRight, rfl, rfl⟩ := run
    exact ⟨_, _, pushLeft, _, _, pushRight, _, _, ⟨rfl, rfl⟩, (), _, rfl, rfl, rfl⟩

theorem Tree.node_returns {op : MathOp} {left right : Tree} {expr : Expression} :
    Returns ((node op left right).build env) before expr after ↔
      ∃ leftExpr middle rightExpr built, Returns (left.build env) before leftExpr middle ∧
        Returns (right.build env) middle rightExpr built ∧
        Returns (operatorExpression env leftExpr op rightExpr false) built expr after := by
  simp only [Tree.build, returns_bind]
  constructor
  · intro run
    obtain ⟨_, _, runLeft, _, _, runRight, runNode⟩ := run
    exact ⟨_, _, _, _, runLeft, runRight, runNode⟩
  · intro run
    obtain ⟨_, _, _, _, runLeft, runRight, runNode⟩ := run
    exact ⟨_, _, runLeft, _, _, runRight, runNode⟩

theorem Plan.build_returns {planned : Plan} {result : DecodeResult} :
    Returns (planned.build env) before result after ↔
      ∃ expr, Returns (planned.tree.build env) before expr after ∧
        result = { instr := planned.instr.withExpr expr } := by
  simp only [Plan.build, returns_bind, returns_pure]
  constructor
  · intro run
    obtain ⟨expr, _, tree, rfl, rfl⟩ := run
    exact ⟨expr, tree, rfl⟩
  · intro run
    obtain ⟨expr, tree, rfl⟩ := run
    exact ⟨expr, _, tree, rfl, rfl⟩

end Building

/-- A relation that holds over every push and every new slot, and over sequences of them. -/
structure PushClosed (env : Environment) (Step : Machine → Machine → Prop) : Prop where
  refl : ∀ machine, Step machine machine
  trans : ∀ {first second third}, Step first second → Step second third → Step first third
  push : ∀ {object handle before after}, Returns (pushStored env object) before handle after →
    Step before after
  slot : ∀ machine slots, Step machine { machine with slots }

section Closed

variable {env : Environment} {Step : Machine → Machine → Prop} {before after : Machine}

theorem Tree.build_closed {tree : Tree} {expr : Expression} (closed : PushClosed env Step)
    (run : Returns (tree.build env) before expr after) : Step before after := by
  induction tree generalizing before after expr with
  | value operand => exact (returns_pure.mp run).2 ▸ closed.refl before
  | blank => exact (returns_pure.mp run).2 ▸ closed.refl before
  | node op left right ihLeft ihRight =>
      obtain ⟨_, _, _, _, runLeft, runRight, runNode⟩ := Tree.node_returns.mp run
      obtain ⟨_, _, _, _, pushLeft, pushRight, -, rfl⟩ := operatorExpression_returns.mp runNode
      have operands := closed.trans (ihLeft runLeft) (ihRight runRight)
      have pushes := closed.trans (closed.push pushLeft) (closed.push pushRight)
      exact closed.trans (closed.trans operands pushes) (closed.slot _ _)

theorem Plan.build_closed {planned : Plan} {result : DecodeResult} (closed : PushClosed env Step)
    (run : Returns (planned.build env) before result after) : Step before after := by
  obtain ⟨_, tree, -⟩ := Plan.build_returns.mp run
  exact Tree.build_closed closed tree

theorem decode_closed {word : U32} {result : DecodeResult} (closed : PushClosed env Step)
    (run : Returns (decode env word) before result after) : Step before after := by
  obtain ⟨_, _, building⟩ := decode_returns.mp run
  exact Plan.build_closed closed building

end Closed

end Koshka.Iml
