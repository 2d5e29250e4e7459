import Koshka.Imlgen.Capacity
import Koshka.Imlgen.Walk

namespace Koshka.Iml

open Data Arm

def requestsOf (words : List U32) : List Nat :=
  words.flatMap fun word => ((plan word).map Plan.requests).getD []

/-- No size that is computed for the pool of these words leaves `u32`. -/
def SizesInside (words : List U32) : Prop :=
  48 * words.length < 2 ^ 32 ∧ SizesFit (48 * words.length) 0 ((requestsOf words).map some)

instance (words : List U32) : Decidable (SizesInside words) := inferInstanceAs (Decidable (_ ∧ _))

/-- The pool holds the instructions of all words in order, linked, and each of them as
`decode` builds it alone. -/
structure Translates (machine : Machine) (words : List U32) (handles : List PoolHandle) : Prop where
  count : handles.length = words.length
  returned : ∀ (index : Nat) (handle : PoolHandle), index < words.length →
    (.returned (BitVec.ofNat 32 (4 * index)) handle ∈ machine.trace ↔ handles[index]? = some handle)
  increasing : handles.Pairwise (· < ·)
  linked : ∀ (index : Nat) (handle next : PoolHandle), handles[index]? = some handle →
    handles[index + 1]? = some next →
    ∃ instr, instructionAt machine.program.imlPool handle = some instr ∧ instr.next = next
  decoded : ∀ (index : Nat) (word : U32) (handle : PoolHandle), words[index]? = some word →
    handles[index]? = some handle →
    ∃ instr resolved, instructionAt machine.program.imlPool handle = some instr ∧
      instr.Resolves machine.program.imlPool resolved ∧
      ∀ result pool, DecodedAlone word result pool → result.instr.Resolves pool resolved

section Translation

variable {env : Environment} {code : List U8} {size : U32} {words : List U32} {plans : List Plan}

theorem requestsOf_planned (planning : words.map plan = plans.map some) :
    requestsOf words = plans.flatMap Plan.requests := by
  have each : requestsOf words = (words.map plan).flatMap fun found =>
    (found.map Plan.requests).getD [] := by
    rw [requestsOf, List.flatMap_map]
  rw [each, planning, List.flatMap_map]
  rfl

theorem accepted_planned (accepted : ∀ word ∈ words, Accepted word) :
    ∃ plans : List Plan, words.map plan = plans.map some := by
  induction words with
  | nil => exact ⟨[], rfl⟩
  | cons word words ih =>
      obtain ⟨planned, found⟩ := accepted_iff.mp (accepted word List.mem_cons_self)
      obtain ⟨plans, planning⟩ := ih fun other member => accepted other (List.mem_cons_of_mem _ member)
      exact ⟨planned :: plans, by rw [List.map_cons, List.map_cons, found, planning]⟩

/-- A returned program translates its words, while memory is not short. -/
theorem imlgen_translated {fuel : Nat} {machine : Machine} (memory : ∀ count, env.calloc count = true)
    (length : code.length = size.toNat)
    (implemented : ∀ word ∈ wordsOf code, DataProcessing word ∨ UnconditionalBranch word)
    (run : imlgen env fuel code size = .ok machine) :
    ∃ handles, Translates machine (wordsOf code) handles := by
  obtain ⟨plans, planning, nonempty, placed, models, _, traced⟩ := imlgen_models length run
  have count : (wordsOf code).length = plans.length := by simpa using congrArg List.length planning
  have inside := wordsOf_length code
  have range := size.isLt
  have handlesCount : (layPlans env plans (.initial size)).1.length = plans.length := layPlans_length
  refine ⟨(layPlans env plans (.initial size)).1, handlesCount.trans count.symm, ?_, ?_, ?_, ?_⟩
  · intro index handle bound
    rw [traced]
    exact returned_mem_callTrace_zero (by omega) (by omega)
  · refine layPlans_increasing placed ?_
    rw [← models.pos.2]
    exact machine.program.imlPool.pos.isLt
  · intro index handle next found successor
    obtain ⟨planned, there⟩ := layPlans_getElem? found
    have laid := layPlans_laid placed there
    have stored := laid.stored
    rw [Option.some.inj (found.symm.trans laid.handle)]
    exact ⟨_, models.instructionAt stored, by rw [successor, Option.getD_some]⟩
  · intro index word handle source found
    obtain ⟨planned, there⟩ := layPlans_getElem? found
    have laid := layPlans_laid placed there
    obtain ⟨_, same, fromWord⟩ := planned_word planning there
    cases source.symm.trans same
    obtain ⟨resolved, form⟩ := plan_resolved fromWord (implemented word (List.mem_of_getElem? source))
    rw [Option.some.inj (found.symm.trans laid.handle)]
    refine ⟨_, resolved, models.instructionAt laid.stored,
      Plan.lay_resolves memory models laid.keeps form _, fun result pool alone => ?_⟩
    obtain ⟨_, again, resolves⟩ := alone.resolves
    cases fromWord.symm.trans again
    exact resolves resolved form

end Translation

/-- The program of a buffer of accepted words is, word for word, what `decode` makes of
them, however often the pool was reallocated on the way. -/
theorem imlgen_translates (env : Environment) (fuel : Nat) (code : List U8) (size : U32)
    (length : code.length = size.toNat) (positive : 0 < size.toNat) (whole : size.toNat % 4 = 0)
    (implemented : ∀ word ∈ wordsOf code, DataProcessing word ∨ UnconditionalBranch word)
    (accepted : ∀ word ∈ wordsOf code, Accepted word) (memory : ∀ count, env.calloc count = true)
    (sizes : SizesInside (wordsOf code)) (enough : (wordsOf code).length ≤ fuel) :
    ∃ machine handles, imlgen env fuel code size = .ok machine ∧
    Translates machine (wordsOf code) handles := by
  obtain ⟨plans, planning⟩ := accepted_planned accepted
  have count : (wordsOf code).length = plans.length := by simpa using congrArg List.length planning
  have words := wordsOf_length code
  have capacity : (Arena.initial size).allocSize.toNat = 48 * (wordsOf code).length := by
    have start := sizes.1
    change (BitVec.ofNat 32 ((size / 4).toNat * 48)).toNat = _
    rw [BitVec.toNat_ofNat, BitVec.toNat_udiv]
    change size.toNat / 4 * 48 % 2 ^ 32 = _
    omega
  have fits : (Arena.initial size).Fits (plans.flatMap Plan.requests) := by
    rw [Arena.Fits, capacity, ← requestsOf_planned planning]
    exact sizes.2
  obtain ⟨machine, run⟩ :=
    imlgen_exists memory length planning (List.length_pos_iff.mp (by omega)) (by omega) fits
    (count ▸ enough)
  obtain ⟨handles, translates⟩ := imlgen_translated memory length implemented run
  exact ⟨machine, handles, run, translates⟩

/-- `add x0, x1, #1` and `orn x0, x1, x2`. -/
theorem imlgen_translates_two :
    ∃ machine handles, imlgen .calm 2 [0x20, 0x04, 0x00, 0x91, 0x20, 0x00, 0x22, 0xAA] 8 = .ok machine ∧
      Translates machine [0x91000420, 0xAA220020] handles := by
  have every {property : U32 → Prop} (first : property 0x91000420) (second : property 0xAA220020) :
      ∀ word ∈ wordsOf [0x20, 0x04, 0x00, 0x91, 0x20, 0x00, 0x22, 0xAA], property word :=
    List.forall_mem_cons.mpr ⟨first, List.forall_mem_singleton.mpr second⟩
  exact imlgen_translates .calm 2 [0x20, 0x04, 0x00, 0x91, 0x20, 0x00, 0x22, 0xAA] 8 rfl (by decide) rfl
    (every (by decide) (by decide)) (every (by decide) (by decide)) (fun _ => rfl) (by decide) (by decide)

end Koshka.Iml
