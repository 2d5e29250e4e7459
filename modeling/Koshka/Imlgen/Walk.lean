import Koshka.Imlgen.Layout
import Koshka.Imlgen.Refinement

namespace Koshka.Iml

open Data

def StoredAt (pool : ImlPool) (handle : PoolHandle) : Prop :=
  (readObject Stored.size (poolGetdata pool handle)).isSome

/-- From a handle on, `next` leads through the given instructions and then to a value
that is the offset of nothing. -/
inductive Visits (pool : ImlPool) : PoolHandle → List PoolHandle → Prop
  | last {handle : PoolHandle} {instr : Instruction} (found : instructionAt pool handle = some instr)
      (free : ¬ StoredAt pool instr.next) : Visits pool handle [handle]
  | more {handle : PoolHandle} {instr : Instruction} {handles : List PoolHandle}
      (found : instructionAt pool handle = some instr) (rest : Visits pool instr.next handles) :
      Visits pool handle (handle :: handles)

/-- A consumer that starts at the entry point visits the instructions of all words in
order, and knows when it has seen the last one. -/
def Walkable (machine : Machine) (count : Nat) : Prop :=
  ∃ handles : List PoolHandle, handles.length = count ∧
    (∀ index handle, handles[index]? = some handle →
      .returned (BitVec.ofNat 32 (4 * index)) handle ∈ machine.trace) ∧
    Visits machine.program.imlPool machine.program.entryPoint handles

section Walk

variable {env : Environment} {fuel : Nat} {code : List U8} {size : U32} {machine : Machine} {pool : ImlPool}
  {handle : PoolHandle} {handles : List PoolHandle}

theorem Visits.last_free (visits : Visits pool handle handles) :
    ∃ last instr, handles.getLast? = some last ∧ instructionAt pool last = some instr ∧
      ¬ StoredAt pool instr.next := by
  induction visits with
  | last found free => exact ⟨_, _, rfl, found, free⟩
  | more found rest ih =>
      obtain ⟨last, instr, final, there, free⟩ := ih
      exact ⟨last, instr, by rw [List.getLast?_cons, final, Option.getD_some], there, free⟩

theorem planBranch_next (word : U32) (page : L2BranchPage) : (planBranch word page).instr.next = 0 := by
  obtain ⟨branch, shape⟩ := decodeBranchUnconditional_branch word page
  rw [planBranch, shape]
  rfl

theorem Walkable.last_free {count : Nat} (walkable : Walkable machine count) :
    ∃ last instr, .returned (BitVec.ofNat 32 (4 * (count - 1))) last ∈ machine.trace ∧
      instructionAt machine.program.imlPool last = some instr ∧
      ¬ StoredAt machine.program.imlPool instr.next := by
  obtain ⟨handles, count, returned, visits⟩ := walkable
  obtain ⟨last, instr, final, found, free⟩ := visits.last_free
  rw [List.getLast?_eq_getElem?, count] at final
  exact ⟨last, instr, returned _ last final, found, free⟩

/-- No plan sets `next`; it keeps the zero it was initialised with. -/
theorem plan_next {word : U32} {planned : Plan} (found : plan word = some planned) :
    planned.instr.next = 0 := by
  simp only [plan] at found
  repeat' split at found
  all_goals cases found
  all_goals first | rfl | exact planBranch_next _ _

theorem Plan.lay_next {planned : Plan} {arena : Arena} :
    (planned.lay env arena).1.next = planned.instr.next := by
  unfold Plan.lay Instruction.withExpr
  split
  · rfl
  · rfl

theorem planned_word {words : List U32} {plans : List Plan} (planning : words.map plan = plans.map some)
    {index : Nat} {planned : Plan} (found : plans[index]? = some planned) :
    ∃ word, words[index]? = some word ∧ plan word = some planned := by
  have entry := congrArg (·[index]?) planning
  simp only [List.getElem?_map, found, Option.map_some] at entry
  obtain ⟨word, there, same⟩ := Option.map_eq_some_iff.mp entry
  exact ⟨word, there, same⟩

theorem planned_plan {words : List U32} {plans : List Plan} (planning : words.map plan = plans.map some)
    {index : Nat} {word : U32} (found : words[index]? = some word) :
    ∃ planned, plans[index]? = some planned ∧ plan word = some planned := by
  have entry := congrArg (·[index]?) planning
  simp only [List.getElem?_map, found, Option.map_some] at entry
  obtain ⟨planned, there, same⟩ := Option.map_eq_some_iff.mp entry.symm
  exact ⟨planned, there, same.symm⟩

theorem imlgen_last (length : code.length = size.toNat) (run : imlgen env fuel code size = .ok machine)
    {last : PoolHandle}
    (returned : .returned (BitVec.ofNat 32 (4 * ((wordsOf code).length - 1))) last ∈ machine.trace) :
    ∃ instr, instructionAt machine.program.imlPool last = some instr ∧ instr.next = 0 := by
  obtain ⟨plans, planning, nonempty, placed, models, _, traced⟩ := imlgen_models length run
  have count : (wordsOf code).length = plans.length := by
    simpa using congrArg List.length planning
  have positive : 0 < plans.length := List.length_pos_iff.mpr nonempty
  have inside := wordsOf_length code
  have range := size.isLt
  rw [traced, returned_mem_callTrace_zero (by rw [layPlans_length]; omega) (by rw [layPlans_length]; omega)]
    at returned
  obtain ⟨planned, found⟩ := layPlans_getElem? returned
  have laid := layPlans_laid placed found
  obtain ⟨_, _, fromWord⟩ := planned_word planning found
  have behind : (layPlans env plans (.initial size)).1[(wordsOf code).length - 1 + 1]? = none := by
    rw [List.getElem?_eq_none_iff, layPlans_length]
    omega
  have stored := laid.stored
  rw [behind, Option.getD_none, Plan.lay_next, plan_next fromWord] at stored
  rw [Option.some.inj (returned.symm.trans laid.handle)]
  exact ⟨_, models.instructionAt stored, rfl⟩

/-- Zero is where the first object of every program is stored. -/
theorem imlgen_zero (length : code.length = size.toNat) (run : imlgen env fuel code size = .ok machine) :
    StoredAt machine.program.imlPool 0 := by
  obtain ⟨plans, _, nonempty, placed, models, _, _⟩ := imlgen_models length run
  obtain ⟨first, rest, rfl⟩ := List.exists_cons_of_ne_nil nonempty
  have laid := layPlans_laid placed (List.getElem?_cons_zero)
  obtain ⟨bound, _⟩ := List.getElem?_eq_some_iff.mp laid.stored
  have found := models.readObject (List.getElem?_eq_getElem (Nat.zero_lt_of_lt bound))
  rw [place_zero] at found
  rw [StoredAt]
  exact Option.isSome_iff_exists.mpr ⟨_, found⟩

end Walk

/-- No program that `imlgen` returns can be walked: its last instruction points at its
first object. -/
theorem imlgen_not_walkable (env : Environment) (fuel : Nat) (code : List U8) (size : U32)
    (machine : Machine)
    (length : code.length = size.toNat) (run : imlgen env fuel code size = .ok machine) :
    ¬ Walkable machine (wordsOf code).length := by
  intro walkable
  obtain ⟨last, instr, returned, found, free⟩ := walkable.last_free
  obtain ⟨_, there, next⟩ := imlgen_last length run returned
  cases found.symm.trans there
  rw [next] at free
  exact free (imlgen_zero length run)

theorem imlgen_not_walkable_branch :
    ∃ machine, imlgen .calm 1 [2, 0, 0, 0x14] 4 = .ok machine ∧ ¬ Walkable machine 1 := by
  obtain ⟨machine, run⟩ := eq_ok_of_isOk (show (imlgen .calm 1 [2, 0, 0, 0x14] 4).isOk = true by decide)
  exact ⟨machine, run, imlgen_not_walkable .calm 1 [2, 0, 0, 0x14] 4 machine rfl run⟩

/-- A program of one `b` instruction: it is stored at zero and points at itself. -/
theorem walkable_fails_branch :
    ¬ ∀ (env : Environment) (fuel : Nat) (code : List U8) (size : U32) (machine : Machine),
      code.length = size.toNat → imlgen env fuel code size = .ok machine →
      Walkable machine (wordsOf code).length := by
  intro walkable
  obtain ⟨machine, run⟩ := eq_ok_of_isOk (show (imlgen .calm 1 [2, 0, 0, 0x14] 4).isOk = true by decide)
  obtain ⟨last, instr, returned, found, free⟩ := (walkable _ _ _ _ _ rfl run).last_free
  obtain ⟨_, there, next⟩ := imlgen_last rfl run returned
  cases found.symm.trans there
  rw [next] at free
  exact free (imlgen_zero rfl run)

end Koshka.Iml
