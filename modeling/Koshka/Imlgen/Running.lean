import Koshka.Imlgen.Execution
import Koshka.Imlgen.Failures
import Koshka.Imlgen.Outcome
import Koshka.Imlgen.Sources
import Koshka.Imlgen.WellFormed

namespace Koshka.Iml

open Data Arm

/-- From wherever a run of the program starts, it does what the words from there on do. -/
def RunsAsWords (reading : Reading) (machine : Machine) (words : List U32) : Prop :=
  ∀ (index count : Nat) (handle : PoolHandle), index + count ≤ words.length →
    .returned (BitVec.ofNat 32 (4 * index)) handle ∈ machine.trace → ∀ cpu,
      runProgram reading machine.program.imlPool count handle cpu =
        some (((words.drop index).take count).foldl (fun cpu word => execute word cpu) cpu)

/-- The instructions of the words lie at the handles, each linked to the next one, and those that `keeps`
names keep the effects of their words. -/
structure Threads (reading : Reading) (machine : Machine) (words : List U32) (handles : List PoolHandle)
    (keeps : Nat → U32 → Prop) : Prop where
  count : handles.length = words.length
  returned : ∀ (index : Nat) (handle : PoolHandle), index < words.length →
    (.returned (BitVec.ofNat 32 (4 * index)) handle ∈ machine.trace ↔ handles[index]? = some handle)
  linked : ∀ (index : Nat) (handle next : PoolHandle), handles[index]? = some handle →
    handles[index + 1]? = some next →
    ∃ instr, instructionAt machine.program.imlPool handle = some instr ∧ instr.next = next
  stored : ∀ (index : Nat) (word : U32) (handle : PoolHandle), words[index]? = some word →
    handles[index]? = some handle → ∃ instr, instructionAt machine.program.imlPool handle = some instr ∧
      (Kept reading machine.program.imlPool instr word ↔ keeps index word)

/-- All operands that the plans read find room, one plan after the other. -/
def suppliedAll (env : Environment) : List Plan → Arena → Bool
  | [], _ => true
  | plan :: plans, arena => plan.tree.supplied env arena && suppliedAll env plans (plan.store env arena).2

section Running

variable {env : Environment} {word : U32} {words : List U32} {reading : Reading} {machine : Machine}
  {handles : List PoolHandle} {keeps : Nat → U32 → Prop} {index : Nat} {handle : PoolHandle}
  {arena final : Arena} {plans : List Plan} {planned : Plan}

theorem Threads.implements (threads : Threads reading machine words handles keeps)
    (all : ∀ (index : Nat) (word : U32), words[index]? = some word → keeps index word) :
    ImplementsAll (fetchInstruction machine.program.imlPool)
      (Instruction.execute reading machine.program.imlPool) execute handles words := by
  intro index handle word found source
  obtain ⟨instr, stored, kept⟩ := threads.stored index word handle source found
  refine ⟨instr, instr.next, ?_, kept.mpr (all index word source), ?_⟩
  · rw [fetchInstruction, stored]
    rfl
  · intro next successor
    obtain ⟨again, there, linked⟩ := threads.linked index handle next found successor
    cases stored.symm.trans there
    exact linked

/-- A single step of a run is the instruction. -/
theorem runProgram_one {instr : Instruction} {cpu : Cpu}
    (stored : instructionAt machine.program.imlPool handle = some instr) :
    runProgram reading machine.program.imlPool 1 handle cpu =
      instr.execute reading machine.program.imlPool cpu := by
  have fetched : fetchInstruction machine.program.imlPool handle = some (instr, instr.next) := by
    rw [fetchInstruction, stored]
    rfl
  simp only [runProgram, runLinked, fetched, Option.bind_eq_bind, Option.bind_some]
  exact Option.bind_fun_some _

theorem Threads.runs_iff (threads : Threads reading machine words handles keeps) :
    RunsAsWords reading machine words ↔
      ∀ (index : Nat) (word : U32), words[index]? = some word → keeps index word := by
  constructor
  · intro runs index word source
    obtain ⟨bound, same⟩ := List.getElem?_eq_some_iff.mp source
    have inside : index < handles.length := by rw [threads.count]; exact bound
    have found : handles[index]? = some handles[index] := List.getElem?_eq_getElem inside
    obtain ⟨instr, stored, kept⟩ := threads.stored index word _ source found
    refine kept.mp fun cpu => ?_
    rw [← runProgram_one stored,
      runs index 1 handles[index] bound ((threads.returned index _ bound).mpr found) cpu,
      List.drop_eq_getElem_cons bound, same]
    rfl
  · intro all index count handle inside started cpu
    cases count with
    | zero => rfl
    | succ count =>
        have bound : index < words.length := by omega
        have found := (threads.returned index handle bound).mp started
        exact runLinked_effects threads.count (threads.implements all) found inside cpu

theorem suppliedAll_iff : suppliedAll env plans arena = true ↔
    ∀ (index : Nat) (planned : Plan), plans[index]? = some planned →
      planned.tree.supplied env (arenaBefore env plans arena index) = true := by
  induction plans generalizing arena with
  | nil => simp [suppliedAll]
  | cons first plans ih =>
      rw [suppliedAll, Bool.and_eq_true, ih,
        forall_arenaBefore fun planned arena => planned.tree.supplied env arena = true]

/-- Whatever was lost, a program that is returned is threaded through all of its instructions. -/
theorem imlgen_threads {fuel : Nat} {code : List U8} {size : U32} (reading : Reading)
    (length : code.length = size.toNat) (allocated : ∀ word ∈ wordsOf code, Allocated word)
    (planning : (wordsOf code).map plan = plans.map some) (run : imlgen env fuel code size = .ok machine) :
    ∃ handles, Threads reading machine (wordsOf code) handles fun index word => reading.Right word ∧
      ∀ planned, plans[index]? = some planned →
        planned.tree.supplied env (arenaBefore env plans (.initial size) index) = true := by
  obtain ⟨others, again, nonempty, placed, models, _, traced⟩ := imlgen_models length run
  have same : others = plans := (filterMap_planned again).symm.trans (filterMap_planned planning)
  subst same
  have count : (wordsOf code).length = others.length := by simpa using congrArg List.length planning
  have inside := wordsOf_length code
  have range := size.isLt
  have handlesCount : (layPlans env others (.initial size)).1.length = others.length := layPlans_length
  refine ⟨(layPlans env others (.initial size)).1, handlesCount.trans count.symm, ?_, ?_, ?_⟩
  · intro index handle bound
    rw [traced]
    exact returned_mem_callTrace_zero (by omega) (by omega)
  · intro index handle next found successor
    obtain ⟨planned, there⟩ := layPlans_getElem? found
    have laid := layPlans_laid placed there
    rw [Option.some.inj (found.symm.trans laid.handle)]
    exact ⟨_, models.instructionAt laid.stored, by rw [successor, Option.getD_some]⟩
  · intro index word handle source found
    obtain ⟨planned, there⟩ := layPlans_getElem? found
    have laid := layPlans_laid placed there
    obtain ⟨_, same, fromWord⟩ := planned_word planning there
    cases source.symm.trans same
    have allocatedHere := allocated word (List.mem_of_getElem? source)
    rw [Option.some.inj (found.symm.trans laid.handle)]
    refine ⟨_, models.instructionAt laid.stored, ?_⟩
    rw [there]
    simp only [Option.some.injEq, forall_eq']
    exact Plan.kept_iff models laid.keeps allocatedHere fromWord _

/-- Where memory lasts, nothing is lost. -/
theorem imlgen_runs {fuel : Nat} {code : List U8} {size : U32} (reading : Reading)
    (length : code.length = size.toNat) (positive : 0 < size.toNat) (whole : size.toNat % 4 = 0)
    (allocated : ∀ word ∈ wordsOf code, Allocated word) (memory : ∀ count, env.calloc count = true)
    (sizes : SizesInside (wordsOf code)) (enough : (wordsOf code).length ≤ fuel) :
    ∃ machine, imlgen env fuel code size = .ok machine ∧
      (RunsAsWords reading machine (wordsOf code) ↔ ∀ word ∈ wordsOf code, reading.Right word) := by
  have accepted : ∀ word ∈ wordsOf code, Accepted word := by
    intro word member
    obtain ⟨_, _, form⟩ := allocated_found (allocated word member)
    exact accepted_of_form form
  obtain ⟨machine, run⟩ := imlgen_finishes length positive memory sizes accepted whole enough
  obtain ⟨plans, planning⟩ := accepted_planned accepted
  obtain ⟨handles, threads⟩ := imlgen_threads reading length allocated planning run
  refine ⟨machine, run, threads.runs_iff.trans ⟨fun all word member => ?_, fun right index word source => ?_⟩⟩
  · obtain ⟨index, source⟩ := List.mem_iff_getElem?.mp member
    exact (all index word source).1
  · exact ⟨right word (List.mem_of_getElem? source), fun planned _ =>
      Tree.supplied_of_memory memory planned.tree⟩

end Running

/-- The program of a buffer of data-processing words runs as the words do, from every one of them on and
as long as there are words, exactly if every word keeps its own effect. -/
theorem imlgen_runs_iff (env : Environment) (fuel : Nat) (code : List U8) (size : U32) (reading : Reading)
    (length : code.length = size.toNat) (positive : 0 < size.toNat) (whole : size.toNat % 4 = 0)
    (allocated : ∀ word ∈ wordsOf code, Allocated word) (memory : ∀ count, env.calloc count = true)
    (sizes : SizesInside (wordsOf code)) (enough : (wordsOf code).length ≤ fuel) :
    ∃ machine, imlgen env fuel code size = .ok machine ∧
      (RunsAsWords reading machine (wordsOf code) ↔ ∀ word ∈ wordsOf code, reading.Right word) :=
  imlgen_runs reading length positive whole allocated memory sizes enough

/-- `orn x0, x1, x2` and `add x0, x1, x2`: only the exchange runs both. -/
theorem imlgen_runs_iff_two :
    (∃ machine, imlgen .calm 2 [0x20, 0x00, 0x22, 0xAA, 0x20, 0x00, 0x02, 0x8B] 8 = .ok machine ∧
      RunsAsWords .exchanged machine [0xAA220020, 0x8B020020]) ∧
    ∃ machine, imlgen .calm 2 [0x20, 0x00, 0x22, 0xAA, 0x20, 0x00, 0x02, 0x8B] 8 = .ok machine ∧
      ¬ RunsAsWords .named machine [0xAA220020, 0x8B020020] := by
  have every {property : U32 → Prop} (first : property 0xAA220020) (second : property 0x8B020020) :
      ∀ word ∈ wordsOf [0x20, 0x00, 0x22, 0xAA, 0x20, 0x00, 0x02, 0x8B], property word :=
    List.forall_mem_cons.mpr ⟨first, List.forall_mem_singleton.mpr second⟩
  have runs (reading : Reading) := imlgen_runs_iff .calm 2
    [0x20, 0x00, 0x22, 0xAA, 0x20, 0x00, 0x02, 0x8B] 8 reading rfl (by decide) rfl
    (every (by decide) (by decide)) (fun _ => rfl) (by decide) (by decide)
  constructor
  · obtain ⟨machine, run, iff⟩ := runs .exchanged
    exact ⟨machine, run, iff.mpr (every (by decide) (by decide))⟩
  · obtain ⟨machine, run, iff⟩ := runs .named
    refine ⟨machine, run, fun same => ?_⟩
    exact absurd (iff.mp same 0x8B020020 (List.mem_cons_of_mem _ List.mem_cons_self)) (by decide)

/-- Where memory is short, the program runs as the words do exactly if every word keeps its own effect and
none has lost an operand that is read. -/
theorem imlgen_runs_short_iff (env : Environment) (fuel : Nat) (code : List U8) (size : U32)
    (reading : Reading) (machine : Machine) (length : code.length = size.toNat)
    (allocated : ∀ word ∈ wordsOf code, Allocated word) (run : imlgen env fuel code size = .ok machine) :
    RunsAsWords reading machine (wordsOf code) ↔
      (∀ word ∈ wordsOf code, reading.Right word) ∧
        suppliedAll env ((wordsOf code).filterMap plan) (.initial size) = true := by
  obtain ⟨plans, planning, -⟩ := imlgen_models length run
  obtain ⟨handles, threads⟩ := imlgen_threads reading length allocated planning run
  rw [threads.runs_iff, filterMap_planned planning, suppliedAll_iff]
  constructor
  · intro all
    refine ⟨fun word member => ?_, fun index planned there => ?_⟩
    · obtain ⟨index, source⟩ := List.mem_iff_getElem?.mp member
      exact (all index word source).1
    · obtain ⟨word, source, -⟩ := planned_word planning there
      exact (all index word source).2 planned there
  · intro both index word source
    obtain ⟨right, supplied⟩ := both
    exact ⟨right word (List.mem_of_getElem? source), fun planned there => supplied index planned there⟩

/-- `add x0, x1, #1` keeps its effect, but not where the push of its second operand fails. -/
theorem imlgen_runs_short_iff_add :
    (∃ machine, imlgen .calm 1 [0x20, 4, 0, 0x91] 4 = .ok machine ∧
      RunsAsWords .exchanged machine [0x91000420]) ∧
    ∃ machine, imlgen oneFailure 1 [0x20, 4, 0, 0x91] 4 = .ok machine ∧
      ¬ RunsAsWords .exchanged machine [0x91000420] := by
  have allocated : ∀ word ∈ wordsOf [0x20, 4, 0, 0x91], Allocated word :=
    List.forall_mem_singleton.mpr (by decide)
  have right : ∀ word ∈ wordsOf [0x20, 4, 0, 0x91], Reading.Right .exchanged word :=
    List.forall_mem_singleton.mpr (by decide)
  constructor
  · obtain ⟨machine, run⟩ : ∃ machine, imlgen .calm 1 [0x20, 4, 0, 0x91] 4 = .ok machine := ⟨_, rfl⟩
    exact ⟨machine, run, (imlgen_runs_short_iff .calm 1 [0x20, 4, 0, 0x91] 4 .exchanged machine rfl allocated
      run).mpr ⟨right, by decide⟩⟩
  · obtain ⟨machine, run⟩ : ∃ machine, imlgen oneFailure 1 [0x20, 4, 0, 0x91] 4 = .ok machine := ⟨_, rfl⟩
    refine ⟨machine, run, fun same => ?_⟩
    have supplied := ((imlgen_runs_short_iff oneFailure 1 [0x20, 4, 0, 0x91] 4 .exchanged machine rfl
      allocated run).mp same).2
    exact absurd supplied (by decide)

end Koshka.Iml
