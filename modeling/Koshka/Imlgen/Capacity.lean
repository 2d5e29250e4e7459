import Koshka.Imlgen.Resolve
import Koshka.Pool.Store

namespace Koshka.Iml

open Data Arm

/-- The sizes that are asked of the pool, one push after the other. -/
def Tree.requests : Tree → List Nat
  | .value _ | .blank => []
  | .node _ left right => left.requests ++ right.requests ++ [24, 24]

def Plan.requests (plan : Plan) : List Nat := plan.tree.requests ++ [48]

/-- No size computed for these requests leaves `u32`. -/
def Arena.Fits (arena : Arena) (requests : List Nat) : Prop :=
  SizesFit arena.allocSize.toNat arena.used (requests.map some)

section Capacity

variable {env : Environment} {before : Machine} {arena : Arena} {rest : List Nat}

theorem pushStored_exists (object : Stored) (memory : ∀ count, env.calloc count = true)
    (models : before.Models arena) (fits : arena.Fits (object.size :: rest)) :
    ∃ handle after, Returns (pushStored env object) before handle after ∧
      (arena.push env object).2.Fits rest := by
  have width := object.size_toNat
  have used := models.pos.2
  obtain ⟨room, later⟩ := fits
  obtain ⟨pool, pushed, capacity, _⟩ := poolPush_holds models.stored
    (Nat.le_of_eq (by rw [image_length, width])) (Or.inl rfl)
    (by rw [poolReserve_zero, width]; exact object.size_positive)
    (by rw [poolReserve_zero, width, models.allocSize, used]; exact room)
  have run : Returns (pushStored env object) before before.program.imlPool.pos { before with
      program := { before.program with imlPool := pool }, callocs := before.callocs + 1 } := by
    rw [← memory before.callocs] at pushed
    exact pushStored_returns.mpr ⟨pool, pushed, rfl⟩
  obtain ⟨_, modelsAfter, _⟩ := pushStored_models models run
  refine ⟨_, _, run, ?_⟩
  rw [poolReserve_zero, width, models.allocSize, used] at capacity
  rw [Arena.Fits, ← modelsAfter.allocSize, Arena.push_used (Arena.grants_of_memory memory _), capacity]
  exact later

theorem Tree.build_exists {tree : Tree} (memory : ∀ count, env.calloc count = true)
    (models : before.Models arena)
    (fits : arena.Fits (tree.requests ++ rest)) :
    ∃ expr after, Returns (tree.build env) before expr after ∧ (tree.lay env arena).2.Fits rest := by
  induction tree generalizing before arena rest with
  | value operand => exact ⟨_, _, returns_pure.mpr ⟨rfl, rfl⟩, fits⟩
  | blank => exact ⟨_, _, returns_pure.mpr ⟨rfl, rfl⟩, fits⟩
  | node op left right ihLeft ihRight =>
      simp only [Tree.requests, List.append_assoc] at fits
      obtain ⟨leftExpr, _, runLeft, fits⟩ := ihLeft models fits
      obtain ⟨rfl, models, _⟩ := Tree.build_models models runLeft
      obtain ⟨rightExpr, _, runRight, fits⟩ := ihRight models fits
      obtain ⟨rfl, models, _⟩ := Tree.build_models models runRight
      obtain ⟨_, _, pushLeft, fits⟩ :=
        pushStored_exists (.expression (left.lay env arena).1) memory models fits
      obtain ⟨rfl, models, _⟩ := pushStored_models models pushLeft
      obtain ⟨_, _, pushRight, fits⟩ := pushStored_exists
        (.expression (right.lay env (left.lay env arena).2).1) memory models fits
      exact ⟨_, _, Tree.node_returns.mpr ⟨_, _, _, _, runLeft, runRight,
        operatorExpression_returns.mpr ⟨_, _, _, _, pushLeft, pushRight, rfl, rfl⟩⟩, fits⟩

theorem Plan.build_exists {planned : Plan} (memory : ∀ count, env.calloc count = true)
    (models : before.Models arena) (fits : arena.Fits (planned.requests ++ rest)) :
    ∃ result after, Returns (planned.build env) before result after ∧
      (planned.lay env arena).2.Fits (48 :: rest) := by
  rw [Plan.requests, List.append_assoc] at fits
  obtain ⟨_, _, run, fits⟩ := Tree.build_exists memory models fits
  exact ⟨_, _, Plan.build_returns.mpr ⟨_, run, rfl⟩, fits⟩

theorem Plan.store_exists {planned : Plan} (memory : ∀ count, env.calloc count = true)
    (models : before.Models arena) (fits : arena.Fits (planned.requests ++ rest)) :
    ∃ result built handle pushed, Returns (planned.build env) before result built ∧
      Returns (pushStored env (.instruction result.instr)) built handle pushed ∧
      (planned.store env arena).2.Fits rest := by
  obtain ⟨_, _, build, fits⟩ := Plan.build_exists memory models fits
  obtain ⟨instr, models, _⟩ := Plan.build_models models build
  obtain ⟨_, _, push, fits⟩ :=
    pushStored_exists (.instruction (planned.lay env arena).1) memory models fits
  rw [← instr] at push
  exact ⟨_, _, _, _, build, push, fits⟩

theorem writeNext_exists {index : Nat} {instr : Instruction} (next : PoolHandle)
    (models : before.Models arena)
    (found : arena.objects[index]? = some (.instruction instr)) :
    ∃ after, Returns (writeNext (BitVec.ofNat 32 (place Stored.size arena.objects index)) next)
      before () after := by
  simp only [writeNext, returns_get_bind, models.instructionAt found, returns_set]
  exact ⟨_, rfl⟩

end Capacity

section Recursion

variable {env : Environment} {before : Machine} {arena : Arena} {code : List U8} {size : U32}

theorem wordsOf_cons {cells : List U8} {word : U32} {words : List U32}
    (split : wordsOf cells = word :: words) :
    loadWord cells = .ok word ∧ wordsOf (cells.drop 4) = words := by
  match cells, split with
  | byte0 :: byte1 :: byte2 :: byte3 :: rest, split =>
      cases split
      exact ⟨rfl, rfl⟩

def Machine.Marked (machine : Machine) (size : U32) : Prop :=
  machine.program.decodedInstrs.buf.length = (boolset true (size / 4)).buf.length

theorem Machine.Marked.of_same {after : Machine} (marked : before.Marked size)
    (same : after.program.decodedInstrs = before.program.decodedInstrs) : after.Marked size := by
  rw [Marked, same]
  exact marked

theorem Machine.Marked.inside {pos : PoolHandle} {count : Nat} (marked : before.Marked size)
    (whole : size.toNat = pos.toNat + 4 * (count + 1)) :
    Boolset.bytePos (pos / 4) < before.program.decodedInstrs.buf.length := by
  rw [marked]
  refine boolset_inside ?_
  rw [BitVec.lt_def, BitVec.toNat_udiv, BitVec.toNat_udiv]
  change pos.toNat / 4 < size.toNat / 4
  omega

theorem enterCall_exists {pos : PoolHandle} {word : U32} {planned : Plan} {rest : List Nat}
    (memory : ∀ count, env.calloc count = true) (models : before.Models arena)
    (loaded : loadWord (poolGetdata before.program.armPool pos) = .ok word)
    (found : plan word = some planned)
    (fits : arena.Fits (planned.requests ++ rest)) :
    ∃ result pushed, Returns (enterCall env pos) before (result, (planned.store env arena).1) pushed ∧
      result.instr = (planned.lay env arena).1 ∧ pushed.Models (planned.store env arena).2 ∧
      (planned.store env arena).2.Fits rest := by
  have recorded : ({ before with trace := before.trace ++ [.called pos] } : Machine).Models arena :=
    models.of_same rfl rfl rfl
  obtain ⟨result, built, handle, pushed, building, push, fits⟩ := Plan.store_exists memory recorded fits
  have entered : Returns (enterCall env pos) before (result, handle) pushed :=
    enterCall_returns.mpr ⟨word, built, loaded, decode_returns.mpr ⟨planned, found, building⟩, push⟩
  obtain ⟨_, _, again, same, instr, rfl, modelsPushed⟩ := enterCall_models models entered
  cases loaded.symm.trans again
  cases found.symm.trans same
  exact ⟨result, pushed, entered, instr, modelsPushed, fits⟩

/-- A recursion whose calls find what they need, and their instructions a place, returns. -/
theorem imlgenRecurse_of_enters (Ready : List Plan → Arena → Prop) {fuel : Nat} {pos : PoolHandle}
    {plans : List Plan}
    (enters : ∀ {before : Machine} {arena : Arena} {pos : PoolHandle} {word : U32} {planned : Plan}
      {plans : List Plan}, before.Models arena →
      loadWord (poolGetdata before.program.armPool pos) = .ok word → plan word = some planned →
      Ready (planned :: plans) arena →
      (∃ result decoded pushed, Returns (enterCall env pos) before (result, decoded) pushed) ∧
        (planned.lay env arena).2.grants env 48 = true ∧ Ready plans (planned.store env arena).2)
    (models : before.Models arena) (loaded : before.Loaded code size) (marked : before.Marked size)
    (planning : (wordsOf (code.drop pos.toNat)).map plan = plans.map some)
    (nonempty : plans ≠ []) (whole : size.toNat = pos.toNat + 4 * plans.length)
    (ready : Ready plans arena) (enough : plans.length ≤ fuel) :
    ∃ handle after, Returns (imlgenRecurse env fuel pos) before handle after ∧ after.Marked size := by
  induction plans generalizing fuel before arena pos with
  | nil => exact absurd rfl nonempty
  | cons planned plans ih =>
      obtain ⟨fuel, rfl⟩ : ∃ rest, fuel = rest + 1 :=
        ⟨fuel - 1, by simp only [List.length_cons] at enough; omega⟩
      simp only [List.length_cons] at enough whole
      obtain ⟨word, words, split, found, planning⟩ := List.map_eq_cons_iff.mp planning
      obtain ⟨load, split⟩ := wordsOf_cons split
      have range := size.isLt
      have buffer : poolGetdata before.program.armPool pos = code.drop pos.toNat := by
        rw [loaded.armPool, poolGetdata]
      rw [← buffer] at load
      obtain ⟨⟨result, decoded, pushed, entered⟩, granted, ready⟩ := enters models load found ready
      obtain ⟨_, _, again, same, instr, rfl, modelsPushed⟩ := enterCall_models models entered
      cases load.symm.trans again
      cases found.symm.trans same
      have rest := enterCall_closed rest_closed entered
      have marksPushed : pushed.Marked size := marked.of_same rest.decodedInstrs
      have advanced : (pos + 4).toNat = pos.toNat + 4 := by
        rw [BitVec.toNat_add]
        change (pos.toNat + 4) % 2 ^ 32 = _
        omega
      -- the frames below this one return and keep the bytes of the bit set
      obtain ⟨next, recursed, plans, follow, modelsRest, marksRest⟩ : ∃ next recursed later,
          Returns (followCall env fuel size pos result.instr.next) pushed next recursed ∧
          recursed.Models (layPlans env later (planned.store env arena).2).2 ∧ recursed.Marked size := by
        by_cases more : pos + 4 < size
        · have less : (pos + 4).toNat < size.toNat := more
          have remaining : plans ≠ [] := by
            intro equal
            subst equal
            simp only [List.length_nil] at whole
            omega
          have loadedPushed : pushed.Loaded code size :=
            ⟨rest.armPool.trans loaded.armPool, loaded.length⟩
          have less : plans.length ≤ fuel := by omega
          obtain ⟨next, middle, run, marksMiddle⟩ := ih modelsPushed loadedPushed marksPushed
            (by rw [advanced, ← List.drop_drop, split]; exact planning) remaining (by omega) ready less
          obtain ⟨later, _, _, _, modelsMiddle, _⟩ := imlgenRecurse_models modelsPushed loadedPushed run
          obtain ⟨set, written, width⟩ := setBit_ok true (marksMiddle.inside whole)
          refine ⟨next, { middle with program := { middle.program with decodedInstrs := set } },
            later, ?_, modelsMiddle.of_same rfl rfl rfl, width.trans marksMiddle⟩
          rw [followCall_returns, if_pos more]
          exact ⟨middle, set, run, written, rfl⟩
        · refine ⟨result.instr.next, pushed, [], ?_, modelsPushed, marksPushed⟩
          rw [followCall_returns, if_neg more]
          exact ⟨rfl, rfl⟩
      obtain ⟨stored, address⟩ := Plan.store_found granted (layPlans_extends plans)
      obtain ⟨linked, link⟩ := writeNext_exists next modelsRest stored
      obtain ⟨_, restLinked⟩ := writeNext_models modelsRest stored link
      have marksLinked := marksRest.of_same restLinked.decodedInstrs
      have leave : Returns (leaveCall pos (planned.store env arena).1 next) recursed _ _ :=
        leaveCall_returns.mpr ⟨rfl, linked, by rw [address]; exact link,
          getBit_ok (marksLinked.inside whole), rfl⟩
      have capacity : before.program.armPool.allocSize = size := by rw [loaded.armPool]
      rw [← capacity] at follow
      exact ⟨_, _, imlgenRecurse_returns.mpr ⟨result, _, pushed, next, recursed, entered, follow, leave⟩,
        marksLinked⟩

theorem imlgenRecurse_exists {fuel : Nat} {pos : PoolHandle} {plans : List Plan}
    (memory : ∀ count, env.calloc count = true) (models : before.Models arena)
    (loaded : before.Loaded code size)
    (marked : before.Marked size) (planning : (wordsOf (code.drop pos.toNat)).map plan = plans.map some)
    (nonempty : plans ≠ []) (whole : size.toNat = pos.toNat + 4 * plans.length)
    (fits : arena.Fits (plans.flatMap Plan.requests)) (enough : plans.length ≤ fuel) :
    ∃ handle after, Returns (imlgenRecurse env fuel pos) before handle after ∧ after.Marked size := by
  have enters {before : Machine} {arena : Arena} {pos : PoolHandle} {word : U32} {planned : Plan}
      {plans : List Plan} (models : before.Models arena)
      (load : loadWord (poolGetdata before.program.armPool pos) = .ok word)
      (found : plan word = some planned) (fits : arena.Fits ((planned :: plans).flatMap Plan.requests)) :
      (∃ result decoded pushed, Returns (enterCall env pos) before (result, decoded) pushed) ∧
        (planned.lay env arena).2.grants env 48 = true ∧
        (planned.store env arena).2.Fits (plans.flatMap Plan.requests) := by
    obtain ⟨result, pushed, entered, -, -, fits⟩ := enterCall_exists memory models load found fits
    exact ⟨⟨result, _, pushed, entered⟩, Arena.grants_of_memory memory 48, fits⟩
  exact imlgenRecurse_of_enters (fun plans arena => arena.Fits (plans.flatMap Plan.requests)) enters
    models loaded marked planning nonempty whole fits enough

theorem imlgen_exists {fuel : Nat} {plans : List Plan} (memory : ∀ count, env.calloc count = true)
    (length : code.length = size.toNat) (planning : (wordsOf code).map plan = plans.map some)
    (nonempty : plans ≠ [])
    (whole : size.toNat = 4 * plans.length)
    (fits : (Arena.initial size).Fits (plans.flatMap Plan.requests))
    (enough : plans.length ≤ fuel) : ∃ machine, imlgen env fuel code size = .ok machine := by
  have positive := List.length_pos_iff.mpr nonempty
  have marks : (Machine.initial env code size).Marked size := by
    simp [Machine.Marked, Machine.initial, memory]
  obtain ⟨handle, machine, run, _⟩ : ∃ handle after,
      Returns (imlgenRecurse env fuel 0) (.initial env code size) handle after ∧ after.Marked size :=
    imlgenRecurse_exists memory (Machine.initial_models (by rw [memory])) ⟨rfl, length⟩ marks
      planning nonempty (by rw [whole]; exact (Nat.zero_add _).symm) fits enough
  have started : assert (0 < size) = .ok () := by
    rw [assert_eq_ok, BitVec.lt_def, whole]
    exact Nat.mul_pos (by decide) positive
  exact ⟨machine, bind_eq_ok.mpr ⟨(), started, bind_eq_ok.mpr ⟨(handle, machine), run, rfl⟩⟩⟩

end Recursion

/-- No assert of the decoders stops the word. -/
def Accepted (word : U32) : Prop := ∃ result pool, DecodedAlone word result pool

section Accepted

variable {word : U32} {planned : Plan}

theorem Tree.shifted_requests (word : U32) :
    (Tree.shifted word).requests = [] ∨ (Tree.shifted word).requests = [24, 24] := by
  unfold Tree.shifted
  split
  · exact Or.inr rfl
  · exact Or.inl rfl

theorem Plan.binary_requests {op : MathOp} {register : BitVec 5} {second : Tree} {instr : Instruction}
    (few : second.requests = [] ∨ second.requests = [24, 24] ∨ second.requests = [24, 24, 24, 24]) :
    (Plan.mk (.node op (.source register) second) instr).requests = [24, 24, 48] ∨
      (Plan.mk (.node op (.source register) second) instr).requests = [24, 24, 24, 24, 48] ∨
      (Plan.mk (.node op (.source register) second) instr).requests = [24, 24, 24, 24, 24, 24, 48] := by
  have whole : (Plan.mk (.node op (.source register) second) instr).requests =
    second.requests ++ [24, 24] ++ [48] :=
    rfl
  rw [whole]
  rcases few with few | few | few <;> simp [few]

theorem plan_requests (found : plan word = some planned) :
    planned.requests = [48] ∨ planned.requests = [24, 24, 48] ∨ planned.requests = [24, 24, 24, 24, 48] ∨
      planned.requests = [24, 24, 24, 24, 24, 24, 48] := by
  have shifted := Tree.shifted_requests word
  simp only [plan] at found
  repeat' split at found
  all_goals cases found
  · refine Or.inr (Plan.binary_requests ?_)
    split
    · exact Or.inr (Or.inl rfl)
    · exact Or.inl rfl
  · exact Or.inr (Plan.binary_requests (Or.inl rfl))
  · refine Or.inr (Plan.binary_requests ?_)
    split
    · rcases shifted with none | some
      · exact Or.inr (Or.inl (by rw [Tree.requests, none]; rfl))
      · exact Or.inr (Or.inr (by rw [Tree.requests, some]; rfl))
    · exact shifted.imp_right Or.inl
  · exact Or.inr (Plan.binary_requests (shifted.imp_right Or.inl))
  all_goals exact Or.inl rfl

theorem accepted_iff : Accepted word ↔ ∃ planned, plan word = some planned := by
  constructor
  · intro both
    obtain ⟨_, _, alone⟩ := both
    obtain ⟨planned, found, _⟩ := alone.resolves
    exact ⟨planned, found⟩
  · intro both
    obtain ⟨planned, found⟩ := both
    have fits : (Arena.initial 0).Fits planned.requests := by
      have initial : (Arena.initial 0).allocSize.toNat = 0 ∧ (Arena.initial 0).used = 0 := ⟨rfl, rfl⟩
      rw [Arena.Fits, initial.1, initial.2]
      rcases plan_requests found with same | same | same | same <;> rw [same] <;> decide
    rw [← List.append_nil planned.requests] at fits
    obtain ⟨result, after, run, _⟩ : ∃ result after,
        Returns (planned.build .calm) (.initial .calm [] 0) result after ∧ _ :=
      Plan.build_exists (fun _ => rfl) (Machine.initial_models rfl) fits
    exact ⟨result, _, .calm, _, after, 0, fun _ => rfl, rfl,
      decode_returns.mpr ⟨planned, found, run⟩, rfl⟩

instance : Decidable (Accepted word) :=
  decidable_of_iff _ (Option.isSome_iff_exists.trans accepted_iff.symm)

end Accepted

end Koshka.Iml
