import Koshka.Imlgen.Decoded
import Koshka.Imlgen.Failures
import Koshka.Imlgen.Outcome
import Koshka.Imlgen.WellFormed

namespace Koshka.Iml

open Data Arm

/-! How a run of `imlgen` ends where any `calloc` may fail.

An expression that finds no room is lost, and the run goes on without it.  An instruction that finds
none has no place to link the next one from.  That stops the run too, but only after all later words
have been stored.
-/

/-- Every instruction finds room, in a pool that loses what `calloc` refuses. -/
def lodges (env : Environment) : (capacity pos : PoolSize) → (callocs : Nat) → List Nat → Bool
  | _, _, _, [] => true
  | capacity, pos, callocs, size :: rest =>
      if pos + BitVec.ofNat 32 size < capacity then
        lodges env capacity (pos + BitVec.ofNat 32 size) (callocs + 1) rest
      else if env.calloc callocs then
        lodges env (BitVec.ofNat 32 ((capacity + BitVec.ofNat 32 size).toNat * 3 / 2))
          (pos + BitVec.ofNat 32 size) (callocs + 1) rest
      else size != 48 && lodges env capacity pos (callocs + 1) rest

/-- The end of a run, from the words and the answers of `calloc`. -/
def shortageFate (env : Environment) (code : List U8) (size : U32) : Except Fault Unit :=
  if env.calloc 0 then do
    fate code size
    if env.calloc 1 && lodges env (Arena.initial size).allocSize 0 2 (requestsOf (wordsOf code)) then return ()
    else throw .outOfBounds
  else if size = 0 then .error .assertFailed
  else
    match (wordsOf code).head? with
    | some word => .error (if Accepted word then .outOfBounds else planFault word)
    | none => .error .outOfBounds

/-- No size leaves `u32` on these pushes, whichever of them are refused. -/
structure Arena.Roomy (arena : Arena) (requests : List Nat) : Prop where
  small : ∀ request ∈ requests, request ≤ 48
  room : (arena.used + requests.sum + 48) * 3 / 2 < 2 ^ 32

def Arena.Lodges (env : Environment) (arena : Arena) (requests : List Nat) : Prop :=
  lodges env arena.allocSize arena.top arena.callocs requests = true

section Room

variable {env : Environment} {before : Machine} {arena : Arena} {rest : List Nat} {planned : Plan}
  {plans : List Plan} {pos : PoolHandle} {word : U32}

theorem Arena.push_used_le (object : Stored) : (arena.push env object).2.used ≤ arena.used + object.size := by
  cases granted : arena.grants env object.size with
  | true => rw [Arena.push_used granted]
  | false =>
      rw [Arena.push, granted, if_neg Bool.false_ne_true]
      exact Nat.le_add_right arena.used object.size

theorem Arena.Roomy.push (env : Environment) (object : Stored) (roomy : arena.Roomy (object.size :: rest)) :
    (arena.push env object).2.Roomy rest := by
  refine ⟨fun request member => roomy.small request (List.mem_cons_of_mem _ member), ?_⟩
  have less : (arena.push env object).2.used + rest.sum ≤ arena.used + (object.size :: rest).sum := by
    rw [List.sum_cons, ← Nat.add_assoc]
    exact Nat.add_le_add_right (Arena.push_used_le object) _
  exact Nat.lt_of_le_of_lt
    (Nat.div_le_div_right (Nat.mul_le_mul_right 3 (Nat.add_le_add_right less 48))) roomy.room

theorem Tree.lay_roomy {tree : Tree} (roomy : arena.Roomy (tree.requests ++ rest)) :
    (tree.lay env arena).2.Roomy rest := by
  induction tree generalizing arena rest with
  | value operand => exact roomy
  | blank => exact roomy
  | node op left right ihLeft ihRight =>
      rw [Tree.requests, List.append_assoc, List.append_assoc] at roomy
      have operands : (right.lay env (left.lay env arena).2).2.Roomy (24 :: 24 :: rest) :=
        ihRight (ihLeft roomy)
      have first := operands.push env (.expression (left.lay env arena).1)
      have second := first.push env (.expression (right.lay env (left.lay env arena).2).1)
      exact ⟨second.small, second.room⟩

theorem Plan.store_roomy (roomy : arena.Roomy (planned.requests ++ rest)) :
    (planned.store env arena).2.Roomy rest := by
  rw [Plan.requests, List.append_assoc] at roomy
  have tree : (planned.lay env arena).2.Roomy (48 :: rest) := Tree.lay_roomy roomy
  exact tree.push env (.instruction (planned.lay env arena).1)

/-- While there is room, every push returns. -/
theorem roomy_serving : Serving env Arena.Roomy := by
  intro object before arena rest models roomy
  have width := object.size_toNat
  have positive := object.size_positive
  have used := models.pos.2
  have small : object.size ≤ 48 := roomy.small _ List.mem_cons_self
  have room := roomy.room
  rw [List.sum_cons, ← used] at room
  have exact : (BitVec.ofNat 32 object.size).toNat ≤ (image Stored.size object).length :=
    Nat.le_of_eq (by rw [image_length, width])
  have pushes {handle : PoolHandle} {pool : ImlPool}
      (pushed : poolPush (env.calloc before.callocs) before.program.imlPool (image Stored.size object)
        (BitVec.ofNat 32 object.size) 0 = .ok (handle, pool)) :
      ∃ handle after, Returns (pushStored env object) before handle after ∧
        (arena.push env object).2.Roomy rest :=
    ⟨handle, _, pushStored_returns.mpr ⟨pool, pushed, rfl⟩, roomy.push env object⟩
  by_cases held : before.program.imlPool.pos.toNat + object.size < before.program.imlPool.allocSize.toNat
  · have inside : before.program.imlPool.pos.toNat + (poolReserve (BitVec.ofNat 32 object.size) 0).toNat <
        before.program.imlPool.allocSize.toNat := by
      rw [poolReserve_zero, width]
      exact held
    obtain ⟨pool, pushed, -⟩ := poolPush_held models.stored exact (Or.inl rfl) inside
    exact pushes pushed
  · cases answer : env.calloc before.callocs with
    | true =>
        have fits : SizeFits before.program.imlPool.allocSize.toNat before.program.imlPool.pos.toNat
            (poolReserve (BitVec.ofNat 32 object.size) 0).toNat := by
          rw [poolReserve_zero, width, SizeFits, capacityAfter, if_neg held]
          omega
        obtain ⟨pool, pushed, -⟩ := poolPush_holds models.stored exact (Or.inl rfl)
          (by rw [poolReserve_zero, width]; exact positive) fits
        exact pushes (by rw [answer]; exact pushed)
    | false =>
        have refuses : before.Refuses env object := by
          refine ⟨?_, ?_, answer⟩
          · rw [← Bool.not_eq_true, poolCanHold_iff, width]
            omega
          · have inside : before.program.imlPool.allocSize.toNat + object.size < 2 ^ 32 := by omega
            have grown : (before.program.imlPool.allocSize.toNat + object.size) * 3 / 2 < 2 ^ 32 := by omega
            rw [BitVec.lt_def, poolNewsize_toNat, width, Nat.mod_eq_of_lt inside, Nat.mod_eq_of_lt grown]
            omega
        exact ⟨_, _, pushStored_refused refuses, roomy.push env object⟩

theorem Arena.lodges_push (object : Stored) : arena.Lodges env (object.size :: rest) ↔
    (object.size = 48 → arena.grants env object.size = true) ∧ (arena.push env object).2.Lodges env rest := by
  have moved (granted : arena.grants env object.size = true) :
      (arena.push env object).2.top = arena.top + BitVec.ofNat 32 object.size := by
    rw [top, Arena.push_used granted, BitVec.ofNat_add, top]
  by_cases room : arena.top + BitVec.ofNat 32 object.size < arena.allocSize
  · have held : arena.canHold object.size = true := decide_eq_true room
    have granted : arena.grants env object.size = true := by rw [grants, held, Bool.true_or]
    rw [Lodges, lodges, if_pos room, Lodges, moved granted, and_iff_right fun _ => granted]
    simp only [push, if_pos granted, grown, if_pos held]
  · have full : arena.canHold object.size = false := decide_eq_false room
    have granted : arena.grants env object.size = env.calloc arena.callocs := by
      rw [grants, full, Bool.false_or]
    cases answer : env.calloc arena.callocs with
    | true =>
        have place := granted.trans answer
        rw [Lodges, lodges, if_neg room, if_pos answer, Lodges, moved place, and_iff_right fun _ => place]
        simp only [push, if_pos place, grown, full, Bool.false_eq_true, if_false]
    | false =>
        have refused := granted.trans answer
        rw [Lodges, lodges, if_neg room, answer, if_neg Bool.false_ne_true, Bool.and_eq_true, bne_iff_ne,
          refused]
        refine and_congr ⟨fun other same => absurd same other, fun none same => ?_⟩ ?_
        · exact absurd (none same) Bool.false_ne_true
        · rw [Arena.push, refused, if_neg Bool.false_ne_true]
          rfl

theorem Arena.lodges_expression (expr : Expression) :
    arena.Lodges env (24 :: rest) ↔ (arena.push env (.expression expr)).2.Lodges env rest := by
  have other : ¬ 24 = 48 := by decide
  exact (Arena.lodges_push (.expression expr)).trans (and_iff_right fun same => absurd same other)

theorem Tree.lodges_append {tree : Tree} : arena.Lodges env (tree.requests ++ rest) ↔
    (tree.lay env arena).2.Lodges env rest := by
  induction tree generalizing arena rest with
  | value operand => exact Iff.rfl
  | blank => exact Iff.rfl
  | node op left right ihLeft ihRight =>
      rw [Tree.requests, List.append_assoc, List.append_assoc, ihLeft, ihRight, List.cons_append,
        List.cons_append, List.nil_append, Arena.lodges_expression (left.lay env arena).1,
        Arena.lodges_expression (right.lay env (left.lay env arena).2).1]
      rfl

theorem Plan.lodges_append : arena.Lodges env (planned.requests ++ rest) ↔
    (planned.lay env arena).2.grants env 48 = true ∧ (planned.store env arena).2.Lodges env rest := by
  rw [Plan.requests, List.append_assoc, Tree.lodges_append]
  exact (Arena.lodges_push (.instruction (planned.lay env arena).1)).trans
    (and_congr_left fun _ => ⟨fun granted => granted rfl, fun granted _ => granted⟩)

theorem plans_lodge : arena.Lodges env (plans.flatMap Plan.requests) ↔ Placed env plans arena := by
  induction plans generalizing arena with
  | nil => exact iff_of_true rfl trivial
  | cons planned plans ih => rw [List.flatMap_cons, Plan.lodges_append, ih, Placed]

/-- While there is room, every word that is accepted is decoded and stored. -/
theorem enterCall_roomy (models : before.Models arena)
    (loaded : loadWord (poolGetdata before.program.armPool pos) = .ok word)
    (found : plan word = some planned) (roomy : arena.Roomy (planned.requests ++ rest)) :
    ∃ result decoded pushed, Returns (enterCall env pos) before (result, decoded) pushed := by
  obtain ⟨_, _, _, push, -⟩ := pushWord_exists roomy_serving models found roomy
  exact enterCall_of_pushes loaded (accepted_iff.mpr ⟨planned, found⟩) push rfl

end Room

section Opened

variable {env : Environment} {before after : Machine} {code : List U8} {size : U32} {fuel index : Nat}
  {pos handle : PoolHandle} {plans : List Plan} {fault : Fault}

theorem initial_roomy (short : (wordsOf code).length ≤ 14913080) :
    (Arena.initial size).Roomy (requestsOf (wordsOf code)) := by
  obtain ⟨small, sum⟩ := requestsOf_small (wordsOf code)
  refine ⟨small, ?_⟩
  have empty : (Arena.initial size).used = 0 := rfl
  rw [empty, Nat.zero_add]
  omega

theorem opened_pushes (opened : env.calloc 0 = true) (short : (wordsOf code).length ≤ 14913080) :
    PushesReturn env code size :=
  pushesReturn_of_serving roomy_serving (Machine.initial_models (by rw [opened])) (initial_roomy short)

/-- With a pool and a bit set, a run returns if every instruction finds room. -/
theorem imlgen_lodged (length : code.length = size.toNat) (opened : env.calloc 0 = true)
    (marked : env.calloc 1 = true) (short : (wordsOf code).length ≤ 14913080)
    (planning : (wordsOf code).map plan = plans.map some) (nonempty : plans ≠ [])
    (whole : size.toNat = 4 * plans.length) (placed : Placed env plans (.initial size))
    (enough : plans.length ≤ fuel) : ∃ machine, imlgen env fuel code size = .ok machine := by
  have positive := List.length_pos_iff.mpr nonempty
  have marks : (Machine.initial env code size).Marked size := by
    simp [Machine.Marked, Machine.initial, marked]
  have roomy : (Arena.initial size).Roomy (plans.flatMap Plan.requests) := by
    rw [← requestsOf_planned planning]
    exact initial_roomy short
  have enters {before : Machine} {arena : Arena} {pos : PoolHandle} {word : U32} {planned : Plan}
      {plans : List Plan} (models : before.Models arena)
      (loaded : loadWord (poolGetdata before.program.armPool pos) = .ok word)
      (found : plan word = some planned)
      (ready : arena.Roomy ((planned :: plans).flatMap Plan.requests) ∧ Placed env (planned :: plans) arena) :
      (∃ result decoded pushed, Returns (enterCall env pos) before (result, decoded) pushed) ∧
        (planned.lay env arena).2.grants env 48 = true ∧
        (planned.store env arena).2.Roomy (plans.flatMap Plan.requests) ∧
        Placed env plans (planned.store env arena).2 := by
    obtain ⟨roomy, granted, placed⟩ := ready
    exact ⟨enterCall_roomy models loaded found roomy, granted, Plan.store_roomy roomy, placed⟩
  obtain ⟨handle, machine, run, _⟩ : ∃ handle after,
      Returns (imlgenRecurse env fuel 0) (.initial env code size) handle after ∧ after.Marked size :=
    imlgenRecurse_of_enters
      (fun plans arena => arena.Roomy (plans.flatMap Plan.requests) ∧ Placed env plans arena) enters
      (Machine.initial_models (by rw [opened])) ⟨rfl, length⟩ marks planning nonempty
      (by rw [whole]; exact (Nat.zero_add _).symm) ⟨roomy, placed⟩ enough
  have started : assert (0 < size) = .ok () := by
    rw [assert_eq_ok, BitVec.lt_def, whole]
    exact Nat.mul_pos (by decide) positive
  exact ⟨machine, bind_eq_ok.mpr ⟨(), started, bind_eq_ok.mpr ⟨(handle, machine), run, rfl⟩⟩⟩

/-- A run whose calls do not stop at their words stops outside of a buffer. -/
theorem Called.stops_outside (positive : 0 < size)
    (words : ∀ index pos before fault, Called env (.initial env code size) index pos before →
      Fails (enterCall env pos) before fault → fault = .outOfBounds)
    (called : Called env (.initial env code size) index pos before)
    (enough : size.toNat ≤ 4 * (index + fuel)) (failed : Fails (imlgenRecurse env fuel pos) before fault) :
    fault = .outOfBounds := by
  induction fuel generalizing index pos before with
  | zero =>
      have inside := (called.position positive).2
      omega
  | succ fuel ih =>
      rcases imlgenRecurse_fails failed with stopped | outside | ⟨_, _, _, entered, guard, stopped⟩
      · exact words index pos before fault called stopped
      · exact outside
      · exact ih (.next called entered guard) (by omega) stopped

theorem imlgen_stops_outside (positive : 0 < size)
    (words : ∀ index pos before fault, Called env (.initial env code size) index pos before →
      Fails (enterCall env pos) before fault → fault = .outOfBounds)
    (enough : size.toNat ≤ 4 * fuel) (stuck : ∀ machine, imlgen env fuel code size ≠ .ok machine) :
    imlgen env fuel code size = .error .outOfBounds := by
  rcases returns_or_fails (imlgenRecurse env fuel 0) (.initial env code size) with
    ⟨handle, machine, run⟩ | ⟨fault, failed⟩
  · have started : assert (0 < size) = .ok () := assert_true positive
    have returned : imlgen env fuel code size = .ok machine :=
      bind_eq_ok.mpr ⟨(), started, bind_eq_ok.mpr ⟨(handle, machine), run, rfl⟩⟩
    exact absurd returned (stuck machine)
  · have outside := Called.stops_outside positive words .first (by omega) failed
    rw [← outside]
    exact imlgen_of_fails positive failed

theorem Called.enters {word : U32} (positive : 0 < size) (pushes : PushesReturn env code size)
    (called : Called env (.initial env code size) index pos before)
    (found : (wordsOf code)[index]? = some word) (accepted : ∀ word ∈ wordsOf code, Accepted word) :
    ∃ result decoded pushed, Returns (enterCall env pos) before (result, decoded) pushed := by
  obtain ⟨after, run⟩ := pushes (index + 1) fun word member => accepted word (List.mem_of_mem_take member)
  obtain ⟨middle, handle, earlier, push⟩ := (pushWords_take found).mp run
  obtain ⟨_, other, again, same⟩ := called.stores positive
  cases earlier.symm.trans again
  have loaded : loadWord (poolGetdata before.program.armPool pos) = .ok word := by
    rw [called.armPool, poolGetdata, (called.position positive).1]
    exact wordsOf_found found
  exact enterCall_of_pushes loaded (accepted word (List.mem_of_getElem? found)) push same

/-- Where no word stops the run, a missing bit set or an instruction without room does. -/
theorem imlgen_opened (length : code.length = size.toNat) (opened : env.calloc 0 = true)
    (short : (wordsOf code).length ≤ 14913080) (positive : 0 < size) (whole : size.toNat % 4 = 0)
    (accepted : ∀ word ∈ wordsOf code, Accepted word) (enough : (wordsOf code).length ≤ fuel) :
    (imlgen env fuel code size).map (fun _ => ()) =
      if env.calloc 1 && lodges env (Arena.initial size).allocSize 0 2 (requestsOf (wordsOf code)) then .ok ()
      else .error .outOfBounds := by
  obtain ⟨plans, planning⟩ := accepted_planned accepted
  have count : (wordsOf code).length = plans.length := by simpa using congrArg List.length planning
  have words := wordsOf_length code
  have some_byte : 0 < size.toNat := positive
  have nonempty : plans ≠ [] := List.length_pos_iff.mp (by omega)
  have places : lodges env (Arena.initial size).allocSize 0 2 (requestsOf (wordsOf code)) = true ↔
      Placed env plans (.initial size) := by
    rw [requestsOf_planned planning]
    exact plans_lodge
  split
  · rename_i both
    obtain ⟨marked, lodged⟩ := Bool.and_eq_true_iff.mp both
    obtain ⟨machine, run⟩ := imlgen_lodged length opened marked short planning nonempty (by omega)
      (places.mp lodged) (count ▸ enough)
    rw [run]
    rfl
  · rename_i neither
    have stuck (machine : Machine) : imlgen env fuel code size ≠ .ok machine := by
      intro run
      obtain ⟨others, again, -, placed, -⟩ := imlgen_models length run
      have same : others = plans := (filterMap_planned again).symm.trans (filterMap_planned planning)
      subst same
      obtain ⟨handle, recursion⟩ := imlgen_recursion run
      have marked := imlgen_opens_set positive whole recursion
      exact neither (Bool.and_eq_true_iff.mpr ⟨marked, places.mpr placed⟩)
    have finds (index : Nat) (pos : PoolHandle) (before : Machine) (fault : Fault)
        (called : Called env (.initial env code size) index pos before)
        (failed : Fails (enterCall env pos) before fault) : fault = .outOfBounds := by
      have inside := (called.position positive).2
      have bound : index < (wordsOf code).length := by omega
      obtain ⟨_, _, _, entered⟩ := called.enters positive (opened_pushes opened short)
        (List.getElem?_eq_getElem bound) accepted
      exact absurd failed entered.not_fails
    rw [imlgen_stops_outside positive finds (by omega) stuck]
    rfl

end Opened

section Shut

variable {env : Environment} {before after : Machine} {code : List U8} {size : U32} {fuel index : Nat}
  {pos handle : PoolHandle} {capacity : PoolSize} {object : Stored} {word : U32} {fault : Fault}

/-- The pool that `pool_open` makes when its `calloc` fails. -/
def Machine.Shut (capacity : PoolSize) (machine : Machine) : Prop :=
  machine.program.imlPool = { data := [], allocSize := capacity, pos := 0 }

theorem shut_closed (positive : 0 < capacity.toNat) :
    PushClosed env fun before after => before.Shut capacity → after.Shut capacity where
  refl _ := id
  trans one two shut := two (one shut)
  push push shut := by
    rename_i object handle before after
    obtain ⟨pool, pushed, rfl⟩ := pushStored_returns.mp push
    rw [shut] at pushed
    exact poolPush_unopened rfl positive (by rw [object.size_toNat]; exact object.size_positive) pushed
  slot _ _ := id

theorem pushStored_shut (shut : before.Shut capacity) (few : capacity.toNat < 2 ^ 31)
    (failed : Fails (pushStored env object) before fault) : fault = .outOfBounds := by
  simp only [pushStored, fails_bind, not_fails_get, returns_get, returns_lift, fails_lift, not_fails_set,
    not_fails_pure, false_or, or_false, and_false, exists_false] at failed
  obtain ⟨_, _, ⟨rfl, rfl⟩, stopped⟩ := failed
  rw [shut, poolPush, poolReserve_zero] at stopped
  split at stopped
  · exact poolStore_error stopped
  · have small : object.size ≤ 48 := by cases object <;> simp [Stored.size]
    have positive := object.size_positive
    have larger : capacity < poolNewsize ({ data := [], allocSize := capacity, pos := 0 } : ImlPool)
        (BitVec.ofNat 32 object.size) := by
      have inside : capacity.toNat + object.size < 2 ^ 32 := by omega
      have grown : (capacity.toNat + object.size) * 3 / 2 < 2 ^ 32 := by omega
      rw [BitVec.lt_def, poolNewsize_toNat, object.size_toNat, Nat.mod_eq_of_lt inside,
        Nat.mod_eq_of_lt grown]
      omega
    rw [poolGrow, if_pos larger] at stopped
    split at stopped
    · rcases bind_eq_error.mp stopped with growth | ⟨grown, growth, stored⟩
      · rcases bind_eq_error.mp growth with copied | ⟨_, _, done⟩
        · exact memcpy_error copied
        · cases done
      · cases grown with
        | none => cases stored
        | some grown => exact poolStore_error stored
    · cases stopped

theorem enterCall_shut {planned : Plan} (positive : 0 < capacity.toNat) (few : capacity.toNat < 2 ^ 31)
    (shut : before.Shut capacity)
    (loaded : loadWord (poolGetdata before.program.armPool pos) = .ok word) (found : plan word = some planned)
    (failed : Fails (enterCall env pos) before fault) : fault = .outOfBounds := by
  have recorded : ({ before with trace := before.trace ++ [.called pos] } : Machine).Shut capacity := shut
  have expressions {count : Nat} {before : Machine} (shut : before.Shut capacity)
      (failed : Fails (pushExpressions env count) before fault) : fault = .outOfBounds := by
    induction count generalizing before with
    | zero => exact absurd failed not_fails_pure
    | succ count ih =>
        rcases fails_bind.mp failed with stopped | ⟨_, middle, push, stopped⟩
        · exact pushStored_shut shut few stopped
        · exact ih ((shut_closed positive).push push shut) stopped
  simp only [enterCall, record, fails_bind, not_fails_modify, returns_modify, not_fails_get, returns_get,
    fails_lift, returns_lift, not_fails_pure, false_or, and_false, exists_false, or_false] at failed
  obtain ⟨_, _, rfl, _, _, ⟨rfl, rfl⟩, unread | ⟨_, _, ⟨again, rfl⟩, decoding⟩⟩ := failed
  · exact loadWord_fails unread
  · cases loaded.symm.trans again
    rcases decoding with stopped | ⟨result, built, decoding, stopped⟩
    · rw [decode_eq, found] at stopped
      exact expressions recorded ((Plan.build_alike planned).fails rfl stopped)
    · exact pushStored_shut (decode_closed (shut_closed positive) decoding recorded) few stopped

theorem Called.shut (positive : 0 < capacity.toNat) (shut : (Machine.initial env code size).Shut capacity)
    (called : Called env (.initial env code size) index pos before) : before.Shut capacity := by
  induction called with
  | first => exact shut
  | next called entered guard ih => exact enterCall_closed (shut_closed positive) entered ih

/-- Only a buffer that is too small for one instruction lets a call be made from another. -/
theorem Called.shut_first (positive : 0 < capacity.toNat)
    (shut : (Machine.initial env code size).Shut capacity)
    (called : Called env (.initial env code size) index pos before) : index = 0 ∨ capacity.toNat ≤ 48 := by
  cases called with
  | first => exact Or.inl rfl
  | next called entered guard =>
      rename_i index pos decoded machine result
      right
      by_contra larger
      obtain ⟨word, built, -, decoding, push⟩ := enterCall_returns.mp entered
      have reached := called.shut positive shut
      have recorded : ({ machine with trace := machine.trace ++ [.called pos] } : Machine).Shut capacity :=
        reached
      have before : built.Shut capacity := decode_closed (shut_closed positive) decoding recorded
      obtain ⟨pool, pushed, -⟩ := pushStored_returns.mp push
      rw [before, poolPush, poolReserve_zero] at pushed
      have held : poolCanHold ({ data := [], allocSize := capacity, pos := 0 } : ImlPool) 48 = true := by
        rw [poolCanHold_iff]
        change (0 + 48) % 2 ^ 32 < capacity.toNat
        omega
      rw [show BitVec.ofNat 32 (Stored.size (.instruction _)) = 48 from rfl, if_pos held, poolStore,
        memcpy_fault (Or.inr (by simp))] at pushed
      cases pushed

theorem imlgen_shut (length : code.length = size.toNat) (closed : env.calloc 0 = false)
    (short : (wordsOf code).length ≤ 14913080) (positive : 0 < size)
    (found : (wordsOf code).head? = some word) (accepted : Accepted word)
    (enough : size.toNat ≤ 4 * fuel) : imlgen env fuel code size = .error .outOfBounds := by
  have count : (wordsOf code).length = size.toNat / 4 := by rw [wordsOf_length, length]
  have some_word : 0 < (wordsOf code).length := by
    rw [List.length_pos_iff]
    intro none
    rw [none] at found
    cases found
  have width := initial_allocSize length (by omega)
  have room : 0 < (Arena.initial size).allocSize.toNat := by omega
  have shut : (Machine.initial env code size).Shut (Arena.initial size).allocSize := by
    simp [Machine.Shut, Machine.initial, poolOpen, calloc, closed, Arena.initial]
  have finds (index : Nat) (pos : PoolHandle) (before : Machine) (fault : Fault)
      (called : Called env (.initial env code size) index pos before)
      (failed : Fails (enterCall env pos) before fault) : fault = .outOfBounds := by
    have machine := called.shut room shut
    cases load : loadWord (poolGetdata before.program.armPool pos) with
    | error other =>
        have outside : Fails (enterCall env pos) before other := enterCall_unread load
        rw [failed.unique outside]
        exact loadWord_fails load
    | ok read =>
        have there := called.reads positive load
        have bound := (List.getElem?_eq_some_iff.mp there).1
        have first : index = 0 := (called.shut_first room shut).elim id fun few => by omega
        subst first
        rw [← List.head?_eq_getElem?, found] at there
        cases there
        obtain ⟨planned, plans⟩ := accepted_iff.mp accepted
        exact enterCall_shut room (by omega) machine load plans failed
  refine imlgen_stops_outside positive finds enough fun machine run => ?_
  obtain ⟨handle, recursion⟩ := imlgen_recursion run
  have opened : (Machine.initial env code size).program.imlPool =
    { data := [], allocSize := (Arena.initial size).allocSize, pos := 0 } := shut
  exact imlgenRecurse_unopened ⟨by rw [opened], by rw [opened]; exact room⟩ recursion

end Shut

/-- Whatever `calloc` answers, a run ends as the words and the answers say. -/
theorem imlgen_shortage (env : Environment) (fuel : Nat) (code : List U8) (size : U32)
    (length : code.length = size.toNat) (short : (wordsOf code).length ≤ 14913080)
    (enough : (wordsOf code).length < fuel) :
    (imlgen env fuel code size).map (fun _ => ()) = shortageFate env code size := by
  have count : (wordsOf code).length = size.toNat / 4 := by rw [wordsOf_length, length]
  unfold shortageFate
  cases opened : env.calloc 0 with
  | true =>
      rw [if_pos rfl]
      cases stops : fate code size with
      | error fault =>
          rw [imlgen_stops length (opened_pushes opened short) enough stops]
          rfl
      | ok done =>
          obtain ⟨positive, whole, accepted⟩ := fate_ok_iff.mp stops
          exact imlgen_opened length opened short positive whole accepted (Nat.le_of_lt enough)
  | false =>
      rw [if_neg Bool.false_ne_true]
      split
      · rename_i empty
        rw [empty]
        rfl
      · rename_i nonzero
        have positive := size_positive nonzero
        split
        · rename_i word found
          split
          · rename_i accepted
            rw [imlgen_shut length opened short positive found accepted (by omega)]
            rfl
          · rename_i rejected
            have first : (wordsOf code)[0]? = some word := by rw [← List.head?_eq_getElem?, found]
            have none_before : ∀ word ∈ (wordsOf code).take 0, Accepted word := by simp
            have loaded : loadWord (poolGetdata (Machine.initial env code size).program.armPool 0) = .ok word :=
              wordsOf_found first
            obtain ⟨more, rfl⟩ : ∃ more, fuel = more + 1 := ⟨fuel - 1, by omega⟩
            rw [imlgen_of_fails positive
              (imlgenRecurse_enter_fails (enterCall_rejects loaded (accepted_none.mp rejected)))]
            rfl
        · rename_i none
          have unread : loadWord (poolGetdata (Machine.initial env code size).program.armPool 0) =
              .error .outOfBounds := by
            cases load : loadWord code with
            | ok word =>
                rw [(loadWord_wordsOf load).2] at none
                cases none
            | error fault => exact load.trans (congrArg Except.error (loadWord_fails load))
          obtain ⟨more, rfl⟩ : ∃ more, fuel = more + 1 := ⟨fuel - 1, by omega⟩
          rw [imlgen_of_fails positive (imlgenRecurse_enter_fails (enterCall_unread unread))]
          rfl

end Koshka.Iml
