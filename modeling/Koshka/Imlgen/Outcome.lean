import Koshka.Imlgen.Calls
import Koshka.Imlgen.Translation

namespace Koshka.Iml

open Data Arm

/-- The end of a run, from the words alone. -/
def fate (code : List U8) (size : U32) : Except Fault Unit :=
  if size = 0 then .error .assertFailed
  else
    match (wordsOf code).find? fun word => ¬ Accepted word with
    | some word => .error (planFault word)
    | none => if size.toNat % 4 = 0 then .ok () else .error .outOfBounds

section Sizes

/-- Requests that are small against what is left of `u32` never leave it. -/
theorem sizesFit_of_sum {requests : List Nat} {capacity pos limit : Nat}
    (small : ∀ request ∈ requests, request ≤ 48) (start : capacity ≤ limit)
    (room : (pos + requests.sum + 48) * 3 / 2 ≤ limit) (inside : limit < 2 ^ 32) :
    SizesFit capacity pos (requests.map some) := by
  induction requests generalizing capacity pos with
  | nil => exact trivial
  | cons request requests ih =>
      obtain ⟨first, small⟩ := List.forall_mem_cons.mp small
      rw [List.sum_cons, ← Nat.add_assoc] at room
      have grown : capacityAfter capacity pos request ≤ limit := by
        unfold capacityAfter
        split
        · exact start
        · omega
      exact ⟨⟨by omega, Nat.lt_of_le_of_lt grown inside⟩, ih small grown room⟩

theorem requestsOf_small (words : List U32) :
    (∀ request ∈ requestsOf words, request ≤ 48) ∧ (requestsOf words).sum ≤ 192 * words.length := by
  induction words with
  | nil => exact ⟨by simp [requestsOf], by simp [requestsOf]⟩
  | cons word words ih =>
      have split : requestsOf (word :: words) =
          ((plan word).map Plan.requests).getD [] ++ requestsOf words := rfl
      have first : (∀ request ∈ ((plan word).map Plan.requests).getD [], request ≤ 48) ∧
          (((plan word).map Plan.requests).getD []).sum ≤ 192 := by
        cases found : plan word with
        | none => simp
        | some planned =>
            rw [Option.map_some, Option.getD_some]
            rcases plan_requests found with same | same | same | same <;> rw [same] <;> decide
      rw [split, List.sum_append, List.length_cons]
      refine ⟨fun request member => ?_, by omega⟩
      rcases List.mem_append.mp member with here | later
      · exact first.1 request here
      · exact ih.1 request later

end Sizes

/-- No buffer of up to 14913080 words makes the pool leave `u32`, whatever its words are. -/
theorem sizesInside_of_length (words : List U32) (short : words.length ≤ 14913080) :
    SizesInside words := by
  obtain ⟨small, sum⟩ := requestsOf_small words
  have start : 48 * words.length ≤ 2 ^ 32 - 1 := by omega
  exact ⟨by omega, sizesFit_of_sum small start (by omega) (by decide)⟩

theorem filterMap_planned {words : List U32} {plans : List Plan} (planning : words.map plan = plans.map some) :
    words.filterMap plan = plans := by
  have same : (words.map plan).filterMap id = (plans.map some).filterMap id := by rw [planning]
  simpa [List.filterMap_map, Function.comp_def] using same

section Pushes

variable {env : Environment} {Ready : Arena → List Nat → Prop} {before : Machine} {arena : Arena}
  {rest : List Nat} {words : List U32}

/-- What promises an arena that pushes of these sizes return. -/
def Serving (env : Environment) (Ready : Arena → List Nat → Prop) : Prop :=
  ∀ (object : Stored) (before : Machine) (arena : Arena) (rest : List Nat), before.Models arena →
    Ready arena (object.size :: rest) →
    ∃ handle after, Returns (pushStored env object) before handle after ∧
      Ready (arena.push env object).2 rest

theorem fits_serving (memory : ∀ count, env.calloc count = true) : Serving env Arena.Fits :=
  fun object _ _ _ models fits => pushStored_exists object memory models fits

theorem pushExpressions_exists {count : Nat} (serving : Serving env Ready) (models : before.Models arena)
    (ready : Ready arena (List.replicate count 24 ++ rest)) :
    ∃ after later, Returns (pushExpressions env count) before () after ∧ after.Models later ∧
      Ready later rest := by
  induction count generalizing before arena with
  | zero => exact ⟨before, arena, returns_pure.mpr ⟨rfl, rfl⟩, models, ready⟩
  | succ count ih =>
      obtain ⟨handle, middle, push, ready⟩ := serving (.expression .blank) before arena _ models ready
      obtain ⟨after, later, pushes, modelsAfter, ready⟩ := ih (pushStored_models models push).2.1 ready
      exact ⟨after, later, returns_bind.mpr ⟨handle, middle, push, pushes⟩, modelsAfter, ready⟩

/-- Only expressions are pushed for a tree. -/
theorem Tree.requests_expressions (tree : Tree) : ∀ request ∈ tree.requests, request = 24 := by
  induction tree with
  | value operand => simp [Tree.requests]
  | blank => simp [Tree.requests]
  | node op left right ihLeft ihRight =>
      intro request member
      simp only [Tree.requests, List.mem_append, List.mem_cons, List.not_mem_nil, or_false,
        or_self] at member
      rcases member with (member | member) | last
      · exact ihLeft request member
      · exact ihRight request member
      · exact last

theorem plan_requests_expressions {word : U32} {planned : Plan} (found : plan word = some planned) :
    planned.requests = List.replicate (pushCount word) 24 ++ [48] := by
  rw [pushCount, found, Option.elim_some, Plan.requests]
  exact congrArg (· ++ [48]) (List.eq_replicate_iff.mpr ⟨rfl, planned.tree.requests_expressions⟩)

theorem pushWord_exists {word : U32} {planned : Plan} (serving : Serving env Ready)
    (models : before.Models arena) (found : plan word = some planned)
    (ready : Ready arena (planned.requests ++ rest)) :
    ∃ handle after later, Returns (pushWord env word) before handle after ∧ after.Models later ∧
      Ready later rest := by
  rw [plan_requests_expressions found, List.append_assoc] at ready
  obtain ⟨middle, arena, pushes, models, ready⟩ := pushExpressions_exists serving models ready
  obtain ⟨handle, after, push, ready⟩ := serving (.instruction .blank) middle arena rest models ready
  exact ⟨handle, after, _, returns_bind.mpr ⟨(), middle, pushes, push⟩,
    (pushStored_models models push).2.1, ready⟩

theorem pushWords_exists (serving : Serving env Ready) (models : before.Models arena)
    (accepted : ∀ word ∈ words, Accepted word) (ready : Ready arena (requestsOf words ++ rest)) :
    ∃ after, Returns (pushWords env words) before () after := by
  induction words generalizing before arena with
  | nil => exact ⟨before, returns_pure.mpr ⟨rfl, rfl⟩⟩
  | cons word words ih =>
      obtain ⟨first, accepted⟩ := List.forall_mem_cons.mp accepted
      obtain ⟨planned, found⟩ := accepted_iff.mp first
      have split : requestsOf (word :: words) = planned.requests ++ requestsOf words := by
        rw [requestsOf, List.flatMap_cons, found]
        rfl
      rw [split, List.append_assoc] at ready
      obtain ⟨handle, pushed, later, push, models, ready⟩ := pushWord_exists serving models found ready
      obtain ⟨after, run⟩ := ih models accepted ready
      exact ⟨after, returns_bind.mpr ⟨handle, pushed, push, run⟩⟩

end Pushes

section Stops

variable {env : Environment} {start before : Machine} {code : List U8} {size word : U32} {index fuel : Nat}
  {pos : PoolHandle} {fault : Fault}

theorem enterCall_unread (unread : loadWord (poolGetdata before.program.armPool pos) = .error fault) :
    Fails (enterCall env pos) before fault := by
  simp only [enterCall, record, fails_bind, not_fails_modify, returns_modify, not_fails_get, returns_get,
    fails_lift, returns_lift, false_or]
  exact ⟨(), _, rfl, _, _, ⟨rfl, rfl⟩, Or.inl unread⟩

theorem imlgen_of_fails (positive : 0 < size)
    (failed : Fails (imlgenRecurse env fuel 0) (.initial env code size) fault) :
    imlgen env fuel code size = .error fault := by
  have started : assert (0 < size) = .ok () := assert_true positive
  refine bind_eq_error.mpr (Or.inr ⟨(), started, bind_eq_error.mpr (Or.inl failed)⟩)

theorem imlgen_recursion {machine : Machine} (run : imlgen env fuel code size = .ok machine) :
    ∃ handle, Returns (imlgenRecurse env fuel 0) (.initial env code size) handle machine := by
  simp only [imlgen, bind_eq_ok] at run
  obtain ⟨_, _, ⟨handle, _⟩, recursion, same⟩ := run
  cases same
  exact ⟨handle, recursion⟩

end Stops

section Fate

variable {env : Environment} {before : Machine} {code : List U8} {size word : U32} {index : Nat}

theorem accepted_none : ¬ Accepted word ↔ plan word = none := by
  rw [accepted_iff, Option.eq_none_iff_forall_ne_some, not_exists]

theorem numInstrs_words (length : code.length = size.toNat) :
    (size / 4).toNat * 48 = 48 * (wordsOf code).length := by
  rw [wordsOf_length, length, Nat.mul_comm]
  rfl

theorem initial_allocSize (length : code.length = size.toNat) (small : 48 * (wordsOf code).length < 2 ^ 32) :
    (Arena.initial size).allocSize.toNat = 48 * (wordsOf code).length := by
  rw [Arena.initial, numInstrs_words length, BitVec.toNat_ofNat, Nat.mod_eq_of_lt small]

theorem initial_fits (sizes : SizesInside (wordsOf code)) (length : code.length = size.toNat) :
    (Arena.initial size).Fits (requestsOf (wordsOf code)) := by
  rw [Arena.Fits, initial_allocSize length sizes.1]
  exact sizes.2

/-- The pushes of the words return, up to the first word that is rejected. -/
def PushesReturn (env : Environment) (code : List U8) (size : U32) : Prop :=
  ∀ index, (∀ word ∈ (wordsOf code).take index, Accepted word) →
    ∃ after, Returns (pushWords env ((wordsOf code).take index)) (.initial env code size) () after

theorem requestsOf_take (words : List U32) (index : Nat) :
    requestsOf words = requestsOf (words.take index) ++ requestsOf (words.drop index) := by
  rw [requestsOf, requestsOf, requestsOf, ← List.flatMap_append, List.take_append_drop]

theorem pushesReturn_of_serving {Ready : Arena → List Nat → Prop} (serving : Serving env Ready)
    (models : (Machine.initial env code size).Models (.initial size))
    (ready : Ready (.initial size) (requestsOf (wordsOf code))) : PushesReturn env code size := by
  intro index accepted
  rw [requestsOf_take (wordsOf code) index] at ready
  exact pushWords_exists serving models accepted ready

/-- The recursion gets to the position behind the words that are accepted. -/
theorem called_accepted (length : code.length = size.toNat) (positive : 0 < size)
    (pushes : PushesReturn env code size)
    (accepted : ∀ word ∈ (wordsOf code).take index, Accepted word) (inside : 4 * index < size.toNat) :
    ∃ before, Called env (.initial env code size) index (BitVec.ofNat 32 (4 * index)) before ∧
      poolGetdata before.program.armPool (BitVec.ofNat 32 (4 * index)) = code.drop (4 * index) := by
  obtain ⟨before, called⟩ := (called_iff length positive).mpr ⟨rfl, inside, accepted, pushes index accepted⟩
  refine ⟨before, called, ?_⟩
  rw [called.armPool, poolGetdata, (called.position positive).1]

theorem imlgen_rejects {fuel : Nat} (length : code.length = size.toNat) (positive : 0 < size)
    (pushes : PushesReturn env code size) (found : (wordsOf code)[index]? = some word)
    (accepted : ∀ word ∈ (wordsOf code).take index, Accepted word) (rejected : plan word = none)
    (enough : index < fuel) : imlgen env fuel code size = .error (planFault word) := by
  obtain ⟨bound, _⟩ := List.getElem?_eq_some_iff.mp found
  rw [wordsOf_length, length] at bound
  obtain ⟨before, called, reads⟩ := called_accepted length positive pushes accepted (by omega)
  have loaded := wordsOf_found found
  rw [← reads] at loaded
  obtain ⟨more, rfl⟩ : ∃ more, fuel = more + 1 + index := ⟨fuel - index - 1, by omega⟩
  exact imlgen_of_fails positive
    (called.stops (imlgenRecurse_enter_fails (enterCall_rejects loaded rejected)))

theorem imlgen_leftover {fuel : Nat} (length : code.length = size.toNat)
    (pushes : PushesReturn env code size)
    (accepted : ∀ word ∈ wordsOf code, Accepted word) (partly : ¬ size.toNat % 4 = 0)
    (enough : (wordsOf code).length < fuel) : imlgen env fuel code size = .error .outOfBounds := by
  have positive : 0 < size := by
    rw [BitVec.lt_def]
    change 0 < size.toNat
    omega
  have count : (wordsOf code).length = size.toNat / 4 := by rw [wordsOf_length, length]
  have all : (wordsOf code).take (wordsOf code).length = wordsOf code := List.take_length
  rw [← all] at accepted
  obtain ⟨before, called, reads⟩ := called_accepted length positive pushes accepted (by omega)
  have unread : loadWord (poolGetdata before.program.armPool (BitVec.ofNat 32 (4 * (wordsOf code).length))) =
      .error .outOfBounds := by
    cases load : loadWord (poolGetdata before.program.armPool
      (BitVec.ofNat 32 (4 * (wordsOf code).length))) with
    | ok word =>
        rw [reads] at load
        have enough := (loadWord_wordsOf load).1
        rw [List.length_drop] at enough
        omega
    | error fault => rw [loadWord_fails load]
  obtain ⟨more, rfl⟩ : ∃ more, fuel = more + 1 + (wordsOf code).length :=
    ⟨fuel - (wordsOf code).length - 1, by omega⟩
  exact imlgen_of_fails positive (called.stops (imlgenRecurse_enter_fails (enterCall_unread unread)))

theorem imlgen_finishes {fuel : Nat} (length : code.length = size.toNat) (positive : 0 < size)
    (memory : ∀ count, env.calloc count = true) (sizes : SizesInside (wordsOf code))
    (accepted : ∀ word ∈ wordsOf code, Accepted word) (whole : size.toNat % 4 = 0)
    (enough : (wordsOf code).length ≤ fuel) : ∃ machine, imlgen env fuel code size = .ok machine := by
  obtain ⟨plans, planning⟩ := accepted_planned accepted
  have count : (wordsOf code).length = plans.length := by simpa using congrArg List.length planning
  have words := wordsOf_length code
  have some_byte : 0 < size.toNat := positive
  have fits := initial_fits sizes length
  rw [requestsOf_planned planning] at fits
  exact imlgen_exists memory length planning (List.length_pos_iff.mp (by omega)) (by omega) fits
    (count ▸ enough)

end Fate

theorem size_positive {size : U32} (nonzero : ¬ size = 0) : 0 < size := by
  rw [BitVec.lt_def]
  exact Nat.pos_of_ne_zero fun zero => nonzero (BitVec.eq_of_toNat_eq zero)

theorem first_rejected_iff {word : U32} {words : List U32} :
    words.find? (fun word => ¬ Accepted word) = some word ↔
      ∃ index, words[index]? = some word ∧ ¬ Accepted word ∧ ∀ earlier ∈ words.take index, Accepted earlier := by
  rw [List.find?_eq_some_iff_getElem]
  constructor
  · intro first
    obtain ⟨rejected, index, bound, here, before⟩ := first
    refine ⟨index, List.getElem?_eq_some_iff.mpr ⟨bound, here⟩, of_decide_eq_true rejected, ?_⟩
    intro earlier member
    obtain ⟨place, inside, rfl⟩ := List.mem_take_iff_getElem.mp member
    simpa using before place (by omega)
  · intro first
    obtain ⟨index, found, rejected, before⟩ := first
    obtain ⟨bound, here⟩ := List.getElem?_eq_some_iff.mp found
    refine ⟨decide_eq_true rejected, index, bound, here, fun place inside => ?_⟩
    have accepted := before _ (List.mem_take_iff_getElem.mpr ⟨place, by omega, rfl⟩)
    simpa using accepted

section Stopping

variable {env : Environment} {fuel : Nat} {code : List U8} {size : U32} {fault : Fault}

theorem fate_ok_iff : fate code size = .ok () ↔
    0 < size ∧ size.toNat % 4 = 0 ∧ ∀ word ∈ wordsOf code, Accepted word := by
  unfold fate
  split
  · rename_i empty
    exact iff_of_false (by simp) fun all => BitVec.lt_irrefl 0 (empty ▸ all.1)
  · rename_i nonzero
    split
    · rename_i word first
      have rejected := List.find?_some first
      exact iff_of_false (by simp) fun all =>
        of_decide_eq_true rejected (all.2.2 word (List.mem_of_find?_eq_some first))
    · rename_i none_rejected
      have accepted : ∀ word ∈ wordsOf code, Accepted word := by
        intro word member
        simpa using List.find?_eq_none.mp none_rejected word member
      split
      · rename_i whole
        exact iff_of_true rfl ⟨size_positive nonzero, whole, accepted⟩
      · rename_i partly
        exact iff_of_false (by simp) fun all => partly all.2.1

/-- Where the words say that a run stops, it does. -/
theorem imlgen_stops (length : code.length = size.toNat) (pushes : PushesReturn env code size)
    (enough : (wordsOf code).length < fuel) (stops : fate code size = .error fault) :
    imlgen env fuel code size = .error fault := by
  unfold fate at stops
  split at stops
  · rename_i empty
    cases stops
    rw [empty]
    rfl
  · rename_i nonzero
    split at stops
    · rename_i word first
      obtain ⟨index, found, rejected, accepted⟩ := first_rejected_iff.mp first
      have bound := (List.getElem?_eq_some_iff.mp found).1
      cases stops
      exact imlgen_rejects length (size_positive nonzero) pushes found accepted
        (accepted_none.mp rejected) (Nat.lt_trans bound enough)
    · rename_i all
      have accepted : ∀ word ∈ wordsOf code, Accepted word := by
        intro word member
        simpa using List.find?_eq_none.mp all word member
      split at stops
      · cases stops
      · rename_i partly
        cases stops
        exact imlgen_leftover length pushes accepted partly enough

end Stopping

theorem imlgen_ends (env : Environment) (fuel : Nat) (code : List U8) (size : U32)
    (length : code.length = size.toNat) (memory : ∀ count, env.calloc count = true)
    (sizes : SizesInside (wordsOf code)) (enough : (wordsOf code).length < fuel) :
    (imlgen env fuel code size).map (fun _ => ()) = fate code size := by
  have pushes : PushesReturn env code size := pushesReturn_of_serving (fits_serving memory)
    (Machine.initial_models (by rw [memory])) (initial_fits sizes length)
  cases stops : fate code size with
  | error fault =>
      rw [imlgen_stops length pushes enough stops]
      rfl
  | ok done =>
      obtain ⟨positive, whole, accepted⟩ := fate_ok_iff.mp stops
      obtain ⟨machine, run⟩ :=
        imlgen_finishes length positive memory sizes accepted whole (Nat.le_of_lt enough)
      rw [run]
      rfl

section Ends

variable {code : List U8} {size : U32} {fault : Fault}

theorem fate_error_iff : fate code size = .error fault ↔
    (size = 0 ∧ fault = .assertFailed) ∨
    (size ≠ 0 ∧ ∃ index word, (wordsOf code)[index]? = some word ∧ ¬ Accepted word ∧
      (∀ earlier ∈ (wordsOf code).take index, Accepted earlier) ∧ fault = planFault word) ∨
    (size.toNat % 4 ≠ 0 ∧ (∀ word ∈ wordsOf code, Accepted word) ∧ fault = .outOfBounds) := by
  have first : (∃ index word, (wordsOf code)[index]? = some word ∧ ¬ Accepted word ∧
      (∀ earlier ∈ (wordsOf code).take index, Accepted earlier) ∧ fault = planFault word) ↔
      ∃ word, (wordsOf code).find? (fun word => ¬ Accepted word) = some word ∧ fault = planFault word := by
    simp only [first_rejected_iff]
    constructor
    · intro both
      obtain ⟨index, word, found, rejected, before, named⟩ := both
      exact ⟨word, ⟨index, found, rejected, before⟩, named⟩
    · intro both
      obtain ⟨word, ⟨index, found, rejected, before⟩, named⟩ := both
      exact ⟨index, word, found, rejected, before, named⟩
  rw [first, fate]
  by_cases empty : size = 0
  · rw [if_pos empty, Except.error.injEq]
    have whole : ¬ size.toNat % 4 ≠ 0 := by rw [empty]; decide
    exact ⟨fun same => Or.inl ⟨empty, same.symm⟩, fun either => (either.resolve_right fun rest =>
      rest.elim (fun both => both.1 empty) fun both => whole both.1).2.symm⟩
  · rw [if_neg empty, or_iff_right fun both => empty both.1]
    cases found : (wordsOf code).find? fun word => ¬ Accepted word with
    | some word =>
        obtain ⟨index, here, rejected, before⟩ := first_rejected_iff.mp found
        have some_rejected : ¬ ∀ word ∈ wordsOf code, Accepted word := fun all =>
          rejected (all word (List.mem_of_getElem? here))
        rw [or_iff_left fun both => some_rejected both.2.1]
        change Except.error (planFault word) = .error fault ↔ _
        rw [Except.error.injEq]
        refine ⟨fun same => ⟨empty, word, rfl, same.symm⟩, fun both => ?_⟩
        obtain ⟨-, other, same, named⟩ := both
        rw [Option.some.inj same, named]
    | none =>
        have accepted : ∀ word ∈ wordsOf code, Accepted word := by
          intro word member
          simpa using List.find?_eq_none.mp found word member
        have none_rejected : ¬ (size ≠ 0 ∧ ∃ word : U32, none = some word ∧ fault = planFault word) := by simp
        rw [or_iff_right none_rejected]
        change (if size.toNat % 4 = 0 then Except.ok () else .error .outOfBounds) = .error fault ↔ _
        by_cases whole : size.toNat % 4 = 0
        · rw [if_pos whole]
          exact iff_of_false (by simp) fun both => both.1 whole
        · rw [if_neg whole, Except.error.injEq]
          exact ⟨fun same => ⟨whole, accepted, same.symm⟩, fun both => both.2.2.symm⟩

end Ends

/-- Over every buffer a run ends as its words say: at the first one that `decode` rejects, or behind
the last one, and there with a program if no bytes are left over. -/
theorem imlgen_fate (env : Environment) (fuel : Nat) (code : List U8) (size : U32)
    (length : code.length = size.toNat) (memory : ∀ count, env.calloc count = true)
    (sizes : SizesInside (wordsOf code)) (enough : (wordsOf code).length < fuel) :
    ((∃ machine, imlgen env fuel code size = .ok machine) ↔
      0 < size ∧ size.toNat % 4 = 0 ∧ ∀ word ∈ wordsOf code, Accepted word) ∧
    ∀ fault, imlgen env fuel code size = .error fault ↔
      (size = 0 ∧ fault = .assertFailed) ∨
      (size ≠ 0 ∧ ∃ index word, (wordsOf code)[index]? = some word ∧ ¬ Accepted word ∧
        (∀ earlier ∈ (wordsOf code).take index, Accepted earlier) ∧ fault = planFault word) ∨
      (size.toNat % 4 ≠ 0 ∧ (∀ word ∈ wordsOf code, Accepted word) ∧ fault = .outOfBounds) := by
  have ends := imlgen_ends env fuel code size length memory sizes enough
  rw [← fate_ok_iff, ← ends]
  refine ⟨?_, fun fault => ?_⟩
  · cases imlgen env fuel code size <;> simp [Except.map]
  · rw [← fate_error_iff, ← ends]
    cases imlgen env fuel code size <;> simp [Except.map]

/-- A `b`, and a word of zeros. -/
theorem imlgen_fate_zero :
    imlgen .calm 3 [2, 0, 0, 0x14, 0, 0, 0, 0] 8 = .error .assertFailed := by
  refine ((imlgen_fate .calm 3 [2, 0, 0, 0x14, 0, 0, 0, 0] 8 rfl (fun _ => rfl) (by decide) (by decide)).2
    .assertFailed).mpr (Or.inr (Or.inl ⟨by decide, 1, 0, rfl, by decide, ?_, by decide⟩))
  exact List.forall_mem_singleton.mpr (show Accepted 0x14000002 by decide)

end Koshka.Iml
