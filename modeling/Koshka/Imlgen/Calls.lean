import Koshka.Imlgen.Termination

namespace Koshka.Iml

open Data Arm

/-! The calls of the recursion, whether they return or not.

A call makes the next one once it has stored its own word.  So a run can be followed call by
call, also where it does not get to its end.
-/

/-- The call of number `index` of a run, at `pos` and in the machine that it starts in. -/
inductive Called (env : Environment) (start : Machine) : Nat → PoolHandle → Machine → Prop
  | first : Called env start 0 0 start
  | next {index : Nat} {pos decoded : PoolHandle} {before pushed : Machine} {result : DecodeResult}
      (called : Called env start index pos before)
      (entered : Returns (enterCall env pos) before (result, decoded) pushed)
      (more : pos + 4 < before.program.armPool.allocSize) : Called env start (index + 1) (pos + 4) pushed

/-- The pushes that storing a word makes, whatever they hold. -/
def pushWord (env : Environment) (word : U32) : Run PoolHandle := do
  pushExpressions env (pushCount word)
  pushStored env (.instruction .blank)

def pushWords (env : Environment) : List U32 → Run Unit
  | [] => pure ()
  | word :: words => do
      let _ ← pushWord env word
      pushWords env words

section Calls

variable {env : Environment} {start before after pushed : Machine} {pos handle decoded : PoolHandle}
  {fuel index : Nat} {result : DecodeResult} {fault : Fault}

theorem Called.rest (called : Called env start index pos before) :
    before.program.armPool = start.program.armPool ∧
      before.program.decodedInstrs = start.program.decodedInstrs := by
  induction called with
  | first => exact ⟨rfl, rfl⟩
  | next called entered more ih =>
      have rest := enterCall_closed rest_closed entered
      exact ⟨rest.armPool.trans ih.1, rest.decodedInstrs.trans ih.2⟩

/-- A run makes no two calls of one number. -/
theorem Called.unique {other : Machine} {elsewhere : PoolHandle} (one : Called env start index pos before)
    (two : Called env start index elsewhere other) : pos = elsewhere ∧ before = other := by
  induction one generalizing elsewhere other with
  | first =>
      cases two
      exact ⟨rfl, rfl⟩
  | next called entered more ih =>
      cases two with
      | next again reentered _ =>
          obtain ⟨rfl, rfl⟩ := ih again
          cases entered.symm.trans reentered
          exact ⟨rfl, rfl⟩

/-- From a size of 2^32 - 3 on, the sum in the guard of the recursion could wrap.  The pool is
opened 48 bytes short of 2^32 then and cannot grow, so that it is full long before that. -/
structure Machine.Topped (machine : Machine) : Prop where
  allocSize : machine.program.imlPool.allocSize.toNat = 2 ^ 32 - 48
  pos : machine.program.imlPool.pos.toNat < 2 ^ 32 - 48

theorem poolPush_topped {α : Type} [OfNat α 0] {pool later : Pool α} {data : List α} {size : PoolSize}
    {succeeds : Bool} (capacity : pool.allocSize.toNat = 2 ^ 32 - 48)
    (room : pool.pos.toNat < 2 ^ 32 - 48)
    (object : size.toNat = 24 ∨ size.toNat = 48)
    (run : poolPush succeeds pool data size 0 = .ok (handle, later)) :
    later.allocSize = pool.allocSize ∧ later.pos.toNat = pool.pos.toNat + size.toNat ∧
      later.pos.toNat < 2 ^ 32 - 48 := by
  simp only [poolPush, poolReserve_zero] at run
  by_cases held : poolCanHold pool size = true
  · rw [if_pos held, poolStore] at run
    obtain ⟨_, _, same⟩ := bind_eq_ok.mp run
    cases same
    rw [poolCanHold_iff] at held
    have moved : (pool.pos + size).toNat = pool.pos.toNat + size.toNat := by
      rw [BitVec.toNat_add]
      omega
    refine ⟨rfl, moved, ?_⟩
    rw [moved]
    omega
  · have shrinks : ¬ pool.allocSize < poolNewsize pool size := by
      rw [BitVec.lt_def, poolNewsize_toNat, capacity]
      rcases object with width | width <;> rw [width] <;> decide
    rw [if_neg held, poolGrow, if_neg shrinks] at run
    cases run

theorem pushStored_topped {object : Stored} (topped : before.Topped)
    (run : Returns (pushStored env object) before handle after) :
    after.Topped ∧ after.program.imlPool.pos.toNat = before.program.imlPool.pos.toNat + object.size := by
  obtain ⟨pool, pushed, rfl⟩ := pushStored_returns.mp run
  have width : object.size = 24 ∨ object.size = 48 := by
    cases object with
    | expression expr => exact Or.inl rfl
    | instruction instr => exact Or.inr rfl
  obtain ⟨capacity, moved, room⟩ := poolPush_topped topped.allocSize topped.pos
    (by rw [object.size_toNat]; exact width) pushed
  rw [object.size_toNat] at moved
  exact ⟨⟨by rw [← topped.allocSize, ← capacity], room⟩, moved⟩

theorem topped_closed : PushClosed env fun before after => before.Topped → after.Topped ∧
    before.program.imlPool.pos.toNat ≤ after.program.imlPool.pos.toNat where
  refl machine topped := ⟨topped, Nat.le_refl _⟩
  trans one two topped := by
    obtain ⟨middle, first⟩ := one topped
    obtain ⟨last, second⟩ := two middle
    exact ⟨last, Nat.le_trans first second⟩
  push run topped := by
    obtain ⟨after, moved⟩ := pushStored_topped topped run
    exact ⟨after, by omega⟩
  slot machine slots topped := ⟨⟨topped.allocSize, topped.pos⟩, Nat.le_refl _⟩

theorem enterCall_topped (topped : before.Topped)
    (entered : Returns (enterCall env pos) before (result, decoded) pushed) :
    pushed.Topped ∧ before.program.imlPool.pos.toNat + 48 ≤ pushed.program.imlPool.pos.toNat := by
  obtain ⟨_, _, _, decoding, push⟩ := enterCall_returns.mp entered
  have recorded : ({ before with trace := before.trace ++ [.called pos] } : Machine).Topped :=
    ⟨topped.allocSize, topped.pos⟩
  obtain ⟨toppedBuilt, grown⟩ := decode_closed topped_closed decoding recorded
  obtain ⟨toppedPush, moved⟩ := pushStored_topped toppedBuilt push
  refine ⟨toppedPush, ?_⟩
  rw [moved]
  exact Nat.add_le_add_right grown 48

theorem Called.topped (topped : start.Topped) (called : Called env start index pos before) :
    before.Topped ∧ 48 * index ≤ before.program.imlPool.pos.toNat := by
  induction called with
  | first => exact ⟨topped, Nat.zero_le _⟩
  | next called entered more ih =>
      obtain ⟨toppedAfter, moved⟩ := enterCall_topped ih.1 entered
      exact ⟨toppedAfter, by omega⟩

end Calls

section Positions

variable {env : Environment} {before after other pushed : Machine} {code : List U8} {size word : U32}
  {words more : List U32} {index : Nat} {pos decoded : PoolHandle} {result : DecodeResult}

theorem wordsOf_drop_four (cells : List U8) : wordsOf (cells.drop 4) = (wordsOf cells).tail := by
  match cells with
  | _ :: _ :: _ :: _ :: _ => rfl
  | [] | [_] | [_, _] | [_, _, _] => rfl

theorem wordsOf_drop (cells : List U8) (index : Nat) :
    wordsOf (cells.drop (4 * index)) = (wordsOf cells).drop index := by
  induction index with
  | zero => rfl
  | succ index ih => rw [Nat.mul_succ, ← List.drop_drop, wordsOf_drop_four, ih, List.tail_drop]

theorem pushWords_append :
    pushWords env (words ++ more) = pushWords env words >>= fun _ => pushWords env more := by
  induction words with
  | nil => rw [List.nil_append, pushWords, pure_bind]
  | cons word words ih => rw [List.cons_append, pushWords, pushWords, ih, bind_assoc]

theorem pushWords_take (found : words[index]? = some word) {done : Unit} :
    Returns (pushWords env (words.take (index + 1))) before done after ↔
      ∃ middle handle, Returns (pushWords env (words.take index)) before () middle ∧
        Returns (pushWord env word) middle handle after := by
  rw [List.take_add_one, found, Option.toList_some, pushWords_append]
  simp only [pushWords, returns_bind, returns_pure]
  constructor
  · intro run
    obtain ⟨_, middle, earlier, handle, _, push, _, rfl⟩ := run
    exact ⟨middle, handle, earlier, push⟩
  · intro run
    obtain ⟨middle, handle, earlier, push⟩ := run
    exact ⟨(), middle, earlier, handle, after, push, trivial, rfl⟩

/-- Decoding a word and storing its instruction runs like its pushes. -/
theorem storing_alike {planned : Plan} (found : plan word = some planned) :
    Alike Machine.sizes
      (decode env word >>= fun result => pushStored env (.instruction result.instr))
      (pushWord env word) := by
  rw [decode_eq, pushWord, pushCount, found]
  exact .bind (Plan.build_alike planned) fun _ _ => pushStored_alike rfl

theorem enterCall_pushes (entered : Returns (enterCall env pos) before (result, decoded) pushed)
    (same : before.sizes = other.sizes) :
    ∃ word handle after, loadWord (poolGetdata before.program.armPool pos) = .ok word ∧ Accepted word ∧
      Returns (pushWord env word) other handle after ∧ pushed.sizes = after.sizes := by
  obtain ⟨word, built, loaded, decoding, push⟩ := enterCall_returns.mp entered
  obtain ⟨planned, found, _⟩ := decode_returns.mp decoding
  have recorded : ({ before with trace := before.trace ++ [.called pos] } : Machine).sizes =
    other.sizes := same
  obtain ⟨handle, after, run, sizes⟩ :=
    (storing_alike found).returns recorded (returns_bind.mpr ⟨result, built, decoding, push⟩)
  exact ⟨word, handle, after, loaded, accepted_iff.mpr ⟨planned, found⟩, run, sizes⟩

theorem enterCall_of_pushes {handle : PoolHandle}
    (loaded : loadWord (poolGetdata before.program.armPool pos) = .ok word) (accepted : Accepted word)
    (push : Returns (pushWord env word) other handle after) (same : before.sizes = other.sizes) :
    ∃ result decoded pushed, Returns (enterCall env pos) before (result, decoded) pushed := by
  obtain ⟨planned, found⟩ := accepted_iff.mp accepted
  have recorded : other.sizes =
    ({ before with trace := before.trace ++ [.called pos] } : Machine).sizes :=
    same.symm
  obtain ⟨decoded, pushed, run, _⟩ := (storing_alike found).symm.returns recorded push
  obtain ⟨result, built, decoding, push⟩ := returns_bind.mp run
  exact ⟨result, decoded, pushed, enterCall_returns.mpr ⟨word, built, loaded, decoding, push⟩⟩

theorem Called.armPool (called : Called env (.initial env code size) index pos before) :
    before.program.armPool = { data := code, allocSize := size, pos := 0 } := called.rest.1

theorem Machine.initial_topped (most : size.toNat / 4 = 2 ^ 30 - 1) :
    (Machine.initial env code size).Topped := by
  have capacity : (Machine.initial env code size).program.imlPool.allocSize.toNat = 2 ^ 32 - 48 := by
    change (BitVec.ofNat 32 ((size / 4).toNat * 48)).toNat = _
    rw [BitVec.toNat_ofNat, BitVec.toNat_udiv]
    change size.toNat / 4 * 48 % 2 ^ 32 = _
    rw [most]
    decide
  exact ⟨capacity, by change 0 < 2 ^ 32 - 48; decide⟩

/-- The position of a call follows from its number, and the sum of the guard never wraps. -/
theorem Called.position (positive : 0 < size)
    (called : Called env (.initial env code size) index pos before) :
    pos.toNat = 4 * index ∧ 4 * index < size.toNat := by
  have range := size.isLt
  induction called with
  | first => exact ⟨rfl, positive⟩
  | next called entered guard ih =>
      rename_i index pos decoded before pushed result
      obtain ⟨place, inside⟩ := ih
      have less : (pos + 4).toNat < size.toNat := by
        rw [called.armPool] at guard
        exact guard
      have short : pos.toNat + 4 < 2 ^ 32 := by
        by_cases most : size.toNat / 4 = 2 ^ 30 - 1
        · -- the pool is full before the positions come near 2^32
          obtain ⟨topped, filled⟩ := called.topped (Machine.initial_topped most)
          have room := topped.pos
          omega
        · omega
      have advanced : (pos + 4).toNat = pos.toNat + 4 := by
        rw [BitVec.toNat_add]
        exact Nat.mod_eq_of_lt short
      rw [advanced] at less ⊢
      omega

theorem Called.pos_eq (positive : 0 < size)
    (called : Called env (.initial env code size) index pos before) :
    pos = BitVec.ofNat 32 (4 * index) := by
  rw [← (called.position positive).1, BitVec.ofNat_toNat, BitVec.setWidth_eq]

/-- What the call reads is the word of its number. -/
theorem Called.reads (positive : 0 < size) (called : Called env (.initial env code size) index pos before)
    (loaded : loadWord (poolGetdata before.program.armPool pos) = .ok word) :
    (wordsOf code)[index]? = some word := by
  rw [called.armPool, poolGetdata, (called.position positive).1] at loaded
  obtain ⟨_, split⟩ := loadWord_wordsOf loaded
  rw [wordsOf_drop] at split
  rw [← List.head?_drop, split, List.head?_cons]

/-- Before call number `index`, the words before it were accepted and stored. -/
theorem Called.stores (positive : 0 < size)
    (called : Called env (.initial env code size) index pos before) :
    (∀ word ∈ (wordsOf code).take index, Accepted word) ∧
      ∃ after, Returns (pushWords env ((wordsOf code).take index)) (.initial env code size) () after ∧
        before.sizes = after.sizes := by
  induction called with
  | first =>
      have none : ∀ word ∈ (wordsOf code).take 0, Accepted word := by simp
      exact ⟨none, _, returns_pure.mpr ⟨rfl, rfl⟩, rfl⟩
  | next called entered guard ih =>
      obtain ⟨accepted, middle, earlier, same⟩ := ih
      obtain ⟨word, handle, after, loaded, fits, push, sizes⟩ := enterCall_pushes entered same
      have found := called.reads positive loaded
      refine ⟨?_, after, (pushWords_take found).mpr ⟨middle, handle, earlier, push⟩, sizes⟩
      intro other member
      rw [List.take_add_one, found, Option.toList_some, List.mem_append, List.mem_singleton] at member
      rcases member with member | rfl
      · exact accepted other member
      · exact fits

/-- A call that decodes and stores its word makes the next one, while its position is inside. -/
theorem Called.advance (positive : 0 < size)
    (called : Called env (.initial env code size) index pos before)
    (entered : Returns (enterCall env pos) before (result, decoded) pushed)
    (inside : 4 * (index + 1) < size.toNat) :
    Called env (.initial env code size) (index + 1) (BitVec.ofNat 32 (4 * (index + 1))) pushed := by
  have range := size.isLt
  have advanced : (pos + 4).toNat = 4 * (index + 1) := by
    rw [BitVec.toNat_add, (called.position positive).1]
    change (4 * index + 4) % 2 ^ 32 = _
    omega
  have guard : pos + 4 < before.program.armPool.allocSize := by
    rw [called.armPool, BitVec.lt_def, advanced]
    exact inside
  have next := Called.next called entered guard
  rwa [next.pos_eq positive] at next

theorem wordsOf_found (found : (wordsOf code)[index]? = some word) :
    loadWord (code.drop (4 * index)) = .ok word := by
  obtain ⟨bound, same⟩ := List.getElem?_eq_some_iff.mp found
  have split : wordsOf (code.drop (4 * index)) = word :: (wordsOf code).drop (index + 1) := by
    rw [wordsOf_drop, List.drop_eq_getElem_cons bound, same]
  exact (wordsOf_cons split).1

/-- There is a call of each number as long as its position is below the size, and the words
before it are accepted and find room in the pool. -/
theorem called_iff (length : code.length = size.toNat) (positive : 0 < size) :
    (∃ before, Called env (.initial env code size) index pos before) ↔
      pos = BitVec.ofNat 32 (4 * index) ∧ 4 * index < size.toNat ∧
        (∀ word ∈ (wordsOf code).take index, Accepted word) ∧
        ∃ after, Returns (pushWords env ((wordsOf code).take index)) (.initial env code size) () after := by
  constructor
  · intro called
    obtain ⟨before, called⟩ := called
    obtain ⟨accepted, after, pushes, _⟩ := called.stores positive
    exact ⟨called.pos_eq positive, (called.position positive).2, accepted, after, pushes⟩
  · intro conditions
    obtain ⟨rfl, inside, accepted, after, pushes⟩ := conditions
    induction index generalizing after with
    | zero => exact ⟨_, .first⟩
    | succ index ih =>
        have bound : index < (wordsOf code).length := by
          rw [wordsOf_length]
          omega
        have found : (wordsOf code)[index]? = some (wordsOf code)[index] := List.getElem?_eq_getElem bound
        obtain ⟨middle, handle, earlier, push⟩ := (pushWords_take found).mp pushes
        rw [List.take_add_one, found, Option.toList_some] at accepted
        obtain ⟨acceptedBefore, fits⟩ := List.forall_mem_append.mp accepted
        obtain ⟨before, called⟩ := ih (by omega) acceptedBefore middle earlier
        have place := (called.position positive).1
        have loaded : loadWord (poolGetdata before.program.armPool (BitVec.ofNat 32 (4 * index))) =
            .ok (wordsOf code)[index] := by
          rw [called.armPool, poolGetdata, place]
          exact wordsOf_found found
        obtain ⟨_, other, again, same⟩ := called.stores positive
        cases earlier.symm.trans again
        obtain ⟨result, decoded, pushed, entered⟩ :=
          enterCall_of_pushes loaded (List.forall_mem_singleton.mp fits) push same
        exact ⟨pushed, called.advance positive entered inside⟩

end Positions

/-- One of the calls of the run, whether it returns or not, has the word at its position. -/
def CallReads (env : Environment) (code : List U8) (size word : U32) : Prop :=
  ∃ index pos before, Called env (.initial env code size) index pos before ∧
    (wordsOf code)[index]? = some word

/-- The position of an event that begins a call. -/
def Event.begins : Event → Option PoolHandle
  | .called pos => some pos
  | .returned _ _ => none

/-- The positions of the calls that the trace records. -/
def Machine.visited (machine : Machine) : List PoolHandle := machine.trace.filterMap Event.begins

section Ending

variable {env : Environment} {start before after : Machine} {code : List U8} {size word : U32}
  {fuel index : Nat} {pos handle decoded next : PoolHandle} {fault : Fault}

theorem loadWord_fails {cells : List U8} (failed : loadWord cells = .error fault) :
    fault = .outOfBounds := by
  unfold loadWord at failed
  split at failed
  · cases failed
  · cases failed
    rfl

/-- Decoding stops at an assert, outside a buffer, or never where it looks for the highest bit
of 0. -/
theorem decode_fails (failed : Fails (decode env word) before fault) :
    fault = .assertFailed ∨ fault = .outOfBounds ∨ fault = .shiftOutOfRange ∧ Endless word := by
  rw [decode_eq] at failed
  cases found : plan word with
  | none =>
      rw [found] at failed
      have same : planFault word = fault := fails_throw.mp failed
      by_cases endless : Endless word
      · rw [planFault, if_pos endless] at same
        exact .inr (.inr ⟨same.symm, endless⟩)
      · rw [planFault, if_neg endless] at same
        exact .inl same.symm
  | some planned =>
      rw [found] at failed
      exact (pushExpressions_fails ((Plan.build_alike planned).fails rfl failed)).imp_right .inl

/-- How a call stops before its own nested call. -/
theorem enterCall_fails (failed : Fails (enterCall env pos) before fault) :
    fault = .assertFailed ∨ fault = .outOfBounds ∨ fault = .shiftOutOfRange ∧
      ∃ word, loadWord (poolGetdata before.program.armPool pos) = .ok word ∧ Endless word := by
  simp only [enterCall, record, fails_bind, not_fails_modify, returns_modify, not_fails_get, returns_get,
    fails_lift, returns_lift, not_fails_pure, false_or, and_false, exists_false, or_false] at failed
  obtain ⟨_, _, rfl, _, _, ⟨rfl, rfl⟩, unread | ⟨word, _, ⟨loaded, rfl⟩, failed⟩⟩ := failed
  · exact .inr (.inl (loadWord_fails unread))
  · rcases failed with stopped | ⟨_, _, _, stopped⟩
    · rcases decode_fails stopped with same | same | ⟨same, endless⟩
      · exact .inl same
      · exact .inr (.inl same)
      · exact .inr (.inr ⟨same, word, loaded, endless⟩)
    · exact (pushStored_fails stopped).imp_right .inl

theorem setDecoded_fails (failed : Fails (setDecoded pos) before fault) : fault = .outOfBounds := by
  simp only [setDecoded, fails_bind, not_fails_get, returns_get, fails_lift, not_fails_set, false_or,
    and_false, exists_false, or_false] at failed
  obtain ⟨machine, _, _, stopped⟩ := failed
  rw [Boolset.setBit] at stopped
  split at stopped
  · cases stopped
  · cases stopped
    rfl

theorem getDecoded_fails (failed : Fails (getDecoded pos) before fault) : fault = .outOfBounds := by
  simp only [getDecoded, fails_bind, not_fails_get, returns_get, fails_lift, false_or] at failed
  obtain ⟨machine, _, _, stopped⟩ := failed
  rw [Boolset.getBit] at stopped
  split at stopped
  · cases stopped
  · cases stopped
    rfl

theorem writeNext_fails (failed : Fails (writeNext handle next) before fault) : fault = .outOfBounds := by
  simp only [writeNext, fails_bind, not_fails_get, returns_get, false_or] at failed
  obtain ⟨machine, _, _, stopped⟩ := failed
  split at stopped
  · exact (fails_throw.mp stopped).symm
  · exact absurd stopped not_fails_set

theorem leaveCall_fails (failed : Fails (leaveCall pos decoded next) before fault) :
    fault = .outOfBounds := by
  simp only [leaveCall, record, fails_bind, not_fails_modify, not_fails_pure, and_false, exists_false,
    or_false] at failed
  rcases failed with stopped | ⟨_, _, _, stopped⟩
  · exact writeNext_fails stopped
  · exact getDecoded_fails stopped

/-- What stops a call is its word, the call after it, or an access outside of a buffer. -/
theorem imlgenRecurse_fails (failed : Fails (imlgenRecurse env (fuel + 1) pos) before fault) :
    Fails (enterCall env pos) before fault ∨ fault = .outOfBounds ∨
      ∃ result decoded pushed, Returns (enterCall env pos) before (result, decoded) pushed ∧
        pos + 4 < before.program.armPool.allocSize ∧ Fails (imlgenRecurse env fuel (pos + 4)) pushed fault := by
  rw [imlgenRecurse_eq] at failed
  simp only [fails_bind, not_fails_get, returns_get, false_or] at failed
  obtain ⟨_, _, ⟨rfl, rfl⟩, stopped | ⟨⟨result, decoded⟩, pushed, entered, followed⟩⟩ := failed
  · exact Or.inl stopped
  · rcases followed with stopped | ⟨_, _, _, stopped⟩
    · unfold followCall at stopped
      split at stopped
      · rename_i guard
        simp only [fails_bind, not_fails_pure, and_false, exists_false, or_false] at stopped
        rcases stopped with stopped | ⟨_, _, _, stopped⟩
        · exact Or.inr (Or.inr ⟨result, decoded, pushed, entered, guard, stopped⟩)
        · exact Or.inr (Or.inl (setDecoded_fails stopped))
      · exact absurd stopped not_fails_pure
    · exact Or.inr (Or.inl (leaveCall_fails stopped))

/-- A call that stops stops all the calls around it. -/
theorem Called.stops (called : Called env start index pos before)
    (failed : Fails (imlgenRecurse env fuel pos) before fault) :
    Fails (imlgenRecurse env (fuel + index) 0) start fault := by
  induction called generalizing fuel with
  | first => exact failed
  | next called entered more ih =>
      rename_i index pos decoded before pushed result
      have nested : Fails (followCall env fuel before.program.armPool.allocSize pos result.instr.next)
          pushed fault := by
        rw [followCall, if_pos more]
        exact fails_bind.mpr (Or.inl failed)
      have frame : Fails (imlgenRecurse env (fuel + 1) pos) before fault := by
        rw [imlgenRecurse_eq]
        refine fails_bind.mpr (Or.inr ⟨before, before, returns_get.mpr ⟨rfl, rfl⟩, ?_⟩)
        refine fails_bind.mpr (Or.inr ⟨(result, decoded), pushed, entered, ?_⟩)
        exact fails_bind.mpr (Or.inl nested)
      rw [← Nat.add_assoc, Nat.add_right_comm]
      exact ih frame

theorem imlgenRecurse_enter_fails (failed : Fails (enterCall env pos) before fault) :
    Fails (imlgenRecurse env (fuel + 1) pos) before fault := by
  rw [imlgenRecurse_eq]
  exact fails_bind.mpr (Or.inr ⟨before, before, returns_get.mpr ⟨rfl, rfl⟩,
    fails_bind.mpr (Or.inl failed)⟩)

theorem enterCall_rejects (loaded : loadWord (poolGetdata before.program.armPool pos) = .ok word)
    (rejected : plan word = none) : Fails (enterCall env pos) before (planFault word) := by
  have stops (machine : Machine) : Fails (decode env word) machine (planFault word) := by
    rw [decode_eq, rejected, Option.elim_none, fails_throw]
  simp only [enterCall, record, fails_bind, not_fails_modify, returns_modify, not_fails_get, returns_get,
    fails_lift, returns_lift, false_or]
  exact ⟨(), _, rfl, _, _, ⟨rfl, rfl⟩, Or.inr ⟨word, _, ⟨loaded, rfl⟩, Or.inl (stops _)⟩⟩

/-- With fuel for the positions from the call's own on, a call stops at an assert, outside a
buffer, or never, where it or a later one reads an endless word. -/
theorem Called.fails_as (positive : 0 < size)
    (called : Called env (.initial env code size) index pos before)
    (enough : size.toNat ≤ 4 * (index + fuel)) (failed : Fails (imlgenRecurse env fuel pos) before fault) :
    fault = .assertFailed ∨ fault = .outOfBounds ∨ fault = .shiftOutOfRange ∧
      ∃ word, CallReads env code size word ∧ Endless word := by
  induction fuel generalizing index pos before with
  | zero =>
      have inside := (called.position positive).2
      omega
  | succ fuel ih =>
      rcases imlgenRecurse_fails failed with stopped | outside | ⟨_, _, _, entered, guard, stopped⟩
      · rcases enterCall_fails stopped with same | same | ⟨same, word, loaded, endless⟩
        · exact .inl same
        · exact .inr (.inl same)
        · exact .inr (.inr ⟨same, word, ⟨index, pos, before, called, called.reads positive loaded⟩, endless⟩)
      · exact .inr (.inl outside)
      · exact ih (.next called entered guard) (by omega) stopped

/-- The recursion hangs exactly where one of its calls reads an endless word. -/
theorem recursion_ends_iff (positive : 0 < size)
    (enough : size.toNat ≤ 4 * fuel) :
    Ends (imlgenRecurse env fuel 0) (.initial env code size) ∨
        Fails (imlgenRecurse env fuel 0) (.initial env code size) .outOfBounds ↔
      ∀ word, CallReads env code size word → ¬ Endless word := by
  constructor
  · intro ended word reads endless
    obtain ⟨index, pos, before, called, found⟩ := reads
    obtain ⟨place, inside⟩ := called.position positive
    have loaded : loadWord (poolGetdata before.program.armPool pos) = .ok word := by
      rw [called.armPool, poolGetdata, place]
      exact wordsOf_found found
    obtain ⟨spare, frames⟩ : ∃ spare, fuel = spare + 1 + index := ⟨fuel - 1 - index, by omega⟩
    have hangs : Fails (imlgenRecurse env fuel 0) (.initial env code size) .shiftOutOfRange := by
      have never : planFault word = .shiftOutOfRange := if_pos endless
      rw [frames, ← never]
      exact called.stops (imlgenRecurse_enter_fails (enterCall_rejects loaded endless.plan_none))
    rcases ended with (⟨_, _, returned⟩ | stopped) | stopped
    · exact returned.not_fails hangs
    · cases stopped.unique hangs
    · cases stopped.unique hangs
  · intro finite
    rcases returns_or_fails (imlgenRecurse env fuel 0) (.initial env code size) with
      returned | ⟨fault, stopped⟩
    · exact .inl (.inl returned)
    · rcases Called.fails_as positive .first (by omega) stopped with rfl | rfl | ⟨_, word, reads, endless⟩
      · exact .inl (.inr stopped)
      · exact .inr stopped
      · exact absurd endless (finite word reads)

/-- In a run that returns, so does every call. -/
theorem Called.returns (called : Called env start index pos before)
    (run : Returns (imlgenRecurse env fuel 0) start handle after) :
    ∃ fuel handle after, Returns (imlgenRecurse env (fuel + 1) pos) before handle after := by
  have some : ∃ fuel handle after, Returns (imlgenRecurse env fuel pos) before handle after := by
    induction called with
    | first => exact ⟨fuel, handle, after, run⟩
    | next called entered guard ih =>
        obtain ⟨fuel, handle, after, run⟩ := ih
        cases fuel with
        | zero => exact absurd run returns_throw
        | succ fuel =>
            obtain ⟨_, _, _, _, _, again, follow, _⟩ := imlgenRecurse_returns.mp run
            cases entered.symm.trans again
            rw [followCall_returns, if_pos guard] at follow
            obtain ⟨middle, _, nested, _⟩ := follow
            exact ⟨fuel, _, middle, nested⟩
  obtain ⟨fuel, handle, after, run⟩ := some
  cases fuel with
  | zero => exact absurd run returns_throw
  | succ fuel => exact ⟨fuel, handle, after, run⟩

/-- A run that returns has made the call at every position. -/
theorem called_of_returns (positive : 0 < size)
    (run : Returns (imlgenRecurse env fuel 0) (.initial env code size) handle after)
    (inside : 4 * index < size.toNat) :
    ∃ before, Called env (.initial env code size) index (BitVec.ofNat 32 (4 * index)) before := by
  induction index with
  | zero => exact ⟨_, .first⟩
  | succ index ih =>
      obtain ⟨before, called⟩ := ih (by omega)
      obtain ⟨_, _, _, returned⟩ := called.returns run
      obtain ⟨_, _, pushed, _, _, entered, _⟩ := imlgenRecurse_returns.mp returned
      exact ⟨pushed, called.advance positive entered inside⟩

/-- A run that returns has read whole words only. -/
theorem imlgen_whole (length : code.length = size.toNat)
    (run : imlgen env fuel code size = .ok after) : 0 < size ∧ size.toNat % 4 = 0 := by
  simp only [imlgen, bind_eq_ok, assert_eq_ok] at run
  obtain ⟨_, positive, ⟨handle, _⟩, recursion, same⟩ := run
  cases same
  refine ⟨positive, ?_⟩
  by_contra partly
  have inside : 4 * (size.toNat / 4) < size.toNat := by omega
  obtain ⟨before, called⟩ := called_of_returns positive recursion inside
  obtain ⟨_, _, _, returned⟩ := called.returns recursion
  obtain ⟨_, _, _, _, _, entered, _⟩ := imlgenRecurse_returns.mp returned
  obtain ⟨_, _, loaded, _⟩ := enterCall_returns.mp entered
  rw [called.armPool, poolGetdata, (called.position positive).1] at loaded
  obtain ⟨enough, _⟩ := loadWord_wordsOf loaded
  rw [List.length_drop, length] at enough
  omega

theorem callTrace_begins (handles : List PoolHandle) : (callTrace pos handles).filterMap Event.begins =
    (List.range handles.length).map fun index => pos + BitVec.ofNat 32 (4 * index) := by
  induction handles generalizing pos with
  | nil => rfl
  | cons handle handles ih =>
      have head : pos = pos + BitVec.ofNat 32 (4 * 0) := (BitVec.add_zero pos).symm
      simp only [callTrace, List.cons_append, List.filterMap_cons, List.filterMap_append, ih,
        position_succ, Event.begins, List.filterMap_nil, List.append_nil, List.length_cons,
        List.range_succ_eq_map, List.map_cons, List.map_map, ← head]
      rfl

/-- A run that returns has visited every multiple of 4 below the size, in order. -/
theorem imlgen_visited (length : code.length = size.toNat)
    (run : imlgen env fuel code size = .ok after) :
    after.visited = (List.range ((size.toNat + 3) / 4)).map fun index => BitVec.ofNat 32 (4 * index) := by
  obtain ⟨plans, planning, _, _, _, _, traced⟩ := imlgen_models length run
  have whole := (imlgen_whole length run).2
  have count : (layPlans env plans (.initial size)).1.length = (size.toNat + 3) / 4 := by
    have same := congrArg List.length planning
    rw [List.length_map, List.length_map, wordsOf_length, length] at same
    rw [layPlans_length, ← same]
    omega
  have from_zero : ∀ index : Nat,
    (0 : PoolHandle) + BitVec.ofNat 32 (4 * index) = BitVec.ofNat 32 (4 * index) :=
    fun index => BitVec.zero_add _
  rw [Machine.visited, traced, callTrace_begins, count]
  simp only [from_zero]

theorem wordsOf_flatten (cells : List U8) (four : cells.length = 4) (word : U32)
    (loads : loadWord cells = .ok word) (count : Nat) :
    wordsOf (List.replicate count cells).flatten = List.replicate count word := by
  match cells, four with
  | [byte0, byte1, byte2, byte3], _ =>
      cases loads
      induction count with
      | zero => rfl
      | succ count ih => rw [List.replicate_succ, List.flatten_cons, List.replicate_succ, ← ih]; rfl

end Ending

/-- The recursion of `imlgen` over a buffer. -/
structure CallsWords (env : Environment) (code : List U8) (size : U32) : Prop where
  /-- Call number `index` is at `4 * index`, and there is one as long as this is below the
  size, `decode` accepts the words before it and the pool takes what they push. -/
  called : ∀ index pos, (∃ before, Called env (.initial env code size) index pos before) ↔
    pos = BitVec.ofNat 32 (4 * index) ∧ 4 * index < size.toNat ∧
      (∀ word ∈ (wordsOf code).take index, Accepted word) ∧
      ∃ after, Returns (pushWords env ((wordsOf code).take index)) (.initial env code size) () after
  /-- No position is visited twice. -/
  once : ∀ index other pos before after, Called env (.initial env code size) index pos before →
    Called env (.initial env code size) other pos after → index = other ∧ before = after
  /-- Within as many frames as there are positions the recursion returns, stops at an assert or
  leaves a buffer, unless a word that it gets to keeps `decode` from ending. -/
  ends : ∀ fuel, size.toNat ≤ 4 * fuel →
    (Ends (imlgenRecurse env fuel 0) (.initial env code size) ∨
        Fails (imlgenRecurse env fuel 0) (.initial env code size) .outOfBounds ↔
      ∀ word, CallReads env code size word → ¬ Endless word)
  visited : ∀ fuel machine, imlgen env fuel code size = .ok machine →
    machine.visited = (List.range ((size.toNat + 3) / 4)).map fun index => BitVec.ofNat 32 (4 * index)

/-- The recursion goes through the buffer word by word, and ends but for endless words. -/
theorem imlgenRecurse_calls (env : Environment) (code : List U8) (size : U32)
    (length : code.length = size.toNat) (positive : 0 < size) : CallsWords env code size where
  called index pos := called_iff length positive
  once index other pos before after one two := by
    have same : index = other := by
      have first := (one.position positive).1
      have second := (two.position positive).1
      omega
    subst same
    exact ⟨rfl, (one.unique two).2⟩
  ends fuel enough := recursion_ends_iff positive enough
  visited fuel machine run := imlgen_visited length run

theorem imlgenRecurse_calls_branch : CallsWords .calm [2, 0, 0, 0x14] 4 :=
  imlgenRecurse_calls .calm [2, 0, 0, 0x14] 4 rfl (by decide)

/-- `0xFFFFFFFC` bytes of `b`: the pool is opened just short of 2^32 bytes, and full before the
word number 89478485. -/
theorem calls_stop_early :
    ¬ ∀ (env : Environment) (code : List U8) (size : U32), code.length = size.toNat → 0 < size →
      (∀ word ∈ wordsOf code, ∀ before, ∃ result after, Returns (decode env word) before result after) →
      ∀ index, 4 * index < size.toNat →
        ∃ before, Called env (.initial env code size) index (BitVec.ofNat 32 (4 * index)) before := by
  intro reached
  obtain ⟨count, most⟩ : ∃ count, count = 2 ^ 30 - 1 := ⟨_, rfl⟩
  have width : (List.replicate count ([2, 0, 0, 0x14] : List U8)).flatten.length =
      (0xFFFFFFFC : U32).toNat := by
    rw [List.length_flatten, List.map_replicate, List.sum_replicate_nat, most]
    decide
  have decodes : ∀ word ∈ wordsOf (List.replicate count ([2, 0, 0, 0x14] : List U8)).flatten,
      ∀ before, ∃ result after, Returns (decode .calm word) before result after := by
    rw [wordsOf_flatten [2, 0, 0, 0x14] rfl 0x14000002 rfl]
    intro word member before
    rw [List.eq_of_mem_replicate member]
    exact ⟨_, before, decode_returns.mpr ⟨_, rfl, rfl⟩⟩
  obtain ⟨before, called⟩ := reached .calm _ 0xFFFFFFFC width (by decide) decodes 89478485 (by decide)
  obtain ⟨topped, filled⟩ := called.topped (Machine.initial_topped (by decide))
  have room := topped.pos
  omega

end Koshka.Iml
