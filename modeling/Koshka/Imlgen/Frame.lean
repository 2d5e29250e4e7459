import Koshka.Imlgen.Generate
import Koshka.Imlgen.Plan

namespace Koshka.Iml

open Data

/-- A call up to its own nested call: the word is decoded and its instruction stored. -/
def enterCall (env : Environment) (pos : PoolHandle) : Run (DecodeResult × PoolHandle) := do
  record (.called pos)
  let machine ← get
  let armInstr ← loadWord (poolGetdata machine.program.armPool pos)
  let result ← decode env armInstr
  let decoded ← pushStored env (.instruction result.instr)
  return (result, decoded)

/-- The nested call, where there are more words, and the bit that is set after it. -/
def followCall (env : Environment) (fuel : Nat) (allocSize : PoolSize) (pos : PoolHandle)
    (next : PoolHandle) : Run PoolHandle :=
  if pos + 4 < allocSize then do
    let next ← imlgenRecurse env fuel (pos + 4)
    setDecoded (pos / 4)
    pure next
  else pure next

/-- The rest of the call: the link to the next instruction. -/
def leaveCall (pos decoded next : PoolHandle) : Run PoolHandle := do
  writeNext decoded next
  let _destAlreadyDecoded ← getDecoded (pos / 4)
  record (.returned pos decoded)
  return decoded

section Frame

variable {env : Environment} {before pushed followed after : Machine} {fuel : Nat} {allocSize : PoolSize}
  {pos handle decoded next linked : PoolHandle} {result : DecodeResult}

theorem imlgenRecurse_eq : imlgenRecurse env (fuel + 1) pos = (do
    let machine ← get
    let (result, decoded) ← enterCall env pos
    let next ← followCall env fuel machine.program.armPool.allocSize pos result.instr.next
    leaveCall pos decoded next) := by
  funext before
  simp only [imlgenRecurse, enterCall, leaveCall, followCall, ite_bind, bind_assoc, pure_bind]
  rfl

theorem enterCall_returns : Returns (enterCall env pos) before (result, decoded) pushed ↔
    ∃ word built, loadWord (poolGetdata before.program.armPool pos) = .ok word ∧
      Returns (decode env word) { before with trace := before.trace ++ [.called pos] } result built ∧
      Returns (pushStored env (.instruction result.instr)) built decoded pushed := by
  simp only [enterCall, record, returns_bind, returns_get, returns_modify, returns_lift, returns_pure]
  constructor
  · intro run
    obtain ⟨_, _, rfl, _, _, ⟨rfl, rfl⟩, word, _, ⟨loaded, rfl⟩, _, built, decoding, _, _, push,
      same, rfl⟩ :=
      run
    cases same
    exact ⟨word, built, loaded, decoding, push⟩
  · intro both
    obtain ⟨word, built, loaded, decoding, push⟩ := both
    exact ⟨(), _, rfl, _, _, ⟨rfl, rfl⟩, word, _, ⟨loaded, rfl⟩, result, built, decoding, decoded, pushed,
      push, rfl, rfl⟩

/-- Up to the nested call a frame records its event, and pushes. -/
theorem enterCall_closed {Step : Machine → Machine → Prop} (closed : PushClosed env Step)
    (entered : Returns (enterCall env pos) before (result, decoded) pushed) :
    Step { before with trace := before.trace ++ [.called pos] } pushed := by
  obtain ⟨_, _, _, decoding, push⟩ := enterCall_returns.mp entered
  exact closed.trans (decode_closed closed decoding) (closed.push push)

theorem followCall_returns : Returns (followCall env fuel allocSize pos next) pushed linked followed ↔
    if pos + 4 < allocSize then
      ∃ middle set, Returns (imlgenRecurse env fuel (pos + 4)) pushed linked middle ∧
        middle.program.decodedInstrs.setBit (pos / 4) true = .ok set ∧
        followed = { middle with program := { middle.program with decodedInstrs := set } }
    else linked = next ∧ followed = pushed := by
  unfold followCall
  split
  · simp only [setDecoded, returns_bind, returns_get, returns_lift, returns_set, returns_pure]
    constructor
    · intro run
      obtain ⟨_, middle, nested, _, _, ⟨_, _, ⟨rfl, rfl⟩, set, _, ⟨marked, rfl⟩, rfl⟩, rfl, rfl⟩ := run
      exact ⟨middle, set, nested, marked, rfl⟩
    · intro run
      obtain ⟨middle, set, nested, marked, rfl⟩ := run
      exact ⟨linked, middle, nested, (), _, ⟨_, _, ⟨rfl, rfl⟩, set, _, ⟨marked, rfl⟩, rfl⟩, rfl, rfl⟩
  · rw [returns_pure]
    exact ⟨fun both => ⟨both.1.symm, both.2.symm⟩, fun both => ⟨both.1.symm, both.2.symm⟩⟩

theorem leaveCall_returns : Returns (leaveCall pos decoded next) followed handle after ↔
    handle = decoded ∧ ∃ linked, Returns (writeNext decoded next) followed () linked ∧
      (∃ bit, linked.program.decodedInstrs.getBit (pos / 4) = .ok bit) ∧
      after = { linked with trace := linked.trace ++ [.returned pos decoded] } := by
  simp only [leaveCall, getDecoded, record, returns_bind, returns_get, returns_lift, returns_modify,
    returns_pure]
  constructor
  · intro run
    obtain ⟨_, linked, link, bit, _, ⟨_, _, ⟨rfl, rfl⟩, read, rfl⟩, _, _, rfl, rfl, rfl⟩ := run
    exact ⟨rfl, linked, link, ⟨bit, read⟩, rfl⟩
  · intro run
    obtain ⟨rfl, linked, link, ⟨bit, read⟩, rfl⟩ := run
    exact ⟨(), linked, link, bit, _, ⟨_, _, ⟨rfl, rfl⟩, read, rfl⟩, (), _, rfl, rfl, rfl⟩

theorem imlgenRecurse_returns : Returns (imlgenRecurse env (fuel + 1) pos) before handle after ↔
    ∃ result decoded pushed next followed, Returns (enterCall env pos) before (result, decoded) pushed ∧
      Returns (followCall env fuel before.program.armPool.allocSize pos result.instr.next) pushed next
        followed ∧
      Returns (leaveCall pos decoded next) followed handle after := by
  rw [imlgenRecurse_eq, returns_get_bind]
  simp only [returns_bind]
  constructor
  · intro run
    obtain ⟨⟨result, decoded⟩, pushed, entered, next, followed, follow, leave⟩ := run
    exact ⟨result, decoded, pushed, next, followed, entered, follow, leave⟩
  · intro run
    obtain ⟨result, decoded, pushed, next, followed, entered, follow, leave⟩ := run
    exact ⟨(result, decoded), pushed, entered, next, followed, follow, leave⟩

end Frame

end Koshka.Iml
