import Koshka.Imlgen.Decode

namespace Koshka.Iml

open Data

/-- `*(u32*)` of the first bytes, on a little-endian machine. -/
def loadWord : List U8 → Except Fault U32
  | byte0 :: byte1 :: byte2 :: byte3 :: _ => .ok (byte3 ++ byte2 ++ byte1 ++ byte0)
  | _ => .error .outOfBounds

/-- `((instruction*)pool_getdata(..., handle))->next = next`, through the instruction
that starts at the handle. -/
def writeNext (handle next : PoolHandle) : Run Unit := do
  let machine ← get
  let pool := machine.program.imlPool
  match instructionAt pool handle with
  | none => throw .outOfBounds
  | some instr =>
      let data := overwrite pool.data handle.toNat (image Stored.size (.instruction { instr with next }))
      set { machine with program := { machine.program with imlPool := { pool with data } } }

def setDecoded (pos : U32) : Run Unit := do
  let machine ← get
  let decodedInstrs ← machine.program.decodedInstrs.setBit pos true
  set { machine with program := { machine.program with decodedInstrs } }

def getDecoded (pos : U32) : Run Bool := do
  let machine ← get
  machine.program.decodedInstrs.getBit pos

/-- What the source does last, with the branch destination and with `dest_already_decoded`,
has no effect yet. -/
def imlgenRecurse (env : Environment) : (fuel : Nat) → (pos : PoolHandle) → Run PoolHandle
  | 0, _ => throw .outOfFuel
  | fuel + 1, pos => do
      record (.called pos)
      let machine ← get
      let armInstr ← loadWord (poolGetdata machine.program.armPool pos)
      let result ← decode env armInstr
      let decoded ← pushStored env (.instruction result.instr)
      let next ←
        if pos + 4 < machine.program.armPool.allocSize then do
          let next ← imlgenRecurse env fuel (pos + 4)
          setDecoded (pos / 4)
          pure next
        else pure result.instr.next
      writeNext decoded next
      let _destAlreadyDecoded ← getDecoded (pos / 4)
      record (.returned pos decoded)
      return decoded

/-- The program before the recursion: its pool and its bit set take the first two
answers of `calloc`. -/
def Machine.initial (env : Environment) (armCode : List U8) (size : U32) : Machine :=
  let numInstrs := size / 4
  { program := {
      imlPool := poolOpen (env.calloc 0) (BitVec.ofNat 32 (numInstrs.toNat * 48))
      armPool := { data := armCode, allocSize := size, pos := 0 }
      entryPoint := 0
      decodedInstrs := boolset (env.calloc 1) numInstrs }
    callocs := 2
    slots := 0
    trace := [] }

/-- The machine in the end holds the program that `imlgen` returns, and the trace. -/
def imlgen (env : Environment) (fuel : Nat) (armCode : List U8) (size : U32) : Except Fault Machine := do
  assert (0 < size)
  let (_, machine) ← (imlgenRecurse env fuel 0).run (.initial env armCode size)
  return machine

end Koshka.Iml
