import Koshka.Memory

namespace Koshka

section Macros

variable {width : Nat}

def getSingleBit (val : BitVec width) (bit : Nat) : BitVec width := (val >>> bit) &&& 1

def hasBitFlag (val flag : BitVec width) : Bool := val &&& flag != 0

def setAll (val : BitVec width) : BitVec width := ~~~(val ^^^ val)

def getBitRegion (val : BitVec width) (low high : Nat) : BitVec width :=
  (val &&& (setAll val >>> (width - high - 1))) >>> low

def maxValForSize (bits : Nat) : U64 := (~~~(0 : U64)) >>> (64 - bits)

def asBool (val : BitVec width) : Bool := val != 0

theorem setAll_eq (val : BitVec width) : setAll val = BitVec.allOnes width := by
  simp [setAll]

/-- The region macro is the bit field of the manual, widened to the operand's type. -/
theorem getBitRegion_eq (val : BitVec width) {low high : Nat} (ordered : low ≤ high)
    (within : high < width) :
    getBitRegion val low high = (val.extractLsb high low).setWidth width := by
  rw [getBitRegion, setAll_eq]
  apply BitVec.eq_of_getLsbD_eq
  intro i inside
  simp only [BitVec.getLsbD_ushiftRight, BitVec.getLsbD_and, BitVec.getLsbD_setWidth,
    BitVec.getLsbD_extractLsb, BitVec.getLsbD_allOnes]
  by_cases field : i ≤ high - low <;> grind

theorem getSingleBit_eq (val : BitVec width) (bit : Nat) :
    getSingleBit val bit = (BitVec.ofBool (val.getLsbD bit)).setWidth width := by
  apply BitVec.eq_of_getLsbD_eq
  intro i inside
  simp only [getSingleBit, BitVec.getLsbD_and, BitVec.getLsbD_ushiftRight, BitVec.getLsbD_setWidth,
    BitVec.getLsbD_ofBool]
  cases i <;> grind

theorem asBool_getSingleBit (val : BitVec width) (bit : Nat) (positive : 0 < width) :
    asBool (getSingleBit val bit) = val.getLsbD bit := by
  rw [asBool, getSingleBit_eq]
  cases val.getLsbD bit with
  | false => simp
  | true =>
      simp only [bne_iff_ne]
      intro zero
      have bits := congrArg (fun v : BitVec width => v.getLsbD 0) zero
      simp [positive] at bits

end Macros

end Koshka
