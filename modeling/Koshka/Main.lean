import Koshka.Imlgen.Running
import Koshka.Os.Nro

namespace Koshka

open Data Elf Os Iml Arm

/-- The functions of the common library that `main` uses. -/
structure Common where
  pathHasExtension : String → String → Bool
  fileSize : String → U64
  fileLoad : String → Option (List U8)

/-- What a run of the program meets: the files, the libraries, the memory that an NRO file gets, and how deep
the recursion of `imlgen` may go. -/
structure Surroundings where
  files : String → Option (List U8)
  common : Common
  host : Host
  nroText : Pointer
  nroCells : List U8
  nroDest : Pointer
  env : Environment
  fuel : Nat

def exitSuccess : Nat := 0

def exitFailure : Nat := 1

def Surroundings.nroCase (around : Surroundings) (path : String) : NroCase where
  found := around.files path
  text := around.nroText
  cells := around.nroCells
  dest := around.nroDest

/-- The size is a `u32` for `imlgen`. -/
def generate (around : Surroundings) (armBuf : List U8) (size : U64) : Except Fault Nat := do
  let _ ← imlgen around.env around.fuel armBuf (size.setWidth 32)
  return exitSuccess

def main (around : Surroundings) (argv : List String) : Except Fault Nat :=
  match argv with
  | _ :: path :: _ =>
      if around.common.pathHasExtension path ".nro" then do
        let _ ← nroLoad around.host { vmem := .initial, trace := [] } (around.nroCase path)
        return 0
      else if fileIsElf (around.files path) then
        match loadElf around.host (around.files path) 0 with
        | (none, _) => .ok exitFailure
        | (some armBuf, size) =>
            if size = 0 then .ok exitFailure else generate around armBuf size
      else
        let size := around.common.fileSize path
        match around.common.fileLoad path with
        | none => .ok exitFailure
        | some armBuf => if size.slt 1 then .ok exitFailure else generate around armBuf size
  | _ => .ok 1

/-- The buffer and the size that `main` calls `imlgen` with, if it gets there. -/
def armBuffer (around : Surroundings) (argv : List String) : Option (List U8 × U64) :=
  match argv with
  | _ :: path :: _ =>
      if around.common.pathHasExtension path ".nro" then none
      else if fileIsElf (around.files path) then
        match loadElf around.host (around.files path) 0 with
        | (none, _) => none
        | (some armBuf, size) => if size = 0 then none else some (armBuf, size)
      else
        let size := around.common.fileSize path
        match around.common.fileLoad path with
        | none => none
        | some armBuf => if size.slt 1 then none else some (armBuf, size)
  | _ => none

/-- The code in a file: that of an ELF file, or all that there is. -/
def armCode (content : List U8) : List U8 :=
  if (fileHeader content).eIdent.take 4 = elfMag then (exactCode content 0).1.getD [] else content

/-- How the program is to end with the code. -/
def codeEnds (code : List U8) : Except Fault Nat :=
  if code = [] then .ok exitFailure
  else (fate code (.ofNat 32 code.length)).map fun _ => exitSuccess

/-- The libraries do what they are for, with a file that is there. -/
structure Surroundings.Serves (around : Surroundings) (path : String) (content : List U8) : Prop where
  found : around.files path = some content
  host : around.host.Serves content
  size : around.common.fileSize path = .ofNat 64 content.length
  load : around.common.fileLoad path = some content
  memory : ∀ count, around.env.calloc count = true

section Run

variable {around : Surroundings} {path : String} {content code : List U8} {size : U64}

theorem fileIsElf_iff : fileIsElf (some content) = true ↔ (fileHeader content).eIdent.take 4 = elfMag := by
  rw [fileIsElf, decide_eq_true_eq]
  rfl

theorem wordsOf_small (sizes : SizesInside (wordsOf code)) : code.length < 2 ^ 32 := by
  have few := sizes.1
  rw [wordsOf_length] at few
  omega

theorem narrowed_length (short : code.length < 2 ^ 32) :
    code.length = (BitVec.setWidth 32 (BitVec.ofNat 64 code.length)).toNat := by
  rw [BitVec.toNat_setWidth, BitVec.toNat_ofNat]
  omega

/-- What `imlgen` gets is the whole code, as long as its size is a `u32`. -/
theorem generate_ends (memory : ∀ count, around.env.calloc count = true) (some_ : code ≠ [])
    (length : size = .ofNat 64 code.length) (sizes : SizesInside (wordsOf code))
    (enough : (wordsOf code).length < around.fuel) : generate around code size = codeEnds code := by
  have whole := narrowed_length (wordsOf_small sizes)
  have narrow : size.setWidth 32 = .ofNat 32 code.length := by
    rw [length]
    apply BitVec.eq_of_toNat_eq
    rw [← whole, BitVec.toNat_ofNat, Nat.mod_eq_of_lt (wordsOf_small sizes)]
  rw [← length, narrow] at whole
  have ends := imlgen_ends around.env around.fuel code (.ofNat 32 code.length) whole memory sizes enough
  rw [generate, narrow, codeEnds, if_neg some_, ← ends]
  cases imlgen around.env around.fuel code (.ofNat 32 code.length) <;> rfl

theorem main_nro (nro : around.common.pathHasExtension path ".nro" = true) (name : String)
    (rest : List String) : main around (name :: path :: rest) = .ok 0 := by
  have few : (around.nroCase path).allocs.length ≤ 1024 := by
    unfold NroCase.allocs
    split
    · simp
    · split <;> simp
  obtain ⟨state, run⟩ := (runVmem_allocs_iff allocs_block).mpr few
  have loaded := nroLoad_allocs around.host { vmem := .initial, trace := [] } (around.nroCase path)
  change _ = (runVmem (around.nroCase path).allocs).map _ at loaded
  rw [run] at loaded
  rw [main, if_pos nro, loaded]
  rfl

theorem loadElf_exact (serves : around.host.Serves content)
    (elf : (fileHeader content).IsAArch64 → LoadsExactly around.host content) :
    loadElf around.host (some content) 0 = exactCode content 0 := by
  by_cases itself : (fileHeader content).IsAArch64
  · have loads := elf itself
    cases found : codeSection content (fileHeader content) with
    | some progHeader => exact (loadElf_found 0 serves itself found).mpr (loads.inside progHeader found)
    | none => exact (loadElf_absent 0 serves itself found).mpr (loads.absent found)
  · rw [loadElf_other itself, exactCode_other itself]

/-- Code is never empty, and its size is the one that comes with it. -/
theorem exactCode_size {armBuf : List U8} {sizeOut : U64} (loaded : exactCode content 0 = (some armBuf, sizeOut)) :
    sizeOut = .ofNat 64 armBuf.length ∧ armBuf ≠ [] := by
  cases found : codeSection content (fileHeader content) with
  | none =>
      rw [exactCode_none found] at loaded
      cases loaded
  | some progHeader =>
      obtain ⟨_, _, _, code, _⟩ := codeSection_some found
      by_cases inside : progHeader.Inside content
      · by_cases elf : (fileHeader content).IsAArch64
        · rw [exactCode_inside elf found inside] at loaded
          cases loaded
          have length : (window content progHeader.shOffset.toNat progHeader.shSize.toNat).length =
              progHeader.shSize.toNat := by
            rw [Elf64Shdr.Inside] at inside
            rw [window, List.length_take, List.length_drop]
            omega
          have large := code.2.2.1
          refine ⟨?_, List.ne_nil_of_length_pos (by omega)⟩
          rw [length, BitVec.ofNat_toNat, BitVec.setWidth_eq]
        · rw [exactCode_other elf] at loaded
          cases loaded
      · rw [exactCode_outside found inside] at loaded
        cases loaded

/-- Without code to hand over, the program fails. -/
theorem main_plain (plain : around.common.pathHasExtension path ".nro" = false) (name : String)
    (rest : List String) : main around (name :: path :: rest) =
      match armBuffer around (name :: path :: rest) with
      | none => .ok exitFailure
      | some (armBuf, size) => generate around armBuf size := by
  simp only [main, armBuffer, plain, Bool.false_eq_true, if_false]
  cases fileIsElf (around.files path) with
  | true =>
      rcases loadElf around.host (around.files path) 0 with ⟨_ | armBuf, size⟩
      · rfl
      · by_cases empty : size = 0
        · rw [empty]
          rfl
        · simp only [if_neg empty, if_true]
  | false =>
      cases around.common.fileLoad path with
      | none => rfl
      | some armBuf => cases (around.common.fileSize path).slt 1 <;> rfl

/-- What is handed over is the code of the file. -/
theorem armBuffer_code (plain : around.common.pathHasExtension path ".nro" = false)
    (serves : around.Serves path content)
    (elf : (fileHeader content).IsAArch64 → LoadsExactly around.host content)
    (short : (armCode content).length < 2 ^ 32) (name : String) (rest : List String) :
    armBuffer around (name :: path :: rest) =
      if armCode content = [] then none else some (armCode content, .ofNat 64 (armCode content).length) := by
  simp only [armBuffer, plain, Bool.false_eq_true, if_false, serves.found]
  by_cases magic : (fileHeader content).eIdent.take 4 = elfMag
  · have code : armCode content = (exactCode content 0).1.getD [] := if_pos magic
    rw [if_pos (fileIsElf_iff.mpr magic), loadElf_exact serves.host elf]
    cases loaded : exactCode content 0 with
    | mk buffer sizeOut =>
        rw [loaded] at code
        cases buffer with
        | none => exact (if_pos code).symm
        | some armBuf =>
            obtain ⟨size, some_⟩ := exactCode_size loaded
            change armCode content = armBuf at code
            rw [code] at short ⊢
            have positive : sizeOut ≠ 0 := by
              have length := List.length_pos_iff.mpr some_
              rw [size]
              intro zero
              have value := congrArg BitVec.toNat zero
              rw [BitVec.toNat_ofNat] at value
              change _ = 0 at value
              omega
            rw [if_neg some_]
            exact (if_neg positive).trans (by rw [size])
  · have code : armCode content = content := if_neg magic
    rw [if_neg (mt fileIsElf_iff.mp magic), serves.load, serves.size, code]
    by_cases empty : content = []
    · rw [empty]
      rfl
    · have positive : (BitVec.ofNat 64 content.length).slt 1 = false := by
        have length := List.length_pos_iff.mpr empty
        have short := serves.host.size
        have one : (1 : U64).toInt = 1 := rfl
        have value : (BitVec.ofNat 64 content.length).toNat = content.length := by
          rw [BitVec.toNat_ofNat, Nat.mod_eq_of_lt (by omega)]
        rw [BitVec.slt, decide_eq_false_iff_not, BitVec.toInt_eq_toNat_cond, one, value]
        split <;> omega
      rw [if_neg empty]
      exact if_neg (by rw [positive]; exact Bool.false_ne_true)

end Run

/-- From the file to the exit status: an NRO file is loaded, and with the code of any other the program
fails, or goes as `imlgen` goes over all of its words. -/
theorem main_ends (around : Surroundings) (name path : String) (rest : List String) (content : List U8)
    (serves : around.Serves path content)
    (elf : (fileHeader content).IsAArch64 → LoadsExactly around.host content)
    (short : (wordsOf (armCode content)).length ≤ 14913080)
    (enough : (wordsOf (armCode content)).length < around.fuel) :
    main around (name :: path :: rest) =
      if around.common.pathHasExtension path ".nro" then .ok exitSuccess else codeEnds (armCode content) := by
  cases extension : around.common.pathHasExtension path ".nro" with
  | true => exact main_nro extension name rest
  | false =>
      have sizes := sizesInside_of_length _ short
      rw [if_neg Bool.false_ne_true, main_plain extension,
        armBuffer_code extension serves elf (wordsOf_small sizes)]
      by_cases empty : armCode content = []
      · rw [if_pos empty, codeEnds, if_pos empty]
      · rw [if_neg empty]
        exact generate_ends serves.memory empty rfl sizes enough

/-- From the file to the CPU: what `main` hands over to `imlgen` comes to a program that runs as the code of
the file does, exactly if every word keeps its own effect. -/
theorem main_runs_iff (around : Surroundings) (name path : String) (rest : List String) (content : List U8)
    (reading : Reading) (plain : around.common.pathHasExtension path ".nro" = false)
    (serves : around.Serves path content)
    (elf : (fileHeader content).IsAArch64 → LoadsExactly around.host content)
    (code : armCode content ≠ []) (whole : (armCode content).length % 4 = 0)
    (allocated : ∀ word ∈ wordsOf (armCode content), Allocated word)
    (short : (wordsOf (armCode content)).length ≤ 14913080)
    (enough : (wordsOf (armCode content)).length < around.fuel) :
    main around (name :: path :: rest) = .ok exitSuccess ∧
      ∃ armBuf size machine, armBuffer around (name :: path :: rest) = some (armBuf, size) ∧
        imlgen around.env around.fuel armBuf (size.setWidth 32) = .ok machine ∧
        (RunsAsWords reading machine (wordsOf (armCode content)) ↔
          ∀ word ∈ wordsOf (armCode content), reading.Right word) := by
  have sizes := sizesInside_of_length _ short
  have small := wordsOf_small sizes
  have given := armBuffer_code plain serves elf small name rest
  rw [if_neg code] at given
  have length := narrowed_length small
  have positive : 0 < (armCode content).length := List.length_pos_iff.mpr code
  obtain ⟨machine, run, runs⟩ := imlgen_runs reading length (by omega) (by omega) allocated serves.memory sizes
    (Nat.le_of_lt enough)
  refine ⟨?_, _, _, machine, given, run, runs⟩
  rw [main_plain plain, given]
  dsimp only
  rw [generate, run]
  rfl

/-- One file with a `b`, everything in order. -/
def oneFile : Surroundings where
  files _ := some [2, 0, 0, 0x14]
  common := {
    pathHasExtension := fun path extension => path.endsWith extension
    fileSize := fun _ => 4
    fileLoad := fun _ => some [2, 0, 0, 0x14] }
  host := posix
  nroText := 0
  nroCells := []
  nroDest := 0
  env := .calm
  fuel := 2

theorem main_ends_branch : main oneFile ["koshka", "b.bin"] = .ok exitSuccess := by
  have serves : oneFile.Serves "b.bin" [2, 0, 0, 0x14] :=
    { found := rfl, host := posix_serves (by decide), size := rfl, load := rfl, memory := fun _ => rfl }
  have ends := main_ends oneFile "koshka" "b.bin" [] [2, 0, 0, 0x14] serves
    (fun elf => absurd elf (by decide +kernel)) (by decide +kernel) (by decide +kernel)
  rw [ends]
  decide +kernel

/-- The file that has all of its code: `add x0, x1, x2`. -/
def elfFile : Surroundings :=
  let content := truncated ++ [0x20, 0x00, 0x02, 0x8B]
  { oneFile with
    files := fun _ => some content
    common := { oneFile.common with
      fileSize := fun _ => .ofNat 64 content.length
      fileLoad := fun _ => some content } }

/-- The code gets through, for the reading where addition and subtraction are exchanged. -/
theorem main_runs_iff_add : main elfFile ["koshka", "a.elf"] = .ok exitSuccess ∧
    ∃ armBuf size machine, armBuffer elfFile ["koshka", "a.elf"] = some (armBuf, size) ∧
      imlgen .calm 2 armBuf (size.setWidth 32) = .ok machine ∧ RunsAsWords .exchanged machine [0x8B020020] := by
  have serves : elfFile.Serves "a.elf" (truncated ++ [0x20, 0x00, 0x02, 0x8B]) :=
    { found := rfl, host := posix_serves (by decide +kernel), size := rfl, load := rfl, memory := fun _ => rfl }
  have loads : LoadsExactly posix (truncated ++ [0x20, 0x00, 0x02, 0x8B]) := by
    have found : codeSection (truncated ++ [0x20, 0x00, 0x02, 0x8B])
        (fileHeader (truncated ++ [0x20, 0x00, 0x02, 0x8B])) =
          some { shType := 1, shFlags := 4, shOffset := 0x80, shSize := 4 } := by decide +kernel
    refine ⟨fun other same => ?_, fun absent => ?_⟩
    · cases found.symm.trans same
      decide +kernel
    · cases found.symm.trans absent
  have code : armCode (truncated ++ [0x20, 0x00, 0x02, 0x8B]) = [0x20, 0x00, 0x02, 0x8B] := by decide +kernel
  have words : wordsOf (armCode (truncated ++ [0x20, 0x00, 0x02, 0x8B])) = [0x8B020020] := by
    rw [code]
    rfl
  have plain : elfFile.common.pathHasExtension "a.elf" ".nro" = false := by decide +kernel
  obtain ⟨ends, armBuf, size, machine, given, run, runs⟩ := main_runs_iff elfFile "koshka" "a.elf" []
    (truncated ++ [0x20, 0x00, 0x02, 0x8B]) .exchanged plain serves (fun _ => loads)
    (by rw [code]; exact List.cons_ne_nil _ _) (by rw [code]; rfl)
    (by rw [words]; exact List.forall_mem_singleton.mpr (by decide)) (by rw [words]; decide)
    (by rw [words]; decide)
  rw [words] at runs
  exact ⟨ends, armBuf, size, machine, given, run, runs.mpr (List.forall_mem_singleton.mpr (by decide))⟩

end Koshka
