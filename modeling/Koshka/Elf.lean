import Koshka.Bitmanip
import Koshka.Data.File

namespace Koshka.Elf

open Data

def littleEndian (bytes : List U8) (start count : Nat) : Nat :=
  (window bytes start count).foldr (fun byte rest => byte.toNat + 256 * rest) 0

structure Elf64Ehdr where
  eIdent : List U8
  eMachine : BitVec 16
  eShoff : U64
  eShnum : BitVec 16
deriving Repr, DecidableEq

structure Elf64Shdr where
  shType : U32
  shFlags : U64
  shOffset : U64
  shSize : U64
deriving Repr, DecidableEq

def Elf64Ehdr.ofBytes (bytes : List U8) : Elf64Ehdr where
  eIdent := window bytes 0 16
  eMachine := .ofNat 16 (littleEndian bytes 18 2)
  eShoff := .ofNat 64 (littleEndian bytes 40 8)
  eShnum := .ofNat 16 (littleEndian bytes 60 2)

def Elf64Shdr.ofBytes (bytes : List U8) : Elf64Shdr where
  shType := .ofNat 32 (littleEndian bytes 4 4)
  shFlags := .ofNat 64 (littleEndian bytes 8 8)
  shOffset := .ofNat 64 (littleEndian bytes 24 8)
  shSize := .ofNat 64 (littleEndian bytes 32 8)

def elfMag : List U8 := [0x7F, 0x45, 0x4C, 0x46]

def emAArch64 : BitVec 16 := 183

def shtProgbits : U32 := 1

def shfExecinstr : U64 := 4

/-- The C library: where `fseek` gets to in the file, and what `malloc` comes up with. -/
structure Host where
  seekable : U64 → Bool
  malloc : Nat → Option (List U8)

def Host.fseek (host : Host) (file : File U8) (offset : U64) : File U8 :=
  file.seek (host.seekable offset) offset.toNat

/-- Section header `i`, and the file behind it. -/
def nextSection (host : Host) (header : Elf64Ehdr) (i : U32) (file : File U8) : Elf64Shdr × File U8 :=
  let file := host.fseek file (header.eShoff + 64 * i.setWidth 64)
  let (bytes, file) := file.read (List.replicate 64 0) 64
  (.ofBytes bytes, file)

def doesNotMatter (progHeader : Elf64Shdr) : Bool :=
  let size := progHeader.shSize
  let isExecutable := hasBitFlag progHeader.shFlags shfExecinstr
  let isCode := progHeader.shType = shtProgbits
  let tooSmall := size.slt 4
  !isCode || !isExecutable || tooSmall

/-- Allocate and read the code. -/
def loadSection (host : Host) (progHeader : Elf64Shdr) (sizeOut : U64) (file : File U8) :
    Option (List U8) × U64 :=
  let size := progHeader.shSize
  let file := host.fseek file progHeader.shOffset
  match host.malloc size.toNat with
  | none => (none, sizeOut)
  | some buf =>
      let (buf, _) := file.read buf size.toNat
      (some buf, size)

/-- The loop over the section headers, of which `left` have not been looked at. -/
def loadSections (host : Host) (header : Elf64Ehdr) (sizeOut : U64) :
    (left : Nat) → (i : U32) → File U8 → Option (List U8) × U64
  | 0, _, _ => (none, sizeOut)
  | left + 1, i, file =>
      let (progHeader, file) := nextSection host header i file
      if doesNotMatter progHeader then loadSections host header sizeOut left (i + 1) file
      else loadSection host progHeader sizeOut file

/-- The buffer that is returned, and `*size_out`.  The file is what `fopen` finds at the path. -/
def loadElf (host : Host) (found : Option (List U8)) (sizeOut : U64) : Option (List U8) × U64 :=
  match found with
  | none => (none, sizeOut)
  | some content =>
      let (bytes, file) := (File.opened content).read (List.replicate 64 0) 64
      let header := Elf64Ehdr.ofBytes bytes
      if header.eIdent.take 4 ≠ elfMag then (none, sizeOut)
      else if header.eMachine ≠ emAArch64 then (none, sizeOut)
      else loadSections host header sizeOut header.eShnum.toNat 0 file

/-- A file that cannot be opened is none. -/
def fileIsElf (found : Option (List U8)) : Bool :=
  match found with
  | none => false
  | some content =>
      let (bytes, _) := (File.opened content).read (List.replicate 64 0) 64
      let header := Elf64Ehdr.ofBytes bytes
      header.eIdent.take 4 = elfMag

end Koshka.Elf
