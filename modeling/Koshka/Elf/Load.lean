import Koshka.Elf

namespace Koshka.Elf

open Data

/-! Which code the loader returns.

Neither the seeks nor the reads are checked.  A section header that sticks out of the file is
filled up with zeros, and a code section that does leaves the end of its buffer as `malloc` had it.
-/

/-- A structure that is zeroed before it is read. -/
def padded (content : List U8) (pos : Nat) : List U8 :=
  overwrite (List.replicate 64 0) 0 ((content.drop pos).take 64)

def fileHeader (content : List U8) : Elf64Ehdr := .ofBytes (padded content 0)

def Elf64Ehdr.IsAArch64 (header : Elf64Ehdr) : Prop :=
  header.eIdent.take 4 = elfMag ∧ header.eMachine = emAArch64

/-- A section of executable program data that is large enough for an instruction. -/
def Elf64Shdr.IsCode (progHeader : Elf64Shdr) : Prop :=
  progHeader.shType = shtProgbits ∧ progHeader.shFlags.getLsbD 2 = true ∧
    4 ≤ progHeader.shSize.toNat ∧ progHeader.shSize.toNat < 2 ^ 63

instance (header : Elf64Ehdr) : Decidable header.IsAArch64 :=
  inferInstanceAs (Decidable (header.eIdent.take 4 = elfMag ∧ header.eMachine = emAArch64))

instance (progHeader : Elf64Shdr) : Decidable progHeader.IsCode :=
  inferInstanceAs (Decidable (progHeader.shType = shtProgbits ∧ progHeader.shFlags.getLsbD 2 = true ∧
    4 ≤ progHeader.shSize.toNat ∧ progHeader.shSize.toNat < 2 ^ 63))

/-- A section header that lies wholly inside the file. -/
def sectionAt (content : List U8) (pos : Nat) : Option Elf64Shdr :=
  if pos + 64 ≤ content.length then some (.ofBytes (window content pos 64)) else none

/-- A section of code whose header lies wholly inside the file. -/
def codeAt (content : List U8) (pos : Nat) : Bool :=
  (sectionAt content pos).any fun progHeader => progHeader.IsCode

/-- The first section of code whose header lies wholly inside the file. -/
def codeSection (content : List U8) (header : Elf64Ehdr) : Option Elf64Shdr :=
  ((List.range header.eShnum.toNat).find? fun i => codeAt content (header.eShoff.toNat + 64 * i)).bind
    fun i => sectionAt content (header.eShoff.toNat + 64 * i)

/-- What the section covers of the file. -/
def Elf64Shdr.Inside (progHeader : Elf64Shdr) (content : List U8) : Prop :=
  progHeader.shOffset.toNat + progHeader.shSize.toNat ≤ content.length

instance (progHeader : Elf64Shdr) (content : List U8) : Decidable (progHeader.Inside content) :=
  inferInstanceAs (Decidable (_ ≤ _))

/-- What the loader is for: the code of a well-formed file and nothing from any other one. -/
def exactCode (content : List U8) (sizeOut : U64) : Option (List U8) × U64 :=
  let header := fileHeader content
  match codeSection content header with
  | some progHeader =>
      if header.IsAArch64 ∧ progHeader.Inside content then
        (some (window content progHeader.shOffset.toNat progHeader.shSize.toNat), progHeader.shSize)
      else (none, sizeOut)
  | none => (none, sizeOut)

/-- The C library works on the file: every position in it can be sought, and memory does not run out. -/
structure Host.Serves (host : Host) (content : List U8) : Prop where
  size : content.length < 2 ^ 63
  seeks : ∀ offset, offset.toNat ≤ content.length → host.seekable offset = true
  allocates : ∀ count, ∃ buf, host.malloc count = some buf ∧ buf.length = count

def Elf64Ehdr.sectionOffset (header : Elf64Ehdr) (i : Nat) : U64 := header.eShoff + 64 * .ofNat 64 i

/-- Where a section header is read.  The reads go on from the ELF header until a seek succeeds. -/
def readPosition (host : Host) (header : Elf64Ehdr) (i : Nat) : Nat :=
  if ∃ j ≤ i, host.seekable (header.sectionOffset j) then (header.sectionOffset i).toNat else 64 + 64 * i

/-- The section header that the loop gets to see. -/
def readSection (host : Host) (content : List U8) (i : Nat) : Elf64Shdr :=
  .ofBytes (padded content (readPosition host (fileHeader content) i))

/-- Code is in the file if its header is, and no header is taken for one of code that is not in
the file. -/
structure LoadsExactly (host : Host) (content : List U8) : Prop where
  inside : ∀ progHeader, codeSection content (fileHeader content) = some progHeader →
    progHeader.Inside content
  absent : codeSection content (fileHeader content) = none →
    ∀ i < (fileHeader content).eShnum.toNat, ¬ (readSection host content i).IsCode

section Load

variable {host : Host} {content : List U8} {header : Elf64Ehdr} {progHeader : Elf64Shdr}
  {sizeOut : U64} {file : File U8} {pos i left : Nat}

theorem padded_inside (inside : pos + 64 ≤ content.length) :
    padded content pos = window content pos 64 := by
  have full : ((content.drop pos).take 64).length = 64 := by
    rw [List.length_take, List.length_drop]
    omega
  rw [padded, overwrite_zero, full, window]
  exact List.append_nil _

theorem hasBitFlag_execinstr (flags : U64) : hasBitFlag flags shfExecinstr = flags.getLsbD 2 := by
  have flag : shfExecinstr = BitVec.twoPow 64 2 := rfl
  rw [hasBitFlag, flag, BitVec.and_twoPow]
  cases flags.getLsbD 2 <;> rfl

theorem tooSmall_iff (size : U64) : size.slt 4 = false ↔ 4 ≤ size.toNat ∧ size.toNat < 2 ^ 63 := by
  have four : (4 : U64).toInt = 4 := rfl
  rw [BitVec.slt, decide_eq_false_iff_not, BitVec.toInt_eq_toNat_cond, four]
  split <;> omega

theorem doesNotMatter_iff : doesNotMatter progHeader = false ↔ progHeader.IsCode := by
  rw [doesNotMatter, hasBitFlag_execinstr, Bool.or_eq_false_iff, Bool.or_eq_false_iff, tooSmall_iff,
    Bool.not_eq_false', Bool.not_eq_false', decide_eq_true_eq, and_assoc]
  rfl

theorem nextSection_padded {i : U32} (source : file.content = content)
    (sought : (host.fseek file (header.eShoff + 64 * i.setWidth 64)).rest = content.drop pos) :
    (nextSection host header i file).1 = .ofBytes (padded content pos) ∧
      (nextSection host header i file).2.content = content ∧
      (nextSection host header i file).2.rest = content.drop (pos + 64) := by
  refine ⟨?_, ?_, ?_⟩
  · rw [padded, ← sought]
    rfl
  · exact File.seek_content.trans source
  · rw [← List.drop_drop, ← sought]
    exact File.read_rest (List.replicate 64 0)

/-- The buffer has the size of the section; it holds the section where that lies inside the file. -/
theorem loadSection_buffer (progHeader : Elf64Shdr) (sizeOut : U64) (serves : host.Serves content)
    (source : file.content = content) :
    ∃ buf, loadSection host progHeader sizeOut file = (some buf, progHeader.shSize) ∧
      (progHeader.Inside content →
        buf = window content progHeader.shOffset.toNat progHeader.shSize.toNat) := by
  obtain ⟨buf, allocated, size⟩ := serves.allocates progHeader.shSize.toNat
  refine ⟨((host.fseek file progHeader.shOffset).read buf progHeader.shSize.toNat).1, ?_, ?_⟩
  · rw [loadSection, allocated]
  · intro inside
    rw [Elf64Shdr.Inside] at inside
    have seekable := serves.seeks progHeader.shOffset (by omega)
    have sought :
        (host.fseek file progHeader.shOffset).rest = content.drop progHeader.shOffset.toNat := by
      rw [Host.fseek, File.seek_rest, if_pos seekable, source]
    rw [File.read_whole size, sought, window]
    rw [sought, List.length_drop]
    omega

/-- Where the file stands before section header `i` is sought. -/
def standPosition (host : Host) (header : Elf64Ehdr) : Nat → Nat
  | 0 => 64
  | i + 1 => readPosition host header i + 64

structure Stands (host : Host) (header : Elf64Ehdr) (content : List U8) (file : File U8)
    (i : Nat) : Prop where
  source : file.content = content
  rest : file.rest = content.drop (standPosition host header i)

theorem sectionOffset_eq (small : i < 2 ^ 32) :
    header.eShoff + 64 * (BitVec.ofNat 32 i).setWidth 64 = header.sectionOffset i := by
  have index : (BitVec.ofNat 32 i).setWidth 64 = BitVec.ofNat 64 i := by
    apply BitVec.eq_of_toNat_eq
    rw [BitVec.toNat_setWidth, BitVec.toNat_ofNat, BitVec.toNat_ofNat, Nat.mod_eq_of_lt small]
  rw [index, Elf64Ehdr.sectionOffset]

theorem sectionOffset_toNat :
    (header.sectionOffset i).toNat = (header.eShoff.toNat + 64 * i) % 2 ^ 64 := by
  have size : (64 : U64).toNat = 64 := rfl
  rw [Elf64Ehdr.sectionOffset, BitVec.toNat_add, BitVec.toNat_mul, BitVec.toNat_ofNat, size]
  omega

theorem readPosition_sought (succeeds : host.seekable (header.sectionOffset i) = true) :
    readPosition host header i = (header.sectionOffset i).toNat :=
  if_pos ⟨i, Nat.le_refl i, succeeds⟩

/-- A seek that fails leaves the file where the header would be read, or behind its end. -/
theorem standPosition_read (serves : host.Serves content)
    (fails : ¬ host.seekable (header.sectionOffset i) = true) :
    content.drop (standPosition host header i) = content.drop (readPosition host header i) := by
  have beyond : content.length < (header.sectionOffset i).toNat := by
    by_contra inside
    exact fails (serves.seeks _ (Nat.le_of_not_lt inside))
  cases i with
  | zero =>
      have unmoved : readPosition host header 0 = 64 + 64 * 0 := by
        refine if_neg fun sought => ?_
        obtain ⟨j, atStart, succeeds⟩ := sought
        exact fails (Nat.le_zero.mp atStart ▸ succeeds)
      rw [unmoved, standPosition]
  | succ i =>
      rw [standPosition]
      by_cases sought : ∃ j ≤ i, host.seekable (header.sectionOffset j)
      · -- the positions differ only where the offset wraps around
        have before : readPosition host header i = (header.sectionOffset i).toNat := if_pos sought
        obtain ⟨j, earlier, succeeds⟩ := sought
        have here : readPosition host header (i + 1) = (header.sectionOffset (i + 1)).toNat :=
          if_pos ⟨j, Nat.le_succ_of_le earlier, succeeds⟩
        have size := serves.size
        rw [sectionOffset_toNat] at before here beyond
        rw [List.drop_of_length_le (by omega), List.drop_of_length_le (by omega)]
      · have before : readPosition host header i = 64 + 64 * i := if_neg sought
        have here : readPosition host header (i + 1) = 64 + 64 * (i + 1) := by
          refine if_neg fun later => ?_
          obtain ⟨j, bound, succeeds⟩ := later
          rcases Nat.le_succ_iff.mp bound with earlier | rfl
          · exact sought ⟨j, earlier, succeeds⟩
          · exact fails succeeds
        rw [before, here, Nat.mul_succ, Nat.add_assoc]

theorem Stands.sought (stands : Stands host header content file i) (serves : host.Serves content) :
    (host.fseek file (header.sectionOffset i)).rest = content.drop (readPosition host header i) := by
  rw [Host.fseek, File.seek_rest, stands.source]
  split
  · rename_i succeeds
    rw [readPosition_sought succeeds]
  · rename_i fails
    rw [stands.rest, standPosition_read serves fails]

theorem Stands.nextSection (stands : Stands host header content file i) (serves : host.Serves content)
    (small : i < 2 ^ 32) :
    (nextSection host header (.ofNat 32 i) file).1 =
        .ofBytes (padded content (readPosition host header i)) ∧
      Stands host header content (nextSection host header (.ofNat 32 i) file).2 (i + 1) := by
  have sought := stands.sought serves
  rw [← sectionOffset_eq small] at sought
  obtain ⟨read, same, rest⟩ := nextSection_padded stands.source sought
  exact ⟨read, same, rest⟩

theorem loadSections_skip {i : U32} (skip : doesNotMatter (nextSection host header i file).1 = true) :
    loadSections host header sizeOut (left + 1) i file =
      loadSections host header sizeOut left (i + 1) (nextSection host header i file).2 :=
  if_pos skip

theorem loadSections_load {i : U32} (matters : doesNotMatter (nextSection host header i file).1 = false) :
    loadSections host header sizeOut (left + 1) i file =
      loadSection host (nextSection host header i file).1 sizeOut (nextSection host header i file).2 :=
  if_neg (Bool.eq_false_iff.mp matters)

/-- The loop passes over the headers that are not taken for those of code. -/
theorem loadSections_skips (left : Nat) (sizeOut : U64) (serves : host.Serves content)
    (stands : Stands host header content file 0)
    {count : Nat} (small : count ≤ 2 ^ 32)
    (others : ∀ j < count, ¬ (Elf64Shdr.ofBytes (padded content (readPosition host header j))).IsCode) :
    ∃ next, Stands host header content next count ∧
      loadSections host header sizeOut (left + count) 0 file =
        loadSections host header sizeOut left (.ofNat 32 count) next := by
  induction count generalizing left with
  | zero => exact ⟨file, stands, rfl⟩
  | succ count ih =>
      obtain ⟨next, stood, skipped⟩ :=
        ih (left + 1) (Nat.le_of_succ_le small) fun j bound => others j (Nat.lt_succ_of_lt bound)
      obtain ⟨read, stays⟩ := stood.nextSection serves small
      have other : doesNotMatter (nextSection host header (.ofNat 32 count) next).1 = true := by
        rw [read]
        exact eq_true_of_ne_false (mt doesNotMatter_iff.mp (others count (Nat.lt_succ_self count)))
      refine ⟨_, stays, ?_⟩
      rw [← Nat.add_assoc, Nat.add_right_comm, skipped, loadSections_skip other, BitVec.ofNat_add]
      rfl

theorem loadSections_loads (serves : host.Serves content) (stands : Stands host header content file 0)
    {total : Nat} (small : total ≤ 2 ^ 32) (bound : i < total)
    (others : ∀ j < i, ¬ (Elf64Shdr.ofBytes (padded content (readPosition host header j))).IsCode)
    (code : progHeader.IsCode)
    (read : Elf64Shdr.ofBytes (padded content (readPosition host header i)) = progHeader) :
    ∃ buf, loadSections host header sizeOut total 0 file = (some buf, progHeader.shSize) ∧
      (progHeader.Inside content →
        buf = window content progHeader.shOffset.toNat progHeader.shSize.toNat) := by
  obtain ⟨left, rfl⟩ : ∃ left, total = left + 1 + i := ⟨total - i - 1, by omega⟩
  obtain ⟨next, stood, skipped⟩ := loadSections_skips (left + 1) sizeOut serves stands (by omega) others
  obtain ⟨seen, stays⟩ := stood.nextSection serves (by omega)
  rw [read] at seen
  obtain ⟨buf, loaded, holds⟩ := loadSection_buffer progHeader sizeOut serves stays.source
  refine ⟨buf, ?_, holds⟩
  have matters : doesNotMatter (nextSection host header (.ofNat 32 i) next).1 = false := by
    rw [seen]
    exact doesNotMatter_iff.mpr code
  rw [skipped, loadSections_load matters, seen, loaded]

theorem loadElf_sections (host : Host) (sizeOut : U64) (elf : (fileHeader content).IsAArch64) :
    ∃ file, Stands host (fileHeader content) content file 0 ∧ loadElf host (some content) sizeOut =
      loadSections host (fileHeader content) sizeOut (fileHeader content).eShnum.toNat 0 file := by
  refine ⟨((File.opened content).read (List.replicate 64 0) 64).2, ⟨rfl, File.read_rest _⟩, ?_⟩
  exact (if_neg (not_not.mpr elf.1)).trans (if_neg (not_not.mpr elf.2))

theorem loadElf_other (other : ¬ (fileHeader content).IsAArch64) :
    loadElf host (some content) sizeOut = (none, sizeOut) := by
  by_cases magic : (fileHeader content).eIdent.take 4 = elfMag
  · have machine : (fileHeader content).eMachine ≠ emAArch64 := fun same => other ⟨magic, same⟩
    exact (if_neg (not_not.mpr magic)).trans (if_pos machine)
  · exact if_pos magic

/-- Nothing is loaded if no header is taken for one of code. -/
theorem loadElf_nothing (serves : host.Serves content) (elf : (fileHeader content).IsAArch64)
    (others : ∀ i < (fileHeader content).eShnum.toNat, ¬ (readSection host content i).IsCode) :
    loadElf host (some content) sizeOut = (none, sizeOut) := by
  obtain ⟨file, stands, loaded⟩ := loadElf_sections host sizeOut elf
  have small : (fileHeader content).eShnum.toNat ≤ 2 ^ 32 := by omega
  obtain ⟨next, -, skipped⟩ := loadSections_skips 0 sizeOut serves stands small others
  rw [loaded]
  rw [Nat.zero_add] at skipped
  exact skipped

theorem loadElf_first (sizeOut : U64) (serves : host.Serves content)
    (elf : (fileHeader content).IsAArch64)
    (bound : i < (fileHeader content).eShnum.toNat) (code : (readSection host content i).IsCode)
    (others : ∀ j < i, ¬ (readSection host content j).IsCode) :
    ∃ buf, loadElf host (some content) sizeOut = (some buf, (readSection host content i).shSize) ∧
      ((readSection host content i).Inside content → buf = window content
        (readSection host content i).shOffset.toNat (readSection host content i).shSize.toNat) := by
  obtain ⟨file, stands, loaded⟩ := loadElf_sections host sizeOut elf
  rw [loaded]
  exact loadSections_loads serves stands (by omega) bound others code rfl

/-- A header inside the file is read where it is. -/
theorem readSection_inside (serves : host.Serves content)
    (inside : (fileHeader content).eShoff.toNat + 64 * i + 64 ≤ content.length) :
    sectionAt content ((fileHeader content).eShoff.toNat + 64 * i) =
      some (readSection host content i) := by
  have size := serves.size
  have place :
      ((fileHeader content).sectionOffset i).toNat = (fileHeader content).eShoff.toNat + 64 * i := by
    rw [sectionOffset_toNat, Nat.mod_eq_of_lt (by omega)]
  have read := readPosition_sought (serves.seeks ((fileHeader content).sectionOffset i) (by omega))
  rw [sectionAt, if_pos inside, readSection, read, place, padded_inside inside]

theorem codeAt_iff : codeAt content pos = true ↔
    ∃ progHeader, sectionAt content pos = some progHeader ∧ progHeader.IsCode := by
  rw [codeAt, Option.any_eq_true]
  simp only [decide_eq_true_eq]

theorem codeSection_some (found : codeSection content header = some progHeader) :
    ∃ i < header.eShnum.toNat, sectionAt content (header.eShoff.toNat + 64 * i) = some progHeader ∧
      progHeader.IsCode ∧ ∀ j < i, codeAt content (header.eShoff.toNat + 64 * j) = false := by
  obtain ⟨i, first, here⟩ := Option.bind_eq_some_iff.mp found
  obtain ⟨code, member, others⟩ := List.find?_range_eq_some.mp first
  obtain ⟨same, read, holds⟩ := codeAt_iff.mp code
  rw [here] at read
  cases read
  refine ⟨i, List.mem_range.mp member, here, holds, fun j earlier => ?_⟩
  exact (Bool.not_eq_true' _).mp (others j earlier)

theorem exactCode_other (other : ¬ (fileHeader content).IsAArch64) :
    exactCode content sizeOut = (none, sizeOut) := by
  rw [exactCode]
  split
  · exact if_neg fun both => other both.1
  · rfl

theorem exactCode_none (absent : codeSection content (fileHeader content) = none) :
    exactCode content sizeOut = (none, sizeOut) := by
  simp only [exactCode, absent]

theorem exactCode_inside (elf : (fileHeader content).IsAArch64)
    (found : codeSection content (fileHeader content) = some progHeader)
    (inside : progHeader.Inside content) :
    exactCode content sizeOut =
      (some (window content progHeader.shOffset.toNat progHeader.shSize.toNat), progHeader.shSize) := by
  simp only [exactCode, found, elf, inside, and_self, ↓reduceIte]

theorem exactCode_outside (found : codeSection content (fileHeader content) = some progHeader)
    (outside : ¬ progHeader.Inside content) : exactCode content sizeOut = (none, sizeOut) := by
  simp only [exactCode, found, outside, and_false, ↓reduceIte]

/-- The first header of code inside the file is also the first one that the loop sees. -/
theorem codeSection_read (serves : host.Serves content)
    (found : codeSection content (fileHeader content) = some progHeader) :
    ∃ i < (fileHeader content).eShnum.toNat, readSection host content i = progHeader ∧ progHeader.IsCode ∧
      ∀ j < i, ¬ (readSection host content j).IsCode := by
  obtain ⟨i, bound, here, code, others⟩ := codeSection_some found
  have inside : (fileHeader content).eShoff.toNat + 64 * i + 64 ≤ content.length := by
    by_contra outside
    rw [sectionAt, if_neg outside] at here
    cases here
  rw [readSection_inside serves inside] at here
  refine ⟨i, bound, Option.some.inj here, code, fun j earlier taken => ?_⟩
  have before := readSection_inside (i := j) serves (by omega)
  exact Bool.eq_false_iff.mp (others j earlier) (codeAt_iff.mpr ⟨_, before, taken⟩)

theorem loadElf_found (sizeOut : U64) (serves : host.Serves content)
    (elf : (fileHeader content).IsAArch64)
    (found : codeSection content (fileHeader content) = some progHeader) :
    loadElf host (some content) sizeOut = exactCode content sizeOut ↔ progHeader.Inside content := by
  obtain ⟨i, bound, rfl, code, others⟩ := codeSection_read serves found
  obtain ⟨buf, loaded, holds⟩ := loadElf_first sizeOut serves elf bound code others
  rw [loaded]
  by_cases inside : (readSection host content i).Inside content
  · refine iff_of_true ?_ inside
    rw [holds inside, exactCode_inside elf found inside]
  · refine iff_of_false (fun same => ?_) inside
    rw [exactCode_outside found inside] at same
    cases same

theorem loadElf_absent (sizeOut : U64) (serves : host.Serves content)
    (elf : (fileHeader content).IsAArch64)
    (absent : codeSection content (fileHeader content) = none) :
    loadElf host (some content) sizeOut = exactCode content sizeOut ↔
      ∀ i < (fileHeader content).eShnum.toNat, ¬ (readSection host content i).IsCode := by
  rw [exactCode_none absent]
  refine ⟨fun nothing i bound code => ?_, loadElf_nothing serves elf⟩
  cases taken : (List.range (fileHeader content).eShnum.toNat).find?
      fun i => (readSection host content i).IsCode with
  | some first =>
      obtain ⟨code, member, others⟩ := List.find?_range_eq_some.mp taken
      obtain ⟨buf, loaded, -⟩ := loadElf_first sizeOut serves elf (List.mem_range.mp member)
        (of_decide_eq_true code) fun j earlier also => by simpa [also] using others j earlier
      rw [nothing] at loaded
      cases loaded
  | none => exact List.find?_eq_none.mp taken i (List.mem_range.mpr bound) (decide_eq_true code)

/-- The loader returns exactly the code of the file if and only if the file is none for AArch64, or
the headers that are taken for those of code are right. -/
theorem loadElf_exact_iff (host : Host) (content : List U8) (sizeOut : U64)
    (serves : host.Serves content) :
    loadElf host (some content) sizeOut = exactCode content sizeOut ↔
      ((fileHeader content).IsAArch64 → LoadsExactly host content) := by
  by_cases elf : (fileHeader content).IsAArch64
  · rw [imp_iff_right elf]
    cases found : codeSection content (fileHeader content) with
    | some progHeader =>
        rw [loadElf_found sizeOut serves elf found]
        constructor
        · intro inside
          refine ⟨fun other same => ?_, fun absent => ?_⟩
          · cases found.symm.trans same
            exact inside
          · cases found.symm.trans absent
        · intro loads
          exact loads.inside progHeader found
    | none =>
        rw [loadElf_absent sizeOut serves elf found]
        constructor
        · intro others
          refine ⟨fun other same => ?_, fun _ => others⟩
          cases found.symm.trans same
        · intro loads
          exact loads.absent found
  · rw [loadElf_other elf, exactCode_other elf]
    exact iff_of_true rfl fun itself => absurd itself elf

/-- A C library that refuses negative offsets, with memory full of garbage. -/
def posix : Host where
  seekable offset := offset.toNat < 2 ^ 63
  malloc count := some (List.replicate count 0xAA)

theorem posix_serves (size : content.length < 2 ^ 63) : posix.Serves content where
  size := size
  seeks := fun _ inside => decide_eq_true (Nat.lt_of_le_of_lt inside size)
  allocates := fun _ => ⟨_, rfl, List.length_replicate⟩

/-- An ELF file with one section header, whose four bytes of code are cut off. -/
def truncated : List U8 :=
  elfMag ++ List.replicate 14 0 ++ [0xB7, 0] ++ List.replicate 20 0 ++ 0x40 :: List.replicate 19 0 ++
    [1, 0, 0, 0] ++
  (List.replicate 4 0 ++ [1, 0, 0, 0] ++ 4 :: List.replicate 15 0 ++ 0x80 :: List.replicate 7 0 ++
    4 :: List.replicate 31 0)

theorem loadElf_exact_iff_truncated : loadElf posix (some truncated) 0 = exactCode truncated 0 ↔
    ((fileHeader truncated).IsAArch64 → LoadsExactly posix truncated) :=
  loadElf_exact_iff posix truncated 0 (posix_serves (by decide +kernel))

/-- The buffer comes back as `malloc` had it. -/
theorem loadElf_exact_fails_truncated : posix.Serves truncated ∧
    loadElf posix (some truncated) 0 = (some [0xAA, 0xAA, 0xAA, 0xAA], 4) ∧
    exactCode truncated 0 = (none, 0) :=
  ⟨posix_serves (by decide +kernel), by decide +kernel, by decide +kernel⟩

end Load

end Koshka.Elf
