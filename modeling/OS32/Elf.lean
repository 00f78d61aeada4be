import OS32.Ia32
import OS32.SprintkTurns
import OS32.Strcpy

/-!
# The symbol table of the kernel

`elf_from_multiboot` looks for the symbol table and its strings among the
sections that the boot loader passes on, and `elf_lookup_symbol` looks for the
function around an address.  Tables lie in memory as arrays of words.
-/

namespace OS32

open Bytes KString
open Console (Uchar)
open Ia32 (read32)

/-- `elf_t` -/
structure Elf where
  symtab : Uint
  symtabsz : Uint
  strtab : Uint
  strtabsz : Uint

namespace Elf

def ELF32_ST_TYPE (i : Uchar) : Uchar := i &&& 0xf

def ELF_PROG_FLAG_WRITE : Uchar := 2

/-- `sizeof(elf_section_header_t)` -/
def sizeofSectionHeader : ℕ := 40

/-- `sizeof(elf_symbol_t)` -/
def sizeofSymbol : ℕ := 16

/-- The address of the element `i` of an array. -/
def element (base : Uint) (size i : ℕ) : Uint :=
  base + BitVec.ofNat 32 (size * i)

/-- The ASCII characters of a literal. -/
def ascii (s : String) : List Uchar :=
  s.toList.map fun c => BitVec.ofNat 8 c.toNat

def strtabText : List Uchar := ascii ".strtab"
def symtabText : List Uchar := ascii ".symtab"

/-- The memory of the kernel, with the two names that `elf.c` compares with. -/
structure Image where
  mem : Memory
  strtabName : Uint
  symtabName : Uint
  strtab_string : CString (bytesAt mem strtabName) strtabText
  symtab_string : CString (bytesAt mem symtabName) symtabText

section Code

variable (img : Image)

/-- The fields of `sh[i]`. -/
def shName (sh : Uint) (i : ℕ) : Uint :=
  read32 img.mem (element sh sizeofSectionHeader i)
def shAddr (sh : Uint) (i : ℕ) : Uint :=
  read32 img.mem (element sh sizeofSectionHeader i + 12)
def shSize (sh : Uint) (i : ℕ) : Uint :=
  read32 img.mem (element sh sizeofSectionHeader i + 20)

/-- `mb->num`, `mb->addr` and `mb->shndx`. -/
def mbNum (mb : Uint) : Uint := read32 img.mem (mb + 28)
def mbAddr (mb : Uint) : Uint := read32 img.mem (mb + 36)
def mbShndx (mb : Uint) : Uint := read32 img.mem (mb + 40)

/-- `(const char *)(shstrtab + sh[i].name) + PAGE_OFFSET` -/
def sectionName (shstrtab sh : Uint) (i : ℕ) : Uint :=
  shstrtab + shName img sh i + PAGE_OFFSET

/-- One turn of the loop over the sections. -/
def sectionTurn (shstrtab sh : Uint) (elf : Elf) (i : ℕ) : Except Fault Elf := do
  let name := sectionName img shstrtab sh i
  let isStrtab ← strcmp img.mem name img.strtabName
  let elf := if isStrtab = 0 then
      { elf with
        strtab := shAddr img sh i + PAGE_OFFSET
        strtabsz := shSize img sh i }
    else elf
  let isSymtab ← strcmp img.mem name img.symtabName
  return if isSymtab = 0 then
      { elf with
        symtab := shAddr img sh i + PAGE_OFFSET
        symtabsz := shSize img sh i }
    else elf

/-- `elf_from_multiboot`; `elf` is the variable as the function finds it on the
stack. -/
def elfFromMultiboot (mb : Uint) (elf : Elf) : Except Fault Elf :=
  let sh := mbAddr img mb
  let shstrtab := shAddr img sh (mbShndx img mb).toNat
  (List.range (mbNum img mb).toNat).foldlM (sectionTurn img shstrtab sh) elf

/-- The fields of `elf->symtab[i]`. -/
def symName (elf : Elf) (i : ℕ) : Uint :=
  read32 img.mem (element elf.symtab sizeofSymbol i)
def symValue (elf : Elf) (i : ℕ) : Uint :=
  read32 img.mem (element elf.symtab sizeofSymbol i + 4)
def symSize (elf : Elf) (i : ℕ) : Uint :=
  read32 img.mem (element elf.symtab sizeofSymbol i + 8)
def symInfo (elf : Elf) (i : ℕ) : Uchar :=
  img.mem (element elf.symtab sizeofSymbol i + 12)

/-- `n` more turns of the loop of `elf_lookup_symbol`, from the symbol `i`
on. -/
def lookupFrom (addr : Uint) (elf : Elf) : ℕ → ℕ → Uint
  | 0, _ => 0
  | n + 1, i =>
      if ELF32_ST_TYPE (symInfo img elf i) ≠ ELF_PROG_FLAG_WRITE then
        lookupFrom addr elf n (i + 1)
      else if symValue img elf i ≤ addr ∧
          addr < symValue img elf i + symSize img elf i then
        elf.strtab + symName img elf i
      else lookupFrom addr elf n (i + 1)

/-- `elf_lookup_symbol`, with 0 for NULL. -/
def elfLookupSymbol (addr : Uint) (elf : Elf) : Uint :=
  lookupFrom img addr elf (elf.symtabsz.toNat / sizeofSymbol) 0

end Code

/-! ## Sections and symbols -/

/-- A section as the boot loader describes it. -/
structure Section where
  name : List Uchar
  addr : Uint
  size : Uint
  deriving DecidableEq

/-- The section headers at `mb` describe these sections. -/
structure Describes (img : Image) (mb : Uint) (sections : List Section) :
    Prop where
  count : sections.length = (mbNum img mb).toNat
  name : ∀ i (hi : i < sections.length),
    CString (bytesAt img.mem (sectionName img
      (shAddr img (mbAddr img mb) (mbShndx img mb).toNat) (mbAddr img mb) i))
      sections[i].name
  addr : ∀ i (hi : i < sections.length),
    shAddr img (mbAddr img mb) i = sections[i].addr
  size : ∀ i (hi : i < sections.length),
    shSize img (mbAddr img mb) i = sections[i].size

/-- The last section of a name. -/
def lastNamed (name : List Uchar) (sections : List Section) : Option Section :=
  (sections.filter fun s => s.name = name).getLast?

/-- Where the tables of the kernel are; without such a section the variable
keeps what it held. -/
def located (sections : List Section) (elf : Elf) : Elf where
  symtab := ((lastNamed symtabText sections).map
    fun s => s.addr + PAGE_OFFSET).getD elf.symtab
  symtabsz := ((lastNamed symtabText sections).map Section.size).getD
    elf.symtabsz
  strtab := ((lastNamed strtabText sections).map
    fun s => s.addr + PAGE_OFFSET).getD elf.strtab
  strtabsz := ((lastNamed strtabText sections).map Section.size).getD
    elf.strtabsz

/-- The function symbol `i` covers the address.  One that would reach the end
of the address space covers nothing. -/
def Covers (img : Image) (elf : Elf) (addr : Uint) (i : ℕ) : Prop :=
  ELF32_ST_TYPE (symInfo img elf i) = ELF_PROG_FLAG_WRITE ∧
    (symValue img elf i).toNat ≤ addr.toNat ∧
    addr.toNat < (symValue img elf i).toNat + (symSize img elf i).toNat ∧
    (symValue img elf i).toNat + (symSize img elf i).toNat < 2 ^ 32

instance (img : Image) (elf : Elf) (addr : Uint) :
    DecidablePred (Covers img elf addr) := fun _ =>
  inferInstanceAs (Decidable (_ ∧ _))

variable {img : Image}

/-! ## `elf_from_multiboot` -/

theorem lastNamed_concat (name : List Uchar) (sections : List Section)
    (s : Section) : lastNamed name (sections ++ [s]) =
      if s.name = name then some s else lastNamed name sections := by
  unfold lastNamed
  by_cases hname : s.name = name <;> simp [List.filter_append, hname]

theorem string_short {p : Uint} {t : List Uchar} {mem : Memory}
    (ht : CString (bytesAt mem p) t) : t.length < walkBound :=
  @Sprintk.string_length ⟨mem, 0, fun _ => 0⟩ _ _ ht

/-- One turn notes the section if it has one of the names. -/
theorem sectionTurn_eq {shstrtab sh : Uint} {i : ℕ} {s : Section}
    (hname : CString (bytesAt img.mem (sectionName img shstrtab sh i)) s.name)
    (haddr : shAddr img sh i = s.addr) (hsize : shSize img sh i = s.size)
    (sections : List Section) (elf : Elf) :
    sectionTurn img shstrtab sh (located sections elf) i =
      .ok (located (sections ++ [s]) elf) := by
  have hdistinct : strtabText ≠ symtabText := by decide
  dsimp only [sectionTurn]
  rw [strcmp_strings hname img.strtab_string (string_short hname),
    strcmp_strings hname img.symtab_string (string_short hname), haddr, hsize]
  unfold located
  rw [lastNamed_concat, lastNamed_concat]
  by_cases hstr : s.name = strtabText
  · have hsym : s.name ≠ symtabText := fun h => hdistinct (hstr.symm.trans h)
    simp only [if_pos hstr, if_neg hsym]
    rfl
  · by_cases hsym : s.name = symtabText
    · simp only [if_pos hsym, if_neg hstr]
      rfl
    · simp only [if_neg hsym, if_neg hstr]
      rfl

/-- `elf_from_multiboot` finds the last section of each of the two names. -/
theorem elfFromMultiboot_eq {mb : Uint} {sections : List Section}
    (hdesc : Describes img mb sections) (elf : Elf) :
    elfFromMultiboot img mb elf = .ok (located sections elf) := by
  unfold elfFromMultiboot
  have hloop : ∀ n ≤ sections.length,
      (List.range n).foldlM (sectionTurn img
        (shAddr img (mbAddr img mb) (mbShndx img mb).toNat) (mbAddr img mb))
        elf = .ok (located (sections.take n) elf) := by
    intro n hn
    induction n with
    | zero => rfl
    | succ n ih =>
        have hlt : n < sections.length := hn
        rw [List.range_succ, List.foldlM_append, ih hlt.le,
          List.take_succ_eq_append_getElem hlt]
        change List.foldlM (m := Except Fault) _
          (located (sections.take n) elf) [n] = _
        rw [List.foldlM_cons, sectionTurn_eq (hdesc.name n hlt)
          (hdesc.addr n hlt) (hdesc.size n hlt)]
        rfl
  have hall := hloop sections.length le_rfl
  rwa [List.take_length, hdesc.count] at hall

/-! ## `elf_lookup_symbol` -/

theorem lt_end_iff {addr value size : Uint} (hstart : value ≤ addr) :
    addr < value + size ↔ addr.toNat < value.toNat + size.toNat ∧
      value.toNat + size.toNat < 2 ^ 32 := by
  have hle : value.toNat ≤ addr.toNat := hstart
  have hv := value.isLt
  have hs := size.isLt
  have ha := addr.isLt
  rw [BitVec.lt_def, BitVec.toNat_add]
  omega

theorem covers_iff (elf : Elf) (addr : Uint) (i : ℕ) :
    Covers img elf addr i ↔
      ELF32_ST_TYPE (symInfo img elf i) = ELF_PROG_FLAG_WRITE ∧
        symValue img elf i ≤ addr ∧
        addr < symValue img elf i + symSize img elf i := by
  unfold Covers
  refine and_congr_right fun _ => and_congr_right fun hstart => ?_
  exact (lt_end_iff hstart).symm

theorem lookupFrom_eq (addr : Uint) (elf : Elf) (n i : ℕ) :
    lookupFrom img addr elf n i =
      (((List.range' i n).find? fun j => Covers img elf addr j).map
        fun j => elf.strtab + symName img elf j).getD 0 := by
  induction n generalizing i with
  | zero => rfl
  | succ n ih =>
      unfold lookupFrom
      rw [List.range'_succ, List.find?_cons]
      have hcovers := @covers_iff img elf addr i
      by_cases htype :
          ELF32_ST_TYPE (symInfo img elf i) = ELF_PROG_FLAG_WRITE
      · rw [if_neg (not_not.mpr htype)]
        by_cases hin : symValue img elf i ≤ addr ∧
            addr < symValue img elf i + symSize img elf i
        · rw [if_pos hin, decide_eq_true (hcovers.mpr ⟨htype, hin⟩)]
          rfl
        · rw [if_neg hin,
            decide_eq_false fun h => hin (hcovers.mp h).2]
          exact ih (i + 1)
      · rw [if_pos htype, decide_eq_false fun h => htype (hcovers.mp h).1]
        exact ih (i + 1)

/-- `elf_lookup_symbol` returns the name of the first function symbol that
covers the address, or NULL. -/
theorem elfLookupSymbol_eq (addr : Uint) (elf : Elf) :
    elfLookupSymbol img addr elf =
      (((List.range (elf.symtabsz.toNat / sizeofSymbol)).find?
        fun j => Covers img elf addr j).map
        fun j => elf.strtab + symName img elf j).getD 0 := by
  rw [elfLookupSymbol, lookupFrom_eq, List.range_eq_range']

/-- The symbol `i` is the first one that covers the address. -/
def FirstAt (img : Image) (elf : Elf) (addr : Uint) (i : ℕ) : Prop :=
  i < elf.symtabsz.toNat / sizeofSymbol ∧ Covers img elf addr i ∧
    ∀ j < i, ¬ Covers img elf addr j

theorem elfLookupSymbol_of_first {elf : Elf} {addr : Uint} {i : ℕ}
    (hfirst : FirstAt img elf addr i) :
    elfLookupSymbol img addr elf = elf.strtab + symName img elf i := by
  obtain ⟨hlt, hcovers, hbefore⟩ := hfirst
  have hfind : (List.range (elf.symtabsz.toNat / sizeofSymbol)).find?
      (fun j => decide (Covers img elf addr j)) = some i := by
    rw [List.find?_range_eq_some]
    refine ⟨decide_eq_true hcovers, List.mem_range.mpr hlt, fun j hj => ?_⟩
    simpa using hbefore j hj
  rw [elfLookupSymbol_eq, hfind]
  rfl

theorem elfLookupSymbol_of_none {elf : Elf} {addr : Uint}
    (hnone : ∀ i < elf.symtabsz.toNat / sizeofSymbol,
      ¬ Covers img elf addr i) :
    elfLookupSymbol img addr elf = 0 := by
  have hfind : (List.range (elf.symtabsz.toNat / sizeofSymbol)).find?
      (fun j => decide (Covers img elf addr j)) = none := by
    rw [List.find?_eq_none]
    intro j hj
    simpa using hnone j (List.mem_range.mp hj)
  rw [elfLookupSymbol_eq, hfind]
  rfl

/-- `elf_from_multiboot` finds the two tables of the kernel, and with them
`elf_lookup_symbol` returns the name of the first function around an address,
and NULL where there is none. -/
theorem kernel_symbols {mb : Uint} {sections : List Section}
    {symtab strtab : Section} (hdesc : Describes img mb sections)
    (hsymtab : lastNamed symtabText sections = some symtab)
    (hstrtab : lastNamed strtabText sections = some strtab) (old : Elf) :
    ∃ elf : Elf, elf = ⟨symtab.addr + PAGE_OFFSET, symtab.size,
        strtab.addr + PAGE_OFFSET, strtab.size⟩ ∧
      elfFromMultiboot img mb old = .ok elf ∧
      ∀ addr, (∀ i, FirstAt img elf addr i → elfLookupSymbol img addr elf =
          strtab.addr + PAGE_OFFSET + symName img elf i) ∧
        ((∀ i < symtab.size.toNat / sizeofSymbol, ¬ Covers img elf addr i) →
          elfLookupSymbol img addr elf = 0) := by
  have hlocated : located sections old = ⟨symtab.addr + PAGE_OFFSET,
      symtab.size, strtab.addr + PAGE_OFFSET, strtab.size⟩ := by
    simp [located, hsymtab, hstrtab]
  refine ⟨_, rfl, hlocated ▸ elfFromMultiboot_eq hdesc old,
    fun addr => ⟨fun i hfirst => ?_, fun hnone => ?_⟩⟩
  · exact elfLookupSymbol_of_first hfirst
  · exact elfLookupSymbol_of_none hnone

/-- A boot information at 0 with two section headers from 44 on, the strings at
124 and the symbol `f` for the sixteen bytes from `0x1000` on at 143. -/
def tinyBytes : List Uchar :=
  [0, 0, 0, 0, 0, 0, 0, 0, 0, 0, 0, 0, 0, 0, 0, 0, 0, 0, 0, 0, 0, 0, 0, 0,
    0, 0, 0, 0, 2, 0, 0, 0, 40, 0, 0, 0, 44, 0, 0, 0, 0, 0, 0, 0] ++
  [0, 0, 0, 0, 3, 0, 0, 0, 0, 0, 0, 0, 124, 0, 0, 0, 0, 0, 0, 0, 18, 0, 0, 0,
    0, 0, 0, 0, 0, 0, 0, 0, 1, 0, 0, 0, 0, 0, 0, 0] ++
  [8, 0, 0, 0, 2, 0, 0, 0, 0, 0, 0, 0, 142, 0, 0, 0, 0, 0, 0, 0, 16, 0, 0, 0,
    0, 0, 0, 0, 0, 0, 0, 0, 1, 0, 0, 0, 16, 0, 0, 0] ++
  strtabText ++ [0] ++ symtabText ++ [0] ++ [0x66, 0] ++
  [16, 0, 0, 0, 0, 16, 0, 0, 16, 0, 0, 0, 18, 0, 1, 0]

/-- The first gigabyte is also seen from `PAGE_OFFSET` on. -/
def tinyImage : Image where
  mem a := tinyBytes[a.toNat % 2 ^ 30]?.getD 0
  strtabName := 124
  symtabName := 132
  strtab_string := ⟨by decide, by decide, by decide⟩
  symtab_string := ⟨by decide, by decide, by decide⟩

theorem tinyImage_describes :
    Describes tinyImage 0 [⟨strtabText, 124, 18⟩, ⟨symtabText, 142, 16⟩] := by
  refine ⟨by decide, fun i hi => ?_, by decide, by decide⟩
  match i, hi with
  | 0, _ =>
      change CString (bytesAt tinyImage.mem (124 + PAGE_OFFSET)) strtabText
      exact ⟨by decide, by decide, by decide⟩
  | 1, _ =>
      change CString (bytesAt tinyImage.mem (132 + PAGE_OFFSET)) symtabText
      exact ⟨by decide, by decide, by decide⟩

theorem kernel_symbols_tiny :
    ∃ elf, elfFromMultiboot tinyImage 0 ⟨7, 7, 7, 7⟩ = .ok elf ∧
      elfLookupSymbol tinyImage 0x100F elf = 0xC000008C ∧
      elfLookupSymbol tinyImage 0x1010 elf = 0 := by
  have hsymtab : lastNamed symtabText [⟨strtabText, 124, 18⟩,
      ⟨symtabText, 142, 16⟩] = some ⟨symtabText, 142, 16⟩ := by decide
  have hstrtab : lastNamed strtabText [⟨strtabText, 124, 18⟩,
      ⟨symtabText, 142, 16⟩] = some ⟨strtabText, 124, 18⟩ := by decide
  obtain ⟨elf, rfl, hrun, hlookup⟩ :=
    kernel_symbols tinyImage_describes hsymtab hstrtab ⟨7, 7, 7, 7⟩
  refine ⟨_, hrun, ?_, (hlookup 0x1010).2 (by decide)⟩
  exact (hlookup 0x100F).1 0 ⟨by decide, by decide, by decide⟩

end Elf

end OS32
