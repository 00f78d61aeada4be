import OS32.DirectMap

/-!
# Paging from `kern_entry` to `init_vmm`

`kern_entry` builds page tables for the first 8MB in physical memory and turns
paging on.  `init_vmm` replaces them, entry by entry, through addresses which
are themselves translated by the tables that are being replaced.
-/

namespace OS32
namespace BootPaging

open DirectMap

/-- Physical memory in words, the page-directory register and the paging bit of
`%cr0`. -/
structure Machine where
  mem : Uint → Uint
  cr3 : Uint
  paging : Bool

namespace Machine

/-- The directory entry and the table entry that the processor reads for an
address. -/
def pde (m : Machine) (va : Uint) : Uint := m.mem (m.cr3 + 4 * pgdIdx va)
def pte (m : Machine) (va : Uint) : Uint :=
  m.mem ((m.pde va &&& PAGE_MASK) + 4 * pteIdx va)

/-- Address translation, `none` for a page fault. -/
def translate (m : Machine) (va : Uint) : Option Uint :=
  if m.paging then
    if m.pde va &&& PTE_P = 0 ∨ m.pte va &&& PTE_P = 0 then none
    else some (m.pte va &&& PAGE_MASK ||| va &&& 0xFFF)
  else some va

/-- A write to physical memory. -/
def write (m : Machine) (pa value : Uint) : Machine :=
  { m with mem := Function.update m.mem pa value }

/-- A write to the address that `va` is translated to, `none` for a page
fault. -/
def store (m : Machine) (va value : Uint) : Option Machine :=
  (m.translate va).map fun pa => m.write pa value

end Machine

/-! ## `kern_entry` -/

def pgdTmp : Uint := 0x1000#32
def pte0 : Uint := 0x2000#32
def pte1 : Uint := 0x3000#32

def present : Uint := PTE_P ||| PTE_W ||| PTE_U

/-- The first `n` turns of a loop that maps the pages from `first` on. -/
def fillBoot (m : Machine) (table : Uint) (first : ℕ) : ℕ → Machine
  | 0 => m
  | n + 1 =>
      (fillBoot m table first n).write (table + BitVec.ofNat 32 (4 * n))
        (BitVec.ofNat 32 (n + first) <<< 12 ||| present)

/-- The four entries of `pgd_tmp`. -/
def bootDirectory (m : Machine) : Machine :=
  (((m.write (pgdTmp + 4 * 0) (pte0 ||| present)).write (pgdTmp + 4 * 1)
    (pte1 ||| present)).write (pgdTmp + 4 * 0x300) (pte0 ||| present)).write
      (pgdTmp + 4 * 0x301) (pte1 ||| present)

/-- `kern_entry` up to the switch of the stack; paging is off. -/
def kernEntry (m : Machine) : Machine :=
  let m := bootDirectory m
  let m := fillBoot m pte0 0 1024
  let m := fillBoot m pte1 1024 1024
  { m with cr3 := pgdTmp, paging := true }

/-! ## `init_vmm` -/

def loadCr3 (m : Machine) : Uint := m.cr3 &&& PAGE_MASK

/-- `n` turns of the first loop, from `i` on; `kern` is the address of
`pte_kern`. -/
def fillPte (m : Machine) (kern : Uint) : ℕ → ℕ → Option Machine
  | 0, _ => some m
  | n + 1, i => do
      let m ← m.store (kern + BitVec.ofNat 32 (4 * i))
        (BitVec.ofNat 32 i <<< 12 ||| present)
      fillPte m kern n (i + 1)

/-- `n` turns of the second loop. -/
def fillPgd (m : Machine) (pgdKern kern : Uint) :
    ℕ → ℕ → ℕ → Option Machine
  | 0, _, _ => some m
  | n + 1, i, j => do
      let m ← m.store (pgdKern + BitVec.ofNat 32 (4 * i))
        ((kern + BitVec.ofNat 32 (4096 * j) - PAGE_OFFSET) ||| present)
      fillPgd m pgdKern kern n (i + 1) (j + 1)

def initVmm (m : Machine) (kern : Uint) : Option Machine := do
  let pgdKern := loadCr3 m + PAGE_OFFSET
  let first := (pgdIdx PAGE_OFFSET).toNat
  let m ← fillPte m kern (PTE_COUNT * NPTENTRIES - 1) 1
  fillPgd m pgdKern kern PTE_COUNT first 0

/-! ## What is mapped -/

/-- The linker puts `pte_kern` into the first 8MB, behind the boot code. -/
structure Linked (kern : Uint) : Prop where
  aligned : Aligned kern
  above : 0xC0100000 ≤ kern.toNat
  below : kern.toNat + 0x80000 ≤ 0xC0800000

/-- The first 8MB are found at their own addresses, and, from the second page
on, at `PAGE_OFFSET`. -/
structure KernelMapped (m : Machine) : Prop where
  low : ∀ va : Uint, va.toNat < 0x800000 → m.translate va = some va
  high : ∀ va : Uint, 0xC0001000 ≤ va.toNat → va.toNat < 0xC0800000 →
    m.translate va = some (va - PAGE_OFFSET)

variable {m m' : Machine} {kern : Uint}

/-- Two present entries lead to a frame. -/
theorem translate_of_entries {va table frame : Uint} (hpaging : m.paging = true)
    (hpde : m.pde va = table ||| present)
    (hpte : m.mem (table + 4 * pteIdx va) = frame ||| present)
    (htable : Aligned table) (hframe : Aligned frame) :
    m.translate va = some (frame ||| va &&& 0xFFF) := by
  have hread : m.pte va = frame ||| present := by
    unfold Machine.pte
    rw [hpde, htable.entry_frame (by decide), hpte]
  have hbit : ∀ a : Uint, (a ||| present) &&& PTE_P ≠ 0 := by
    intro a hzero
    have h0 := congrArg (BitVec.getLsbD · 0) hzero
    simp [present, PTE_P, PTE_W, PTE_U] at h0
  unfold Machine.translate
  rw [if_pos hpaging, hpde, hread, if_neg (not_or.mpr ⟨hbit _, hbit _⟩),
    hframe.entry_frame (by decide)]

/-- A page number and the offset make the address again. -/
theorem frame_or_offset {va pa : Uint} {n : ℕ} (hn : n = pa.toNat / 4096)
    (hoff : va.toNat % 4096 = pa.toNat % 4096) :
    BitVec.ofNat 32 n <<< 12 ||| va &&& 0xFFF = pa := by
  have hframe : (BitVec.ofNat 32 n <<< 12).toNat = pa.toNat / 4096 * 4096 := by
    have hpa := pa.isLt
    rw [BitVec.toNat_shiftLeft, BitVec.toNat_ofNat, Nat.shiftLeft_eq, hn]
    omega
  have haligned : Aligned (BitVec.ofNat 32 n <<< 12) := by
    unfold Aligned
    omega
  have hlow : (va &&& 0xFFF).toNat = va.toNat % 4096 := by
    rw [BitVec.toNat_and]
    exact Nat.and_two_pow_sub_one_eq_mod va.toNat 12
  rw [← BitVec.toNat_inj, haligned.toNat_or (by omega), hframe, hlow]
  omega

theorem aligned_shift (n : ℕ) : Aligned (BitVec.ofNat 32 n <<< 12) := by
  unfold Aligned
  rw [BitVec.toNat_shiftLeft, Nat.shiftLeft_eq]
  omega

/-- An address whose entries hold the number of the page of `pa`. -/
theorem translate_page {va pa table : Uint} {n : ℕ} (hpaging : m.paging = true)
    (hpde : m.pde va = table ||| present) (htable : Aligned table)
    (hpte : m.mem (table + 4 * pteIdx va) =
      BitVec.ofNat 32 n <<< 12 ||| present)
    (hn : n = pa.toNat / 4096) (hoff : va.toNat % 4096 = pa.toNat % 4096) :
    m.translate va = some pa := by
  rw [translate_of_entries hpaging hpde hpte htable (aligned_shift n),
    frame_or_offset hn hoff]

/-! ## The tables in memory -/

/-- The tables when `j` entries of the window have been replaced: the two
entries for low addresses and the two tables of `kern_entry` stay, and
`pte_kern` is full before the first entry points into it. -/
structure Tables (kern : Uint) (j : ℕ) (m : Machine) : Prop where
  cr3 : m.cr3 = 0x1000
  paging : m.paging = true
  low : ∀ k < 2, m.mem (BitVec.ofNat 32 (0x1000 + 4 * k)) =
    BitVec.ofNat 32 (0x2000 + 4096 * k) ||| present
  old : ∀ k < 2, j ≤ k → m.mem (BitVec.ofNat 32 (0x1C00 + 4 * k)) =
    BitVec.ofNat 32 (0x2000 + 4096 * k) ||| present
  new : ∀ k < j, m.mem (BitVec.ofNat 32 (0x1C00 + 4 * k)) =
    (kern + BitVec.ofNat 32 (4096 * k) - PAGE_OFFSET) ||| present
  boot : ∀ k < 2048, m.mem (BitVec.ofNat 32 (0x2000 + 4 * k)) =
    BitVec.ofNat 32 k <<< 12 ||| present
  full : 0 < j → ∀ k, 1 ≤ k → k < 131072 →
    m.mem (kern - PAGE_OFFSET + BitVec.ofNat 32 (4 * k)) =
      BitVec.ofNat 32 k <<< 12 ||| present

theorem pdeAddr_eq (va : Uint) (hcr3 : m.cr3 = 0x1000) :
    m.pde va = m.mem (BitVec.ofNat 32 (0x1000 + 4 * (va.toNat / 4194304))) := by
  unfold Machine.pde
  congr 1
  have hidx := toNat_pgdIdx va
  rw [hcr3, ← BitVec.toNat_inj, BitVec.toNat_add, BitVec.toNat_mul, hidx,
    BitVec.toNat_ofNat]
  change (4096 + 4 * _ % 4294967296) % 4294967296 = _
  omega

/-- The entry of an address in a table for a multiple of 4MB. -/
theorem pteAddr_eq {base table va : Uint} {k n : ℕ}
    (htable : table = base + BitVec.ofNat 32 (4096 * k))
    (hn : n = 1024 * k + va.toNat / 4096 % 1024) :
    table + 4 * pteIdx va = base + BitVec.ofNat 32 (4 * n) := by
  have hoffset := Vm.toNat_pteOffset va
  rw [htable, BitVec.add_assoc, hn]
  congr 1
  rw [← BitVec.toNat_inj, BitVec.toNat_add, hoffset, BitVec.toNat_ofNat,
    BitVec.toNat_ofNat]
  omega

theorem toNat_sub_pageOffset {va : Uint} (hva : 0xC0000000 ≤ va.toNat) :
    (va - PAGE_OFFSET).toNat = va.toNat - 0xC0000000 := by
  have hlt := va.isLt
  rw [BitVec.toNat_sub]
  change (4294967296 - 3221225472 + _) % 4294967296 = _
  omega

theorem aligned_bootTable (k : ℕ) :
    Aligned (BitVec.ofNat 32 (0x2000 + 4096 * k)) := by
  unfold Aligned
  rw [BitVec.toNat_ofNat]
  omega

theorem aligned_kernTable (hkern : Linked kern) (k : ℕ) :
    Aligned (kern + BitVec.ofNat 32 (4096 * k) - PAGE_OFFSET) := by
  have haligned := hkern.aligned
  unfold Aligned PAGE_OFFSET at *
  rw [BitVec.toNat_sub, BitVec.toNat_add, BitVec.toNat_ofNat]
  change (4294967296 - 3221225472 + _) % 4294967296 % 4096 = 0
  omega

/-- Where an old entry is in force. -/
theorem Tables.translate_boot {j : ℕ} (hm : Tables kern j m) {va pa : Uint}
    {k : ℕ} (hk : k < 2)
    (hpde : m.pde va = BitVec.ofNat 32 (0x2000 + 4096 * k) ||| present)
    (hpa : pa.toNat = 4194304 * k + va.toNat % 4194304) :
    m.translate va = some pa := by
  refine translate_page (n := pa.toNat / 4096) hm.paging hpde
    (aligned_bootTable k) ?_ rfl (by omega)
  have hbase : BitVec.ofNat 32 (0x2000 + 4096 * k) =
      (0x2000 : Uint) + BitVec.ofNat 32 (4096 * k) := by
    rw [BitVec.ofNat_add]
    rfl
  rw [pteAddr_eq hbase (n := pa.toNat / 4096) (by omega)]
  have hentry := hm.boot (pa.toNat / 4096) (by omega)
  rwa [BitVec.ofNat_add] at hentry

/-- Where a new entry is in force. -/
theorem Tables.translate_window (hkern : Linked kern) {j : ℕ}
    (hm : Tables kern j m) {va : Uint} (hva : 0xC0001000 ≤ va.toNat)
    (hj : (va.toNat - 0xC0000000) / 4194304 < j)
    (hwindow : va.toNat < 0xE0000000) :
    m.translate va = some (va - PAGE_OFFSET) := by
  have hpa : (va - PAGE_OFFSET).toNat = va.toNat - 0xC0000000 :=
    toNat_sub_pageOffset (by omega)
  have hpde : m.pde va = (kern + BitVec.ofNat 32
      (4096 * ((va.toNat - 0xC0000000) / 4194304)) - PAGE_OFFSET) |||
        present := by
    have hidx : 0x1000 + 4 * (va.toNat / 4194304) =
        0x1C00 + 4 * ((va.toNat - 0xC0000000) / 4194304) := by
      omega
    rw [pdeAddr_eq va hm.cr3, hidx]
    exact hm.new _ hj
  refine translate_page (n := (va - PAGE_OFFSET).toNat / 4096) hm.paging hpde
    (aligned_kernTable hkern _) ?_ rfl (by omega)
  have hbase : kern + BitVec.ofNat 32
      (4096 * ((va.toNat - 0xC0000000) / 4194304)) - PAGE_OFFSET =
      kern - PAGE_OFFSET + BitVec.ofNat 32
        (4096 * ((va.toNat - 0xC0000000) / 4194304)) := by
    rw [BitVec.sub_eq_add_neg, BitVec.sub_eq_add_neg, BitVec.add_assoc,
      BitVec.add_assoc, BitVec.add_comm (BitVec.ofNat 32 _)]
  rw [pteAddr_eq hbase (n := (va - PAGE_OFFSET).toNat / 4096) (by omega)]
  exact hm.full (by omega) _ (by omega) (by omega)

/-- At every stage the kernel stays where it is. -/
theorem Tables.kernelMapped (hkern : Linked kern) {j : ℕ}
    (hm : Tables kern j m) : KernelMapped m := by
  constructor
  · intro va hva
    have hk : va.toNat / 4194304 < 2 := by omega
    refine hm.translate_boot hk ?_ (by omega)
    rw [pdeAddr_eq va hm.cr3]
    exact hm.low _ hk
  · intro va hlow hhigh
    have hk : (va.toNat - 0xC0000000) / 4194304 < 2 := by omega
    rcases Nat.lt_or_ge ((va.toNat - 0xC0000000) / 4194304) j with hj | hj
    · exact hm.translate_window hkern hlow hj (by omega)
    · have hpa : (va - PAGE_OFFSET).toNat = va.toNat - 0xC0000000 :=
        toNat_sub_pageOffset (by omega)
      refine hm.translate_boot hk ?_ (by omega)
      have hidx : 0x1000 + 4 * (va.toNat / 4194304) =
          0x1C00 + 4 * ((va.toNat - 0xC0000000) / 4194304) := by
        omega
      rw [pdeAddr_eq va hm.cr3, hidx]
      exact hm.old _ hk hj

/-! ## `kern_entry` builds them -/

theorem ofNat_inj {x y : ℕ} (hx : x < 2 ^ 32) (hy : y < 2 ^ 32) :
    BitVec.ofNat 32 x = BitVec.ofNat 32 y ↔ x = y := by
  rw [← BitVec.toNat_inj, BitVec.toNat_ofNat, BitVec.toNat_ofNat,
    Nat.mod_eq_of_lt hx, Nat.mod_eq_of_lt hy]

theorem write_mem (m : Machine) {x y : ℕ} (hx : x < 2 ^ 32) (hy : y < 2 ^ 32)
    (value : Uint) : (m.write (BitVec.ofNat 32 y) value).mem (BitVec.ofNat 32 x) =
      if x = y then value else m.mem (BitVec.ofNat 32 x) := by
  change Function.update m.mem _ value _ = _
  rw [Function.update_apply]
  exact if_congr (ofNat_inj hx hy) rfl rfl

/-- A loop of `kern_entry` fills `n` words from `base` on. -/
theorem fillBoot_mem (m : Machine) {base first n x : ℕ} (hbase : base ≤ 0x3000)
    (hn : n ≤ 1024) (hx : x < 2 ^ 32) :
    (fillBoot m (BitVec.ofNat 32 base) first n).mem (BitVec.ofNat 32 x) =
      if ∃ k < n, x = base + 4 * k then
        BitVec.ofNat 32 ((x - base) / 4 + first) <<< 12 ||| present
      else m.mem (BitVec.ofNat 32 x) := by
  induction n with
  | zero => simp [fillBoot]
  | succ n ih =>
      rw [fillBoot, ← BitVec.ofNat_add]
      by_cases hlast : x = base + 4 * n
      · subst hlast
        have hindex : (base + 4 * n - base) / 4 = n := by omega
        rw [write_mem _ hx hx, if_pos rfl, if_pos ⟨n, Nat.lt_succ_self n, rfl⟩,
          hindex]
      · rw [write_mem _ hx (by omega), if_neg hlast, ih (by omega)]
        refine if_congr ?_ rfl rfl
        constructor
        · rintro ⟨k, hk, rfl⟩
          exact ⟨k, by omega, rfl⟩
        · rintro ⟨k, hk, rfl⟩
          exact ⟨k, by omega, rfl⟩

theorem bootDirectory_mem (m : Machine) {x : ℕ} (hx : x < 2 ^ 32) :
    (bootDirectory m).mem (BitVec.ofNat 32 x) =
      if x = 0x1C04 ∨ x = 0x1004 then pte1 ||| present
      else if x = 0x1C00 ∨ x = 0x1000 then pte0 ||| present
      else m.mem (BitVec.ofNat 32 x) := by
  have h0 : pgdTmp + 4 * 0 = BitVec.ofNat 32 0x1000 := by decide
  have h1 : pgdTmp + 4 * 1 = BitVec.ofNat 32 0x1004 := by decide
  have h300 : pgdTmp + 4 * 0x300 = BitVec.ofNat 32 0x1C00 := by decide
  have h301 : pgdTmp + 4 * 0x301 = BitVec.ofNat 32 0x1C04 := by decide
  unfold bootDirectory
  rw [h0, h1, h300, h301, write_mem _ hx (by decide), write_mem _ hx (by decide),
    write_mem _ hx (by decide), write_mem _ hx (by decide)]
  split_ifs <;> first | rfl | omega

theorem kernEntry_mem (m : Machine) {x : ℕ} (hx : x < 2 ^ 32) :
    (kernEntry m).mem (BitVec.ofNat 32 x) =
      if ∃ k < 2048, x = 0x2000 + 4 * k then
        BitVec.ofNat 32 ((x - 0x2000) / 4) <<< 12 ||| present
      else (bootDirectory m).mem (BitVec.ofNat 32 x) := by
  unfold kernEntry pte0 pte1
  dsimp only
  rw [fillBoot_mem _ le_rfl le_rfl hx, fillBoot_mem _ (by omega) le_rfl hx]
  by_cases hsecond : ∃ k < 1024, x = 0x3000 + 4 * k
  · rw [if_pos hsecond]
    obtain ⟨k, hk, rfl⟩ := hsecond
    have hindex : (0x3000 + 4 * k - 0x3000) / 4 + 1024 =
        (0x3000 + 4 * k - 0x2000) / 4 := by
      omega
    rw [if_pos ⟨k + 1024, by omega, by omega⟩, hindex]
  · rw [if_neg hsecond]
    by_cases hfirst : ∃ k < 1024, x = 0x2000 + 4 * k
    · rw [if_pos hfirst, Nat.add_zero]
      obtain ⟨k, hk, rfl⟩ := hfirst
      rw [if_pos ⟨k, by omega, rfl⟩]
    · rw [if_neg hfirst, if_neg]
      rintro ⟨k, hk, rfl⟩
      rcases Nat.lt_or_ge k 1024 with hlt | hge
      · exact hfirst ⟨k, hlt, rfl⟩
      · exact hsecond ⟨k - 1024, by omega, by omega⟩

theorem kernEntry_tables (m : Machine) (kern : Uint) :
    Tables kern 0 (kernEntry m) := by
  have hdir : ∀ x < 0x2000, (kernEntry m).mem (BitVec.ofNat 32 x) =
      (bootDirectory m).mem (BitVec.ofNat 32 x) := by
    intro x hx
    rw [kernEntry_mem m (by omega), if_neg]
    rintro ⟨k, _, hk⟩
    omega
  refine ⟨rfl, rfl, fun k hk => ?_, fun k hk _ => ?_,
    fun k hk => absurd hk (Nat.not_lt_zero k), fun k hk => ?_,
    fun h => absurd h (lt_irrefl 0)⟩
  · rw [hdir _ (by omega), bootDirectory_mem m (by omega)]
    interval_cases k
    · rfl
    · rfl
  · rw [hdir _ (by omega), bootDirectory_mem m (by omega)]
    interval_cases k
    · rfl
    · rfl
  · have hindex : (0x2000 + 4 * k - 0x2000) / 4 = k := by omega
    rw [kernEntry_mem m (by omega), if_pos ⟨k, hk, rfl⟩, hindex]

/-! ## The loops of `init_vmm` -/

/-- The entries of `pte_kern` that are written before turn `i`. -/
def Filled (kern : Uint) (i : ℕ) (m : Machine) : Prop :=
  ∀ k, 1 ≤ k → k < i →
    m.mem (kern - PAGE_OFFSET + BitVec.ofNat 32 (4 * k)) =
      BitVec.ofNat 32 k <<< 12 ||| present

/-- The page directory at `0x1000` and the memory behind the window are those
of `vm`, in which the directory is an object of its own. -/
structure Agrees (vm : Vm) (m : Machine) : Prop where
  pgd : ∀ x : Uint, x.toNat < 1024 → vm.pgd x = m.mem (0x1000 + 4 * x)
  mem : ∀ va : Uint, InWindow va →
    ¬ (0xC0001000 ≤ va.toNat ∧ va.toNat < 0xC0002000) →
      vm.mem va = m.mem (va - PAGE_OFFSET)

theorem toNat_tableWord (hkern : Linked kern) {k : ℕ} (hk : k < 131072) :
    (kern - PAGE_OFFSET + BitVec.ofNat 32 (4 * k)).toNat =
      kern.toNat - 0xC0000000 + 4 * k := by
  have habove := hkern.above
  have hbelow := hkern.below
  rw [BitVec.toNat_add, toNat_sub_pageOffset (by omega), BitVec.toNat_ofNat]
  omega

/-- The tables in force lie below `pte_kern`. -/
theorem Tables.congr_low (hm : Tables kern 0 m) (hcr3 : m'.cr3 = m.cr3)
    (hpaging : m'.paging = m.paging)
    (hsame : ∀ x < 0x4000, m'.mem (BitVec.ofNat 32 x) =
      m.mem (BitVec.ofNat 32 x)) : Tables kern 0 m' where
  cr3 := hcr3.trans hm.cr3
  paging := hpaging.trans hm.paging
  low k hk := (hsame _ (by omega)).trans (hm.low k hk)
  old k hk hj := (hsame _ (by omega)).trans (hm.old k hk hj)
  new k hk := absurd hk (Nat.not_lt_zero k)
  boot k hk := (hsame _ (by omega)).trans (hm.boot k hk)
  full h := absurd h (lt_irrefl 0)

/-- One turn of the first loop, which also keeps the first word of
`pte_kern`. -/
theorem Tables.store_pte (hkern : Linked kern) (hm : Tables kern 0 m) {i : ℕ}
    (hi : 1 ≤ i) (hlt : i < 131072) (hfilled : Filled kern i m) :
    ∃ m', m.store (kern + BitVec.ofNat 32 (4 * i))
        (BitVec.ofNat 32 i <<< 12 ||| present) = some m' ∧
      Tables kern 0 m' ∧ Filled kern (i + 1) m' ∧
      m'.mem (kern - PAGE_OFFSET) = m.mem (kern - PAGE_OFFSET) ∧
      ∀ vm, Agrees vm m → Agrees (vm.store (kern + BitVec.ofNat 32 (4 * i))
        (BitVec.ofNat 32 i <<< 12 ||| present)) m' := by
  have habove := hkern.above
  have hbelow := hkern.below
  have hva : (kern + BitVec.ofNat 32 (4 * i)).toNat = kern.toNat + 4 * i := by
    rw [BitVec.toNat_add, BitVec.toNat_ofNat]
    omega
  have hpa : kern + BitVec.ofNat 32 (4 * i) - PAGE_OFFSET =
      kern - PAGE_OFFSET + BitVec.ofNat 32 (4 * i) := by
    rw [BitVec.sub_eq_add_neg, BitVec.sub_eq_add_neg, BitVec.add_assoc,
      BitVec.add_assoc, BitVec.add_comm (BitVec.ofNat 32 _)]
  have htranslate := (hm.kernelMapped hkern).high
    (kern + BitVec.ofNat 32 (4 * i)) (by omega) (by omega)
  have hword := toNat_tableWord hkern hlt
  have hother : ∀ a : Uint, a.toNat ≠ kern.toNat - 0xC0000000 + 4 * i →
      (m.write (kern - PAGE_OFFSET + BitVec.ofNat 32 (4 * i))
        (BitVec.ofNat 32 i <<< 12 ||| present)).mem a = m.mem a := by
    intro a hne
    refine Function.update_of_ne (fun heq => hne ?_) ..
    rw [heq, hword]
  refine ⟨m.write (kern - PAGE_OFFSET + BitVec.ofNat 32 (4 * i))
    (BitVec.ofNat 32 i <<< 12 ||| present), ?_, ?_, ?_, ?_, ?_⟩
  · unfold Machine.store
    rw [htranslate, hpa]
    rfl
  · refine hm.congr_low rfl rfl fun x hx => hother _ ?_
    rw [BitVec.toNat_ofNat]
    omega
  · intro k hk hki
    rcases Nat.lt_succ_iff_lt_or_eq.mp hki with hold | rfl
    · rw [hother _ (by rw [toNat_tableWord hkern (by omega)]; omega)]
      exact hfilled k hk hold
    · exact Function.update_self ..
  · refine hother _ ?_
    rw [toNat_sub_pageOffset (by omega)]
    omega
  · intro vm hvm
    refine ⟨fun x hx => ?_, fun a ha hpgd => ?_⟩
    · rw [hother]
      · exact hvm.pgd x hx
      · rw [BitVec.toNat_add, BitVec.toNat_mul]
        change (4096 + 4 * _ % 4294967296) % 4294967296 ≠ _
        omega
    · change Function.update vm.mem _ _ a = Function.update m.mem _ _ _
      rw [← hpa]
      by_cases heq : a = kern + BitVec.ofNat 32 (4 * i)
      · rw [heq, Function.update_self, Function.update_self]
      · rw [Function.update_of_ne heq, Function.update_of_ne]
        · exact hvm.mem a ha hpgd
        · exact fun h => heq (by simpa using h)

/-- After any number of turns of the first loop. -/
theorem Tables.fillPte (hkern : Linked kern) {n i : ℕ} (hi : 1 ≤ i)
    (hn : i + n ≤ 131072) (hm : Tables kern 0 m) (hfilled : Filled kern i m) :
    ∃ m', fillPte m kern n i = some m' ∧ Tables kern 0 m' ∧
      Filled kern (i + n) m' ∧
      m'.mem (kern - PAGE_OFFSET) = m.mem (kern - PAGE_OFFSET) ∧
      ∀ vm, Agrees vm m → Agrees (vm.fillPte kern n i) m' := by
  induction n generalizing m i with
  | zero => exact ⟨m, rfl, hm, hfilled, rfl, fun vm hvm => hvm⟩
  | succ n ih =>
      obtain ⟨next, hstore, htables, hnext, hzero, hagrees⟩ :=
        hm.store_pte hkern hi (by omega) hfilled
      obtain ⟨m', hrun, htables', hfilled', hzero', hagrees'⟩ :=
        ih (i := i + 1) (by omega) (by omega) htables hnext
      refine ⟨m', ?_, htables', ?_, hzero'.trans hzero, fun vm hvm => ?_⟩
      · unfold BootPaging.fillPte
        rw [hstore]
        exact hrun
      · rwa [Nat.add_right_comm, Nat.add_assoc] at hfilled'
      · have hentry : BitVec.ofNat 32 i <<< 12 ||| PTE_P ||| PTE_W ||| PTE_U =
            BitVec.ofNat 32 i <<< 12 ||| present := by
          rw [present, BitVec.or_assoc, BitVec.or_assoc, BitVec.or_assoc]
        unfold Vm.fillPte
        rw [hentry]
        exact hagrees' _ (hagrees vm hvm)

/-- One turn of the second loop: the entry it writes leads to the same frames
as the one it replaces. -/
theorem Tables.store_pgd (hkern : Linked kern) {j : ℕ} (hj : j < 128)
    (hm : Tables kern j m) (hfilled : Filled kern 131072 m) :
    ∃ m', m.store (0xC0001000 + BitVec.ofNat 32 (4 * (0x300 + j)))
        ((kern + BitVec.ofNat 32 (4096 * j) - PAGE_OFFSET) ||| present) =
          some m' ∧
      Tables kern (j + 1) m' ∧ Filled kern 131072 m' ∧
      m'.mem (kern - PAGE_OFFSET) = m.mem (kern - PAGE_OFFSET) ∧
      ∀ vm : Vm, Agrees vm m → Agrees { vm with
        pgd := Function.update vm.pgd (BitVec.ofNat 32 (0x300 + j))
          ((kern + BitVec.ofNat 32 (4096 * j) - PAGE_OFFSET) ||| present) }
        m' := by
  have habove := hkern.above
  have hbelow := hkern.below
  have hva : ((0xC0001000 : Uint) + BitVec.ofNat 32 (4 * (0x300 + j))).toNat =
      0xC0001C00 + 4 * j := by
    rw [BitVec.toNat_add, BitVec.toNat_ofNat]
    change (3221229568 + _) % 4294967296 = _
    omega
  have hpa : (0xC0001000 : Uint) + BitVec.ofNat 32 (4 * (0x300 + j)) -
      PAGE_OFFSET = BitVec.ofNat 32 (0x1C00 + 4 * j) := by
    rw [← BitVec.toNat_inj, toNat_sub_pageOffset (by omega), hva,
      BitVec.toNat_ofNat]
    omega
  have htranslate := (hm.kernelMapped hkern).high
    (0xC0001000 + BitVec.ofNat 32 (4 * (0x300 + j))) (by omega) (by omega)
  have hother : ∀ a : Uint, a.toNat ≠ 0x1C00 + 4 * j →
      (m.write (BitVec.ofNat 32 (0x1C00 + 4 * j))
        ((kern + BitVec.ofNat 32 (4096 * j) - PAGE_OFFSET) ||| present)).mem a =
        m.mem a := by
    intro a hne
    refine Function.update_of_ne (fun heq => hne ?_) ..
    rw [heq, BitVec.toNat_ofNat]
    omega
  have hlow : ∀ x < 0x4000, x ≠ 0x1C00 + 4 * j →
      (m.write (BitVec.ofNat 32 (0x1C00 + 4 * j))
        ((kern + BitVec.ofNat 32 (4096 * j) - PAGE_OFFSET) ||| present)).mem
          (BitVec.ofNat 32 x) = m.mem (BitVec.ofNat 32 x) := by
    intro x hx hne
    refine hother _ ?_
    rw [BitVec.toNat_ofNat]
    omega
  have hword : ∀ k, k < 131072 → (m.write (BitVec.ofNat 32 (0x1C00 + 4 * j))
      ((kern + BitVec.ofNat 32 (4096 * j) - PAGE_OFFSET) ||| present)).mem
        (kern - PAGE_OFFSET + BitVec.ofNat 32 (4 * k)) =
      m.mem (kern - PAGE_OFFSET + BitVec.ofNat 32 (4 * k)) := by
    intro k hk
    refine hother _ ?_
    rw [toNat_tableWord hkern hk]
    omega
  have hfilled' : Filled kern 131072
      (m.write (BitVec.ofNat 32 (0x1C00 + 4 * j))
        ((kern + BitVec.ofNat 32 (4096 * j) - PAGE_OFFSET) ||| present)) :=
    fun k hk hlt => (hword k hlt).trans (hfilled k hk hlt)
  refine ⟨m.write (BitVec.ofNat 32 (0x1C00 + 4 * j))
    ((kern + BitVec.ofNat 32 (4096 * j) - PAGE_OFFSET) ||| present),
    ?_, ?_, hfilled', ?_, ?_⟩
  · unfold Machine.store
    rw [htranslate, hpa]
    rfl
  · refine ⟨hm.cr3, hm.paging, fun k hk => ?_, fun k hk hjk => ?_,
      fun k hk => ?_, fun k hk => ?_, fun _ => hfilled'⟩
    · exact (hlow _ (by omega) (by omega)).trans (hm.low k hk)
    · exact (hlow _ (by omega) (by omega)).trans (hm.old k hk (by omega))
    · rcases Nat.lt_succ_iff_lt_or_eq.mp hk with hold | rfl
      · exact (hlow _ (by omega) (by omega)).trans (hm.new k hold)
      · exact Function.update_self ..
    · exact (hlow _ (by omega) (by omega)).trans (hm.boot k hk)
  · have hfirst := hword 0 (by omega)
    simpa using hfirst
  · intro vm hvm
    refine ⟨fun x hx => ?_, fun a ha hpgd => ?_⟩
    · have hx4 : ((0x1000 : Uint) + 4 * x).toNat = 0x1000 + 4 * x.toNat := by
        rw [BitVec.toNat_add, BitVec.toNat_mul]
        change (4096 + 4 * _ % 4294967296) % 4294967296 = _
        omega
      by_cases heq : x = BitVec.ofNat 32 (0x300 + j)
      · have hnat : x.toNat = 0x300 + j := by
          rw [heq, BitVec.toNat_ofNat]
          omega
        have hsame : (0x1000 : Uint) + 4 * x =
            BitVec.ofNat 32 (0x1C00 + 4 * j) := by
          rw [← BitVec.toNat_inj, hx4, BitVec.toNat_ofNat, hnat]
          omega
        rw [hsame, heq]
        change Function.update vm.pgd _ _ _ = Function.update m.mem _ _ _
        rw [Function.update_self, Function.update_self]
      · have hne : x.toNat ≠ 0x300 + j := by
          intro hnat
          apply heq
          rw [← BitVec.toNat_inj, hnat, BitVec.toNat_ofNat]
          omega
        rw [hother _ (by rw [hx4]; omega)]
        exact (Function.update_of_ne heq ..).trans (hvm.pgd x hx)
    · rw [hother]
      · exact hvm.mem a ha hpgd
      · rw [toNat_sub_pageOffset (inWindow_iff.mp ha).1]
        omega

theorem Tables.fillPgd (hkern : Linked kern) {n j : ℕ} (hn : j + n ≤ 128)
    (hm : Tables kern j m) (hfilled : Filled kern 131072 m) :
    ∃ m', fillPgd m 0xC0001000 kern n (0x300 + j) j = some m' ∧
      Tables kern (j + n) m' ∧
      m'.mem (kern - PAGE_OFFSET) = m.mem (kern - PAGE_OFFSET) ∧
      ∀ vm, Agrees vm m → Agrees (vm.fillPgd kern n (0x300 + j) j) m' := by
  induction n generalizing m j with
  | zero => exact ⟨m, rfl, hm, rfl, fun vm hvm => hvm⟩
  | succ n ih =>
      obtain ⟨next, hstore, htables, hnext, hzero, hagrees⟩ :=
        hm.store_pgd hkern (by omega) hfilled
      obtain ⟨m', hrun, htables', hzero', hagrees'⟩ :=
        ih (j := j + 1) (by omega) htables hnext
      refine ⟨m', ?_, ?_, hzero'.trans hzero, fun vm hvm => ?_⟩
      · unfold BootPaging.fillPgd
        rw [hstore]
        exact hrun
      · rwa [Nat.add_right_comm, Nat.add_assoc] at htables'
      · have hentry : kern + BitVec.ofNat 32 (4096 * j) - PAGE_OFFSET |||
            PTE_P ||| PTE_W ||| PTE_U =
            (kern + BitVec.ofNat 32 (4096 * j) - PAGE_OFFSET) ||| present := by
          rw [present, BitVec.or_assoc, BitVec.or_assoc, BitVec.or_assoc]
        unfold Vm.fillPgd
        dsimp only
        rw [hentry]
        exact hagrees' _ (hagrees vm hvm)

/-! ## From `kern_entry` to the end of `init_vmm` -/

/-- Page tables as `vmm.c` sees them: the directory apart from the memory. -/
def asVm (vm : Vm) (m : Machine) : Vm :=
  { vm with
    pgd := fun x => m.mem (0x1000 + 4 * x)
    mem := fun va => m.mem (va - PAGE_OFFSET) }

theorem asVm_agrees (vm : Vm) (m : Machine) : Agrees (asVm vm m) m :=
  ⟨fun _ _ => rfl, fun _ _ _ => rfl⟩

/-- The page at `PAGE_OFFSET` itself is the one the first loop leaves out. -/
theorem Tables.first_page (hkern : Linked kern) (hm : Tables kern 128 m)
    (hzero : m.mem (kern - PAGE_OFFSET) = 0) {va : Uint}
    (hlow : 0xC0000000 ≤ va.toNat) (hhigh : va.toNat < 0xC0001000) :
    m.translate va = none := by
  have hidx : 0x1000 + 4 * (va.toNat / 4194304) = 0x1C00 + 4 * 0 := by omega
  have hpde : m.pde va =
      (kern + BitVec.ofNat 32 (4096 * 0) - PAGE_OFFSET) ||| present := by
    rw [pdeAddr_eq va hm.cr3, hidx]
    exact hm.new 0 (by omega)
  have hbase : kern + BitVec.ofNat 32 (4096 * 0) - PAGE_OFFSET =
      kern - PAGE_OFFSET + BitVec.ofNat 32 (4096 * 0) := by
    simp
  have hpte : m.pte va = 0 := by
    unfold Machine.pte
    rw [hpde, (aligned_kernTable hkern 0).entry_frame (by decide),
      pteAddr_eq hbase (n := 0) (by omega)]
    simpa using hzero
  unfold Machine.translate
  rw [if_pos hm.paging, if_pos]
  right
  rw [hpte]
  rfl

theorem initVmm_eq (m : Machine) (kern : Uint) :
    initVmm m kern = (fillPte m kern 131071 1).bind fun m₁ =>
      fillPgd m₁ (loadCr3 m + PAGE_OFFSET) kern 128 0x300 0 := by
  have hcount : PTE_COUNT * NPTENTRIES - 1 = 131071 := by decide
  have hfirst : (pgdIdx PAGE_OFFSET).toNat = 0x300 := by decide
  unfold initVmm
  rw [hcount, hfirst]
  rfl

theorem vm_initVmm_eq (vm : Vm) (kern : Uint) :
    vm.initVmm kern = (vm.fillPte kern 131071 1).fillPgd kern 128 0x300 0 := by
  have hcount : PTE_COUNT * NPTENTRIES - 1 = 131071 := by decide
  have hfirst : (pgdIdx PAGE_OFFSET).toNat = 0x300 := by decide
  unfold Vm.initVmm
  rw [hcount, hfirst]
  rfl

/-- From the switch to paging on, the kernel is mapped after every single write
of `init_vmm`, which never faults.  At the end the first 512MB, less their first
page, are found at `PAGE_OFFSET`, and the tables are those that `initVmm` makes
of the same memory. -/
theorem kernel_stays_mapped (m : Machine) (vm : Vm) {kern : Uint}
    (hkern : Linked kern) :
    KernelMapped (kernEntry m) ∧
      (∀ n ≤ 131071, ∃ m₁, fillPte (kernEntry m) kern n 1 = some m₁ ∧
        KernelMapped m₁) ∧
      ∃ m₁, fillPte (kernEntry m) kern 131071 1 = some m₁ ∧
        (∀ n ≤ 128, ∃ m₂, fillPgd m₁ (loadCr3 (kernEntry m) + PAGE_OFFSET) kern
          n 0x300 0 = some m₂ ∧ KernelMapped m₂) ∧
        ∃ m₂, initVmm (kernEntry m) kern = some m₂ ∧
          (∀ va : Uint, 0xC0001000 ≤ va.toNat → va.toNat < 0xE0000000 →
            m₂.translate va = some (va - PAGE_OFFSET)) ∧
          (m.mem (kern - PAGE_OFFSET) = 0 → ∀ va : Uint,
            0xC0000000 ≤ va.toNat → va.toNat < 0xC0001000 →
              m₂.translate va = none) ∧
          Agrees (Vm.initVmm (asVm vm (kernEntry m)) kern) m₂ := by
  have hstart := kernEntry_tables m kern
  have hempty : Filled kern 1 (kernEntry m) := fun k hk hlt => by omega
  have hdir : loadCr3 (kernEntry m) + PAGE_OFFSET = 0xC0001000 := by
    unfold loadCr3
    rw [hstart.cr3]
    decide
  obtain ⟨m₁, hrun₁, htables₁, hfilled₁, hzero₁, hagrees₁⟩ :=
    hstart.fillPte hkern (n := 131071) le_rfl (by omega) hempty
  have hall : 1 + 131071 = 131072 := by decide
  rw [hall] at hfilled₁
  obtain ⟨m₂, hrun₂, htables₂, hzero₂, hagrees₂⟩ :=
    htables₁.fillPgd hkern (n := 128) (by omega) hfilled₁
  rw [Nat.add_zero] at hrun₂ hagrees₂
  rw [Nat.zero_add] at htables₂
  refine ⟨hstart.kernelMapped hkern, fun n hn => ?_, m₁, hrun₁, fun n hn => ?_,
    m₂, ?_, ?_, ?_, ?_⟩
  · obtain ⟨next, hrun, htables, _⟩ :=
      hstart.fillPte hkern (n := n) le_rfl (by omega) hempty
    exact ⟨next, hrun, htables.kernelMapped hkern⟩
  · obtain ⟨next, hrun, htables, _⟩ :=
      htables₁.fillPgd hkern (n := n) (by omega) hfilled₁
    rw [Nat.add_zero] at hrun
    rw [hdir]
    exact ⟨next, hrun, htables.kernelMapped hkern⟩
  · rw [initVmm_eq, hdir]
    exact Option.bind_eq_some_iff.mpr ⟨m₁, hrun₁, hrun₂⟩
  · intro va hlow hhigh
    exact htables₂.translate_window hkern hlow (by omega) hhigh
  · intro hzero va hlow hhigh
    refine htables₂.first_page hkern ?_ hlow hhigh
    have habove := hkern.above
    have hbelow := hkern.below
    have hword : kern - PAGE_OFFSET =
        BitVec.ofNat 32 (kern.toNat - 0xC0000000) := by
      rw [← BitVec.toNat_inj, toNat_sub_pageOffset (by omega),
        BitVec.toNat_ofNat]
      omega
    rw [hzero₂, hzero₁, hword, kernEntry_mem m (by omega), if_neg,
      bootDirectory_mem m (by omega), if_neg (by omega), if_neg (by omega),
      ← hword]
    · exact hzero
    · rintro ⟨k, hk, heq⟩
      omega
  · rw [vm_initVmm_eq]
    exact hagrees₂ _ (hagrees₁ _ (asVm_agrees vm (kernEntry m)))

/-- `pte_kern` at 2MB, in a memory of zeros. -/
theorem kernel_stays_mapped_zero :
    ∃ m₂, initVmm (kernEntry ⟨fun _ => 0, 0, false⟩) 0xC0200000 = some m₂ ∧
      m₂.translate 0xC00B8000 = some 0xB8000 ∧
      m₂.translate 0xC0000010 = none := by
  obtain ⟨_, _, _, _, _, m₂, hrun, hwindow, hfirst, _⟩ :=
    kernel_stays_mapped ⟨fun _ => 0, 0, false⟩
      (Vm.bare (.boot BuddySession.zeroPage))
      (⟨rfl, by decide, by decide⟩ : Linked 0xC0200000)
  refine ⟨m₂, hrun, ?_, hfirst rfl _ (by decide) (by decide)⟩
  have hscreen := hwindow 0xC00B8000 (by decide) (by decide)
  rwa [show (0xC00B8000 : Uint) - PAGE_OFFSET = 0xB8000 by decide] at hscreen

end BootPaging
end OS32
