import OS32.PageTableAlgebra
import OS32.BuddyAllocSize

/-!
# The direct map of the kernel: `init_vmm`

The two loops of `init_vmm` fill the page tables `pte_kern` and enter them into
the page directory.  What they establish for the 512MB from `PAGE_OFFSET` on is
stated address by address and kept by every `map` and `unmap` outside.
-/

namespace OS32

open Transition

def PTE_COUNT : ℕ := 128
def NPTENTRIES : ℕ := 1024

namespace Vm

/-! ## `init_vmm` -/

/-- `n` turns of the first loop, from `i` on; `kern` is the address of
`pte_kern`. -/
def fillPte (vm : Vm) (kern : Uint) : ℕ → ℕ → Vm
  | 0, _ => vm
  | n + 1, i =>
      let entry := BitVec.ofNat 32 i <<< 12 ||| PTE_P ||| PTE_W ||| PTE_U
      fillPte (vm.store (kern + BitVec.ofNat 32 (4 * i)) entry) kern n (i + 1)

/-- `n` turns of the second loop. -/
def fillPgd (vm : Vm) (kern : Uint) : ℕ → ℕ → ℕ → Vm
  | 0, _, _ => vm
  | n + 1, i, j =>
      let table := kern + BitVec.ofNat 32 (4096 * j) - PAGE_OFFSET
      let entry := table ||| PTE_P ||| PTE_W ||| PTE_U
      fillPgd { vm with pgd := Function.update vm.pgd (BitVec.ofNat 32 i) entry }
        kern n (i + 1) (j + 1)

def initVmm (vm : Vm) (kern : Uint) : Vm :=
  let first := (pgdIdx PAGE_OFFSET).toNat
  fillPgd (fillPte vm kern (PTE_COUNT * NPTENTRIES - 1) 1) kern PTE_COUNT
    first 0

end Vm

namespace DirectMap

open Vm

variable {vm vm' : Vm} {kern : Uint}

/-! ## The window -/

/-- The 512MB that `init_vmm` maps. -/
def InWindow (a : Uint) : Prop :=
  PAGE_OFFSET ≤ a ∧ a < PAGE_OFFSET + MAXSIZE

/-- The page table of `pte_kern` that `a` belongs to. -/
def kernTable (kern a : Uint) : Uint :=
  kern + BitVec.ofNat 32 (4096 * ((a.toNat - 0xC0000000) / 4194304)) -
    PAGE_OFFSET

/-- What `pte_kern` holds for `a`; the entry 0 is left out by the loop. -/
def kernEntry (a : Uint) : Uint :=
  if SamePage a PAGE_OFFSET then 0
  else (a - PAGE_OFFSET) &&& PAGE_MASK ||| (PTE_P ||| PTE_W ||| PTE_U)

/-- Where the linker puts `pte_kern`. -/
structure KernTables (kern : Uint) : Prop where
  aligned : Aligned kern
  above : PAGE_OFFSET < kern
  fits : kern.toNat + 4096 * PTE_COUNT ≤ 2 ^ 32

instance (a : Uint) : Decidable (InWindow a) :=
  inferInstanceAs (Decidable (_ ∧ _))

theorem inWindow_iff {a : Uint} :
    InWindow a ↔ 0xC0000000 ≤ a.toNat ∧ a.toNat < 0xE0000000 := by
  unfold InWindow PAGE_OFFSET MAXSIZE
  rw [BitVec.le_def, BitVec.lt_def]
  exact Iff.rfl

/-- The window consists of whole page tables. -/
theorem inWindow_congr {a b : Uint} (hidx : pgdIdx a = pgdIdx b) :
    InWindow a ↔ InWindow b := by
  have hnat := congrArg BitVec.toNat hidx
  rw [toNat_pgdIdx, toNat_pgdIdx] at hnat
  rw [inWindow_iff, inWindow_iff]
  omega

theorem kernTable_aligned (hkern : KernTables kern) (a : Uint) :
    Aligned (kernTable kern a) := by
  have haligned := hkern.aligned
  unfold Aligned kernTable PAGE_OFFSET at *
  generalize (a.toNat - 0xC0000000) / 4194304 = j
  rw [BitVec.toNat_sub, BitVec.toNat_add, BitVec.toNat_ofNat]
  change (4294967296 - 3221225472 + _) % 4294967296 % 4096 = 0
  omega

theorem kernTable_toNat (hkern : KernTables kern) {a : Uint}
    (ha : InWindow a) : (kernTable kern a).toNat =
      kern.toNat - 0xC0000000 + 4096 * ((a.toNat - 0xC0000000) / 4194304) := by
  have habove := hkern.above
  have hfits := hkern.fits
  rcases inWindow_iff.mp ha with ⟨hlow, hhigh⟩
  rw [BitVec.lt_def] at habove
  unfold kernTable PAGE_OFFSET PTE_COUNT at *
  rw [BitVec.toNat_sub, BitVec.toNat_add, BitVec.toNat_ofNat]
  change 3221225472 < kern.toNat at habove
  change (4294967296 - 3221225472 + _) % 4294967296 = _
  omega

theorem kernTable_ne_zero (hkern : KernTables kern) {a : Uint}
    (ha : InWindow a) : kernTable kern a ≠ 0 := by
  have habove := hkern.above
  rw [BitVec.lt_def] at habove
  change 3221225472 < kern.toNat at habove
  intro hzero
  have hnat := kernTable_toNat hkern ha
  rw [hzero] at hnat
  change 0 = _ at hnat
  omega

/-! ## The two loops -/

theorem fillPte_pgd (vm : Vm) (kern : Uint) (n i : ℕ) :
    (fillPte vm kern n i).pgd = vm.pgd := by
  induction n generalizing vm i with
  | zero => rfl
  | succ n ih => exact ih _ _

theorem fillPgd_mem (vm : Vm) (kern : Uint) (n i j : ℕ) :
    (fillPgd vm kern n i j).mem = vm.mem := by
  induction n generalizing vm i j with
  | zero => rfl
  | succ n ih => exact ih _ _ _

theorem pteWord_inj (kern : Uint) {i k : ℕ} (hi : i < 2 ^ 30)
    (hk : k < 2 ^ 30) :
    kern + BitVec.ofNat 32 (4 * k) = kern + BitVec.ofNat 32 (4 * i) ↔
      k = i := by
  rw [BitVec.add_right_inj, ← BitVec.toNat_inj, BitVec.toNat_ofNat,
    BitVec.toNat_ofNat]
  omega

theorem fillPte_mem (vm : Vm) (kern : Uint) {n i k : ℕ}
    (hn : i + n ≤ 2 ^ 30) (hk : k < 2 ^ 30) :
    (fillPte vm kern n i).mem (kern + BitVec.ofNat 32 (4 * k)) =
      if i ≤ k ∧ k < i + n then
        BitVec.ofNat 32 k <<< 12 ||| PTE_P ||| PTE_W ||| PTE_U
      else vm.mem (kern + BitVec.ofNat 32 (4 * k)) := by
  induction n generalizing vm i with
  | zero => rw [if_neg (by omega), fillPte]
  | succ n ih =>
      rw [fillPte, ih _ (by omega)]
      dsimp only [store]
      by_cases hki : k = i
      · subst hki
        rw [if_neg (by omega), if_pos (by omega), Function.update_self]
      · have haddr : kern + BitVec.ofNat 32 (4 * k) ≠
            kern + BitVec.ofNat 32 (4 * i) :=
          fun h => hki ((pteWord_inj kern (by omega) hk).mp h)
        rw [Function.update_of_ne haddr]
        refine if_congr ?_ rfl rfl
        omega

theorem fillPgd_pgd (vm : Vm) (kern : Uint) {n i j : ℕ} (hn : i + n ≤ 2 ^ 32)
    (x : Uint) :
    (fillPgd vm kern n i j).pgd x =
      if i ≤ x.toNat ∧ x.toNat < i + n then
        kern + BitVec.ofNat 32 (4096 * (j + (x.toNat - i))) - PAGE_OFFSET |||
          PTE_P ||| PTE_W ||| PTE_U
      else vm.pgd x := by
  induction n generalizing vm i j with
  | zero => rw [if_neg (by omega), fillPgd]
  | succ n ih =>
      rw [fillPgd, ih _ (by omega)]
      dsimp only
      by_cases hxi : x = BitVec.ofNat 32 i
      · have hnat : x.toNat = i := by
          rw [hxi, BitVec.toNat_ofNat]
          omega
        rw [if_neg (by omega), if_pos (by omega), hxi, Function.update_self,
          ← hxi, hnat, Nat.sub_self, Nat.add_zero]
      · have hne : x.toNat ≠ i := by
          intro hnat
          apply hxi
          rw [← BitVec.toNat_inj, BitVec.toNat_ofNat]
          omega
        rw [Function.update_of_ne hxi]
        by_cases hx : i + 1 ≤ x.toNat ∧ x.toNat < i + 1 + n
        · have hshift : j + 1 + (x.toNat - (i + 1)) = j + (x.toNat - i) := by
            omega
          rw [if_pos hx, if_pos (by omega), hshift]
        · rw [if_neg hx, if_neg (by omega)]

/-! ## What the loops establish -/

/-- The page tables of the window are those of `pte_kern` with their entries,
and no address outside is mapped through them. -/
structure Inv (kern : Uint) (vm : Vm) : Prop where
  table : ∀ a, InWindow a → vm.tableOf a = kernTable kern a
  entry : ∀ a, InWindow a →
    vm.mem (pteAddr (kernTable kern a) a) = kernEntry a
  apart : ∀ a b, InWindow a → ¬ InWindow b → vm.tableOf b ≠ kernTable kern a

/-- The number of the page of `a` in the window. -/
def windowPage (a : Uint) : ℕ := (a.toNat - 0xC0000000) / 4096

theorem pteAddr_kernTable (kern : Uint) {a : Uint} (ha : InWindow a) :
    pteAddr (kernTable kern a) a =
      kern + BitVec.ofNat 32 (4 * windowPage a) := by
  have hoffset := toNat_pteOffset a
  rcases inWindow_iff.mp ha with ⟨hlow, hhigh⟩
  have hsum : BitVec.ofNat 32 (4096 * ((a.toNat - 0xC0000000) / 4194304)) +
      4 * pteIdx a = BitVec.ofNat 32 (4 * windowPage a) := by
    unfold windowPage
    rw [← BitVec.toNat_inj, BitVec.toNat_add, hoffset, BitVec.toNat_ofNat,
      BitVec.toNat_ofNat]
    omega
  unfold pteAddr kernTable
  rw [BitVec.sub_add_cancel, BitVec.add_assoc, hsum]

theorem windowPage_shift {a : Uint} (ha : InWindow a) :
    BitVec.ofNat 32 (windowPage a) <<< 12 = (a - PAGE_OFFSET) &&& PAGE_MASK := by
  rcases inWindow_iff.mp ha with ⟨hlow, hhigh⟩
  rw [and_pageMask_eq_shift]
  congr 1
  rw [← BitVec.toNat_inj, BitVec.toNat_ushiftRight, Nat.shiftRight_eq_div_pow,
    BitVec.toNat_ofNat, BitVec.toNat_sub, windowPage]
  change _ = (4294967296 - 3221225472 + a.toNat) % 4294967296 / 4096
  omega

theorem windowPage_eq_zero_iff {a : Uint} (ha : InWindow a) :
    windowPage a = 0 ↔ SamePage a PAGE_OFFSET := by
  rcases inWindow_iff.mp ha with ⟨hlow, hhigh⟩
  rw [SamePage, ← BitVec.toNat_inj, toNat_and_pageMask, toNat_and_pageMask,
    windowPage]
  change _ ↔ _ = 3221225472 / 4096 * 4096
  omega

/-- Before `init_vmm`: no entry outside the window points into `pte_kern`,
and the entry 0 of `pte_kern`, a static array, is zero. -/
structure Boot (kern : Uint) (vm : Vm) : Prop where
  zero : vm.mem kern = 0
  apart : ∀ a b, InWindow a → ¬ InWindow b → vm.tableOf b ≠ kernTable kern a

theorem initVmm_pgd (vm : Vm) (kern a : Uint) :
    (initVmm vm kern).pgd (pgdIdx a) =
      if InWindow a then
        kernTable kern a ||| (PTE_P ||| PTE_W ||| PTE_U)
      else vm.pgd (pgdIdx a) := by
  have hfirst : (pgdIdx PAGE_OFFSET).toNat = 768 := by decide
  have hidx := toNat_pgdIdx a
  unfold initVmm
  rw [fillPgd_pgd _ _ (by rw [hfirst, PTE_COUNT]; omega), fillPte_pgd, hfirst,
    hidx]
  by_cases ha : InWindow a
  · rcases inWindow_iff.mp ha with ⟨hlow, hhigh⟩
    have hrow : 0 + (a.toNat / 4194304 - 768) =
        (a.toNat - 0xC0000000) / 4194304 := by
      omega
    rw [if_pos ha, if_pos (by unfold PTE_COUNT; omega), hrow, kernTable,
      BitVec.or_assoc, BitVec.or_assoc, BitVec.or_assoc]
  · have hout := mt inWindow_iff.mpr ha
    rw [if_neg ha, if_neg (by unfold PTE_COUNT; omega)]

theorem initVmm_tableOf (hkern : KernTables kern) (vm : Vm) (a : Uint) :
    (initVmm vm kern).tableOf a =
      if InWindow a then kernTable kern a else vm.tableOf a := by
  unfold tableOf
  rw [initVmm_pgd]
  by_cases ha : InWindow a
  · rw [if_pos ha, if_pos ha]
    exact (kernTable_aligned hkern a).entry_frame (by decide)
  · rw [if_neg ha, if_neg ha]

theorem initVmm_entry (hboot : Boot kern vm) {a : Uint} (ha : InWindow a) :
    (initVmm vm kern).mem (pteAddr (kernTable kern a) a) = kernEntry a := by
  have hpage : windowPage a < 131072 := by
    have hhigh := (inWindow_iff.mp ha).2
    unfold windowPage
    omega
  unfold initVmm
  rw [pteAddr_kernTable kern ha, fillPgd_mem,
    fillPte_mem _ _ (by unfold PTE_COUNT NPTENTRIES; omega) (by omega),
    windowPage_shift ha, kernEntry, BitVec.or_assoc, BitVec.or_assoc]
  by_cases hzero : windowPage a = 0
  · rw [if_neg (by omega), if_pos ((windowPage_eq_zero_iff ha).mp hzero), hzero]
    simpa using hboot.zero
  · rw [if_pos (by unfold PTE_COUNT NPTENTRIES; omega),
      if_neg (mt (windowPage_eq_zero_iff ha).mpr hzero)]
    rw [BitVec.or_assoc]

theorem initVmm_inv (hkern : KernTables kern) (hboot : Boot kern vm) :
    Inv kern (initVmm vm kern) := by
  constructor
  · intro a ha
    rw [initVmm_tableOf hkern, if_pos ha]
  · intro a ha
    exact initVmm_entry hboot ha
  · intro a b ha hb
    rw [initVmm_tableOf hkern, if_neg hb]
    exact hboot.apart a b ha hb

/-! ## Calls outside the window -/

theorem Inv.setPmm (hinv : Inv kern vm) (pmm : Pmm) :
    Inv kern (vm.setPmm pmm) :=
  ⟨hinv.table, hinv.entry, hinv.apart⟩

/-- Writing the entry of an address outside the window. -/
theorem Inv.afterStore (hkern : KernTables kern) (hinv : Inv kern vm)
    {v : Uint} (hv : ¬ InWindow v) (w : Uint) :
    Inv kern (vm.store (pteAddr (vm.tableOf v) v) w) := by
  refine ⟨hinv.table, ?_, hinv.apart⟩
  intro a ha
  have haddr : pteAddr (kernTable kern a) a ≠ pteAddr (vm.tableOf v) v := by
    intro heq
    have htables := ((pteAddr_inj (kernTable_aligned hkern a)
      (vm.tableOf_aligned v)).mp heq).1
    exact hinv.apart a v ha hv htables.symm
  dsimp only [store]
  rw [Function.update_of_ne haddr]
  exact hinv.entry a ha

/-- A new page table for an address outside the window. -/
theorem Inv.afterWithTable (hkern : KernTables kern) (hinv : Inv kern vm)
    {v frame : Uint} (hv : ¬ InWindow v) (hfresh : FreshTable vm frame) :
    Inv kern (vm.withTable v frame) := by
  have hne : ∀ a, InWindow a → kernTable kern a ≠ frame :=
    fun a ha => hinv.table a ha ▸ hfresh.unused a
  constructor
  · intro a ha
    have hidx : pgdIdx a ≠ pgdIdx v :=
      fun h => hv ((inWindow_congr h).mp ha)
    rw [withTable_tableOf hfresh, if_neg hidx]
    exact hinv.table a ha
  · intro a ha
    have hclear := (pteAddr_sub_lt_iff (kernTable_aligned hkern a)
      hfresh.aligned a).not.mpr (hne a ha)
    dsimp only [withTable]
    rw [if_neg hclear]
    exact hinv.entry a ha
  · intro a b ha hb
    rw [withTable_tableOf hfresh]
    by_cases hidx : pgdIdx b = pgdIdx v
    · rw [if_pos hidx]
      exact (hne a ha).symm
    · rw [if_neg hidx]
      exact hinv.apart a b ha hb

theorem Inv.afterEnter (hkern : KernTables kern) (hinv : Inv kern vm)
    {v : Uint} (hv : ¬ InWindow v) (flags p : Uint) :
    Inv kern (vm.enter flags p v (vm.tableOf v)).2 := by
  obtain ⟨pg, pmm, henter⟩ := enter_eq vm flags p v (vm.tableOf v)
  rw [henter]
  exact (hinv.afterStore hkern hv _).setPmm pmm

theorem Inv.afterUnmap (hkern : KernTables kern) (hinv : Inv kern vm)
    {v : Uint} (hv : ¬ InWindow v) : Inv kern (vm.unmap v) := by
  unfold unmap
  by_cases hmissing : vm.tableOf v = 0
  · simp only [hmissing, if_true]
    exact hinv
  · simp only [hmissing, if_false]
    exact (hinv.afterStore hkern hv 0).setPmm _

theorem Inv.afterMap (hkern : KernTables kern) (hinv : Inv kern vm)
    {flags p v : Uint} {pg : PagePtr} (hv : ¬ InWindow v)
    (hfresh : ∀ pg vm₁, vm.tableOf v = 0 → vm.allocPages 1 = .ok (pg, vm₁) →
      FreshTable vm (vm₁.pmm.startAddr pg))
    (hmap : vm.map flags p v = .ok (pg, vm')) : Inv kern vm' := by
  unfold map at hmap
  by_cases hmissing : vm.tableOf v = 0
  · rw [if_pos hmissing] at hmap
    obtain ⟨⟨frame, vm₁⟩, hnew, hmap⟩ := bind_ok_iff.mp hmap
    cases halloc : vm.allocPages 1 with
    | error =>
        rw [newTable, halloc] at hnew
        cases hnew
    | ok r =>
        obtain ⟨pg', vm₂⟩ := r
        obtain ⟨pmm, hnew'⟩ := newTable_eq (v := v) halloc
        have hfit := hfresh pg' vm₂ hmissing halloc
        rw [hnew'] at hnew
        cases hnew
        have hinv₁ := (hinv.afterWithTable hkern hv hfit).setPmm pmm
        have htable := withTable_tableOf (v := v) hfit v
        rw [if_pos rfl] at htable
        have henter := hinv₁.afterEnter hkern hv flags p
        change Inv kern (enter _ flags p v ((vm.withTable v _).tableOf v)).2
          at henter
        rw [htable] at henter
        cases hmap
        exact henter
  · rw [if_neg hmissing] at hmap
    have henter := hinv.afterEnter hkern hv flags p
    cases hmap
    exact henter

/-! ## Runs -/

inductive Call where
  | map (flags p v : Uint)
  | unmap (v : Uint)

/-- A call outside the window that returns; a frame that `map` obtains for a
page table is not one already. -/
inductive Step : Vm → Call → Vm → Prop
  | map {vm vm' : Vm} {flags p v : Uint} {pg : PagePtr} :
      ¬ InWindow v →
      (∀ pg vm₁, vm.tableOf v = 0 → vm.allocPages 1 = .ok (pg, vm₁) →
        FreshTable vm (vm₁.pmm.startAddr pg)) →
      vm.map flags p v = .ok (pg, vm') → Step vm (.map flags p v) vm'
  | unmap {vm : Vm} {v : Uint} :
      ¬ InWindow v → Step vm (.unmap v) (vm.unmap v)

theorem Inv.afterStep (hkern : KernTables kern) (hinv : Inv kern vm)
    {c : Call} (hstep : Step vm c vm') : Inv kern vm' := by
  cases hstep with
  | map hv hfresh hmap => exact hinv.afterMap hkern hv hfresh hmap
  | unmap hv => exact hinv.afterUnmap hkern hv

theorem Inv.getmapping (hkern : KernTables kern) (hinv : Inv kern vm)
    {a : Uint} (ha : InWindow a) :
    vm.getmapping a =
      if SamePage a PAGE_OFFSET then none
      else some ((a - PAGE_OFFSET) &&& PAGE_MASK) := by
  have haligned := aligned_and_pageMask (a - PAGE_OFFSET)
  rw [getmapping_eq, entryOf, hinv.table a ha,
    if_neg (kernTable_ne_zero hkern ha), hinv.entry a ha, kernEntry]
  by_cases hpage : SamePage a PAGE_OFFSET
  · rw [if_pos hpage, if_pos hpage, if_pos rfl]
  · rw [if_neg hpage, if_neg hpage, haligned.entry_frame (by decide),
      if_neg (haligned.entry_ne_zero (by decide) (by decide))]

/-- The direct map survives all mapping and unmapping outside its window. -/
theorem direct_map_survives (hkern : KernTables kern) (hboot : Boot kern vm)
    {calls : List Call} (hrun : Run Step (initVmm vm kern) calls vm') :
    (∀ a, PAGE_OFFSET + PGSIZE ≤ a → a < PAGE_OFFSET + MAXSIZE →
      vm'.getmapping a = some ((a - PAGE_OFFSET) &&& PAGE_MASK)) ∧
    ∀ a, SamePage a PAGE_OFFSET → vm'.getmapping a = none := by
  have hinv : Inv kern vm' :=
    hrun.invariant (Inv kern)
      (fun _ _ _ hinv hstep => hinv.afterStep hkern hstep)
      (initVmm_inv hkern hboot)
  constructor
  · intro a hlow hhigh
    rw [BitVec.le_def] at hlow
    change 3221225472 + 4096 ≤ a.toNat at hlow
    have hout : ¬ SamePage a PAGE_OFFSET := by
      rw [SamePage, ← BitVec.toNat_inj, toNat_and_pageMask, toNat_and_pageMask]
      change ¬ _ = 3221225472 / 4096 * 4096
      omega
    have ha : InWindow a := by
      refine ⟨?_, hhigh⟩
      rw [BitVec.le_def]
      change 3221225472 ≤ a.toNat
      omega
    rw [hinv.getmapping hkern ha, if_neg hout]
  · intro a hpage
    have ha : InWindow a := by
      rw [SamePage, ← BitVec.toNat_inj, toNat_and_pageMask,
        toNat_and_pageMask] at hpage
      change _ = 3221225472 / 4096 * 4096 at hpage
      rw [inWindow_iff]
      omega
    rw [hinv.getmapping hkern ha, if_pos hpage]

/-- The page directory of `kern_entry`. -/
def bootVm (pmm : Pmm) : Vm :=
  { bare pmm with
    pgd := fun i =>
      if i = 0 ∨ i = 0x300 then 0x2007
      else if i = 1 ∨ i = 0x301 then 0x3007 else 0 }

theorem bootVm_tableOf_lt (pmm : Pmm) (a : Uint) :
    ((bootVm pmm).tableOf a).toNat < 0x4000 := by
  unfold tableOf bootVm
  dsimp only
  split
  · decide
  · split <;> decide

/-- `pte_kern` at the physical address 4MB. -/
theorem kernTables_4MB : KernTables 0xC0400000 :=
  ⟨by unfold Aligned; decide, by decide, by unfold PTE_COUNT; decide⟩

theorem le_kernTable_4MB {a : Uint} (ha : InWindow a) :
    0x400000 ≤ (kernTable 0xC0400000 a).toNat := by
  rw [kernTable_toNat kernTables_4MB ha]
  change _ ≤ 3225419776 - 3221225472 + _
  omega

theorem bootVm_boot (pmm : Pmm) : Boot 0xC0400000 (bootVm pmm) := by
  refine ⟨rfl, ?_⟩
  intro a b ha _ heq
  have hlow := bootVm_tableOf_lt pmm b
  have hhigh := le_kernTable_4MB ha
  rw [heq] at hlow
  omega

theorem initVmm_pmm (vm : Vm) (kern : Uint) :
    (initVmm vm kern).pmm = vm.pmm := by
  have hpgd : ∀ (vm : Vm) (n i j : ℕ), (fillPgd vm kern n i j).pmm = vm.pmm := by
    intro vm n
    induction n generalizing vm with
    | zero => exact fun _ _ => rfl
    | succ n ih => exact fun _ _ => ih _ _ _
  have hpte : ∀ (vm : Vm) (n i : ℕ), (fillPte vm kern n i).pmm = vm.pmm := by
    intro vm n
    induction n generalizing vm with
    | zero => exact fun _ => rfl
    | succ n ih => exact fun _ => ih _ _
  exact (hpgd _ _ _ _).trans (hpte _ _ _)

/-- What `alloc_pages` hands out does not depend on the page tables. -/
theorem allocPages_of_pmm {w vm₁ : Vm} {n : Uint} {pg : PagePtr}
    (hpmm : w.pmm = vm.pmm) (halloc : vm.allocPages n = .ok (pg, vm₁)) :
    w.allocPages n = .ok (pg, w.setPmm vm₁.pmm) := by
  obtain ⟨⟨q, t⟩, hrun, hret⟩ := bind_ok_iff.mp halloc
  cases hret
  have hbuddy := BuddySession.allocPages_ok_iff.mp hrun
  rw [← hpmm] at hbuddy
  exact bind_ok_iff.mpr ⟨(pg, t), BuddySession.allocPages_ok_iff.mpr hbuddy, rfl⟩

/-- A page outside the window is mapped, which takes a page table, and
unmapped again. -/
theorem direct_map_survives_one_page :
    ∃ p vm',
      Pmm.initBuddy (BuddySession.frameMap 6) (.boot BuddySession.zeroPage) =
        .ok p ∧
      Run Step (initVmm (bootVm p) 0xC0400000)
        [.map 7 0x104000 0xE0008700, .unmap 0xE0008700] vm' ∧
      vm'.getmapping 0xC0123456 = some 0x123000 ∧
      vm'.getmapping 0xC0000FFF = none := by
  obtain ⟨p, pg, vm₁, hinit, hbare, hstart⟩ := six_frames
  have hpmm : (initVmm (bootVm p) 0xC0400000).pmm = (bare p).pmm :=
    initVmm_pmm _ _
  have halloc' := allocPages_of_pmm hpmm hbare
  have htableOf := initVmm_tableOf kernTables_4MB (bootVm p)
  have hmissing : (initVmm (bootVm p) 0xC0400000).tableOf 0xE0008700 = 0 := by
    rw [htableOf, if_neg (by decide), tableOf, bootVm]
    dsimp only
    decide
  have hfresh : FreshTable (initVmm (bootVm p) 0xC0400000)
      (vm₁.pmm.startAddr pg) := by
    rw [hstart]
    refine ⟨by unfold Aligned; decide, by decide, ?_⟩
    intro a heq
    have hnat := congrArg BitVec.toNat heq
    change _ = 0x105000 at hnat
    rw [htableOf] at hnat
    split at hnat
    next ha =>
      have hhigh := le_kernTable_4MB ha
      omega
    next =>
      have hlow := bootVm_tableOf_lt p a
      omega
  obtain ⟨pmm, hnew⟩ := newTable_eq (v := 0xE0008700) halloc'
  obtain ⟨pg', w, hmap⟩ : ∃ pg' w, (initVmm (bootVm p) 0xC0400000).map 7
      0x104000 0xE0008700 = .ok (pg', w) := by
    unfold map
    rw [if_pos hmissing, hnew]
    exact ⟨_, _, rfl⟩
  have hsteps : Run Step (initVmm (bootVm p) 0xC0400000)
      ([] ++ [.map 7 0x104000 0xE0008700] ++ [.unmap 0xE0008700])
      (w.unmap 0xE0008700) := by
    refine .snoc (.snoc .nil (.map (by decide) ?_ hmap))
      (.unmap (by decide))
    intro pg₂ vm₂ _ halloc₂
    rw [halloc'] at halloc₂
    cases halloc₂
    exact hfresh
  have hmapped := direct_map_survives kernTables_4MB (bootVm_boot p) hsteps
  refine ⟨p, _, hinit, hsteps, ?_, hmapped.2 _ (by decide)⟩
  exact hmapped.1 0xC0123456 (by decide) (by decide)

end DirectMap
end OS32
