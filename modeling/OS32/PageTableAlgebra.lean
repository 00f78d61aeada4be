import OS32.PageAddress
import OS32.BuddySession

/-!
# The address space behind the page tables

`entryOf` reads the two-level tables as one map from pages to entries, in which
a missing page table counts as a table of zeros.  `map` and `unmap` change this
map at one page, and a new page table does not change it at all.
-/

namespace OS32
namespace Vm

variable {vm : Vm}

/-- The entry of the page of `a`. -/
def entryOf (vm : Vm) (a : Uint) : Uint :=
  if vm.tableOf a = 0 then 0 else vm.mem (pteAddr (vm.tableOf a) a)

theorem getmapping_eq (vm : Vm) (a : Uint) :
    vm.getmapping a =
      if vm.entryOf a = 0 then none else some (vm.entryOf a &&& PAGE_MASK) := by
  unfold getmapping entryOf
  by_cases htable : vm.tableOf a = 0
  · rw [if_pos htable, if_pos htable, if_pos rfl]
  · rw [if_neg htable, if_neg htable]
    by_cases hentry : vm.mem (pteAddr (vm.tableOf a) a) = 0
    · rw [if_pos hentry, if_neg (not_not.mpr hentry)]
    · rw [if_neg hentry, if_pos hentry]

theorem entryOf_setPmm (vm : Vm) (pmm : Pmm) (a : Uint) :
    (vm.setPmm pmm).entryOf a = vm.entryOf a := rfl

theorem entryOf_eq {vm' : Vm} (hpgd : vm'.pgd = vm.pgd)
    (hmem : vm'.mem = vm.mem) (a : Uint) : vm'.entryOf a = vm.entryOf a := by
  unfold entryOf tableOf
  rw [hpgd, hmem]

theorem tableOf_congr {a b : Uint} (hidx : pgdIdx a = pgdIdx b) :
    vm.tableOf a = vm.tableOf b := by
  rw [tableOf, tableOf, hidx]

theorem entryOf_congr {a b : Uint} (hpage : SamePage a b) :
    vm.entryOf a = vm.entryOf b := by
  rcases samePage_iff.mp hpage with ⟨hpgd, hpte⟩
  unfold entryOf pteAddr
  rw [tableOf_congr hpgd, hpte]

theorem tableOf_aligned (vm : Vm) (a : Uint) : Aligned (vm.tableOf a) :=
  aligned_and_pageMask _

/-- The page tables are those of the 1024 directory entries. -/
theorem exists_tableOf_iff {frame : Uint} :
    (∃ a, vm.tableOf a = frame) ↔
      ∃ k : Fin 1024, vm.pgd (BitVec.ofNat 32 k) &&& PAGE_MASK = frame := by
  constructor
  · rintro ⟨a, ha⟩
    have hlt : (pgdIdx a).toNat < 1024 := by
      have hbound := a.isLt
      rw [toNat_pgdIdx]
      omega
    refine ⟨⟨(pgdIdx a).toNat, hlt⟩, ?_⟩
    rw [BitVec.ofNat_toNat, BitVec.setWidth_eq]
    exact ha
  · rintro ⟨k, hk⟩
    refine ⟨BitVec.ofNat 32 (4194304 * k), ?_⟩
    have hidx : pgdIdx (BitVec.ofNat 32 (4194304 * k)) =
        BitVec.ofNat 32 k := by
      have hbound := k.isLt
      rw [← BitVec.toNat_inj, toNat_pgdIdx, BitVec.toNat_ofNat,
        BitVec.toNat_ofNat]
      omega
    rw [tableOf, hidx, hk]

/-- Different entries of the page directory point to different page tables. -/
def TablesDistinct (vm : Vm) : Prop :=
  ∀ a b, vm.tableOf a ≠ 0 → vm.tableOf a = vm.tableOf b → pgdIdx a = pgdIdx b

/-- A frame that can become a page table. -/
structure FreshTable (vm : Vm) (frame : Uint) : Prop where
  aligned : Aligned frame
  ne_zero : frame ≠ 0
  unused : ∀ a, vm.tableOf a ≠ frame

theorem FreshTable.of_pgd {vm' : Vm} {frame : Uint} (hfresh : FreshTable vm frame)
    (hpgd : vm'.pgd = vm.pgd) : FreshTable vm' frame := by
  refine ⟨hfresh.aligned, hfresh.ne_zero, fun a => ?_⟩
  rw [tableOf, hpgd]
  exact hfresh.unused a

/-! ## Writing one entry -/

theorem entryOf_store (htables : TablesDistinct vm) {v : Uint}
    (htable : vm.tableOf v ≠ 0) (w a : Uint) :
    (vm.store (pteAddr (vm.tableOf v) v) w).entryOf a =
      if SamePage a v then w else vm.entryOf a := by
  have hsame : (vm.store (pteAddr (vm.tableOf v) v) w).tableOf a =
      vm.tableOf a := rfl
  unfold entryOf
  rw [hsame]
  by_cases hpage : SamePage a v
  · rcases samePage_iff.mp hpage with ⟨hpgd, hpte⟩
    have haddr : pteAddr (vm.tableOf a) a = pteAddr (vm.tableOf v) v := by
      unfold pteAddr
      rw [tableOf_congr hpgd, hpte]
    rw [if_pos hpage, if_neg (by rwa [tableOf_congr hpgd]), haddr]
    simp [store]
  · rw [if_neg hpage]
    by_cases hmissing : vm.tableOf a = 0
    · rw [if_pos hmissing, if_pos hmissing]
    · have haddr : pteAddr (vm.tableOf a) a ≠ pteAddr (vm.tableOf v) v := by
        intro heq
        rcases (pteAddr_inj (vm.tableOf_aligned a) (vm.tableOf_aligned v)).mp
          heq with ⟨htab, hpte⟩
        exact hpage (samePage_iff.mpr ⟨htables a v hmissing htab, hpte⟩)
      rw [if_neg hmissing, if_neg hmissing]
      simp [store, haddr]

/-! ## A new page table -/

section NewTable

/-- The address space after `alloc_pages` has handed out `frame` for the page
table of `v`. -/
def withTable (vm : Vm) (v frame : Uint) : Vm :=
  { vm with
    pgd := Function.update vm.pgd (pgdIdx v) (frame ||| PTE_P ||| PTE_W)
    mem := fun a =>
      if a - (frame + PAGE_OFFSET) < PGSIZE then 0 else vm.mem a }

variable {v frame : Uint}

theorem withTable_tableOf_of_ne {a : Uint} (hidx : pgdIdx a ≠ pgdIdx v) :
    (vm.withTable v frame).tableOf a = vm.tableOf a := by
  simp [tableOf, withTable, hidx]

theorem withTable_tableOf_self (haligned : Aligned frame) :
    (vm.withTable v frame).tableOf v = frame := by
  unfold tableOf withTable
  dsimp only
  rw [Function.update_self, BitVec.or_assoc]
  exact haligned.entry_frame (by decide)

theorem withTable_tableOf (hfresh : FreshTable vm frame) (a : Uint) :
    (vm.withTable v frame).tableOf a =
      if pgdIdx a = pgdIdx v then frame else vm.tableOf a := by
  split_ifs with hidx
  · rw [tableOf_congr hidx]
    exact withTable_tableOf_self hfresh.aligned
  · exact withTable_tableOf_of_ne hidx

theorem withTable_tablesDistinct (htables : TablesDistinct vm)
    (hfresh : FreshTable vm frame) :
    TablesDistinct (vm.withTable v frame) := by
  intro a b hne heq
  rw [withTable_tableOf hfresh] at hne
  rw [withTable_tableOf hfresh, withTable_tableOf hfresh] at heq
  by_cases ha : pgdIdx a = pgdIdx v
  · by_cases hb : pgdIdx b = pgdIdx v
    · rw [ha, hb]
    · rw [if_pos ha, if_neg hb] at heq
      exact absurd heq.symm (hfresh.unused b)
  · by_cases hb : pgdIdx b = pgdIdx v
    · rw [if_neg ha, if_pos hb] at heq
      exact absurd heq (hfresh.unused a)
    · rw [if_neg ha] at hne
      rw [if_neg ha, if_neg hb] at heq
      exact htables a b hne heq

/-- A table of zeros means the same as no table. -/
theorem withTable_entryOf (hmissing : vm.tableOf v = 0)
    (hfresh : FreshTable vm frame) (a : Uint) :
    (vm.withTable v frame).entryOf a = vm.entryOf a := by
  have hclear : ∀ table, Aligned table → (pteAddr table a -
      (frame + PAGE_OFFSET) < PGSIZE ↔ table = frame) :=
    fun table htable => pteAddr_sub_lt_iff htable hfresh.aligned a
  unfold entryOf
  rw [withTable_tableOf hfresh]
  by_cases ha : pgdIdx a = pgdIdx v
  · rw [if_pos ha, if_neg hfresh.ne_zero, tableOf_congr ha, if_pos hmissing]
    simp [withTable, hclear frame hfresh.aligned]
  · rw [if_neg ha]
    by_cases hzero : vm.tableOf a = 0
    · rw [if_pos hzero, if_pos hzero]
    · rw [if_neg hzero, if_neg hzero]
      simp [withTable, hclear _ (vm.tableOf_aligned a), hfresh.unused a]

theorem allocPages_eq {n : Uint} {pg : PagePtr} {vm₁ : Vm}
    (halloc : vm.allocPages n = .ok (pg, vm₁)) :
    ∃ pmm, vm₁ = vm.setPmm pmm := by
  unfold allocPages at halloc
  cases hpmm : vm.pmm.allocPages
      (fun pmm => (swapOut (vm.setPmm pmm) 1).map Prod.fst) n with
  | error => simp [hpmm, bind, Except.bind] at halloc
  | ok r =>
      rw [hpmm] at halloc
      cases halloc
      exact ⟨_, rfl⟩

/-- `newTable` hands the frame it got to the page directory. -/
theorem newTable_eq {pg : PagePtr} {vm₁ : Vm}
    (halloc : vm.allocPages 1 = .ok (pg, vm₁)) :
    ∃ pmm, vm.newTable v = .ok (vm₁.pmm.startAddr pg,
      (vm.withTable v (vm₁.pmm.startAddr pg)).setPmm pmm) := by
  obtain ⟨pmm, rfl⟩ := allocPages_eq halloc
  unfold newTable
  rw [halloc]
  exact ⟨_, rfl⟩

end NewTable

/-! ## `map` and `unmap` -/

section Operations

variable {flags p v : Uint}

theorem enter_eq (vm : Vm) (flags p v table : Uint) :
    ∃ pg pmm, vm.enter flags p v table = (pg,
      (vm.store (pteAddr table v) (p &&& PAGE_MASK ||| flags)).setPmm pmm) :=
  ⟨_, _, rfl⟩

/-- What `map` needs of `alloc_pages` when the page table is missing. -/
def Supplied (vm : Vm) (v : Uint) : Prop :=
  vm.tableOf v = 0 → ∃ pg vm₁, vm.allocPages 1 = .ok (pg, vm₁) ∧
    FreshTable vm (vm₁.pmm.startAddr pg)

/-- `map` returns, and writes the entry of one page. -/
theorem map_entryOf (htables : TablesDistinct vm) (hsupply : Supplied vm v)
    (flags p : Uint) :
    ∃ pg vm', vm.map flags p v = .ok (pg, vm') ∧ TablesDistinct vm' ∧
      ∀ a, vm'.entryOf a =
        if SamePage a v then p &&& PAGE_MASK ||| flags
        else vm.entryOf a := by
  unfold map
  by_cases hmissing : vm.tableOf v = 0
  · obtain ⟨pg, vm₁, halloc, hfresh⟩ := hsupply hmissing
    obtain ⟨pmm, hnew⟩ := newTable_eq (v := v) halloc
    have htableOf := withTable_tableOf (v := v) hfresh v
    rw [if_pos rfl] at htableOf
    have hdistinct := withTable_tablesDistinct (v := v) htables hfresh
    obtain ⟨pg', pmm', henter⟩ := enter_eq
      ((vm.withTable v (vm₁.pmm.startAddr pg)).setPmm pmm) flags p v
      (vm₁.pmm.startAddr pg)
    rw [if_pos hmissing, hnew]
    refine ⟨_, _, congrArg Except.ok henter, hdistinct, fun a => ?_⟩
    rw [entryOf_setPmm, ← withTable_entryOf hmissing hfresh a]
    have hstore := entryOf_store hdistinct (v := v)
    rw [htableOf] at hstore
    exact hstore hfresh.ne_zero _ a
  · obtain ⟨pg', pmm', henter⟩ := enter_eq vm flags p v (vm.tableOf v)
    rw [if_neg hmissing]
    refine ⟨_, _, congrArg Except.ok henter, htables, fun a => ?_⟩
    rw [entryOf_setPmm]
    exact entryOf_store htables hmissing _ a

theorem unmap_entryOf (htables : TablesDistinct vm) (a : Uint) :
    (vm.unmap v).entryOf a = if SamePage a v then 0 else vm.entryOf a := by
  unfold unmap
  by_cases hmissing : vm.tableOf v = 0
  · simp only [hmissing, if_true]
    by_cases hpage : SamePage a v
    · rw [if_pos hpage, entryOf,
        if_pos (by rw [tableOf_congr (samePage_iff.mp hpage).1, hmissing])]
    · rw [if_neg hpage]
  · simp only [hmissing, if_false]
    rw [entryOf_setPmm]
    exact entryOf_store htables hmissing 0 a

/-- The algebra of `map`, `unmap` and `getmapping`: `map` sets what one page is
mapped to, `unmap` removes it, and all other pages keep their mapping. -/
theorem map_unmap_getmapping (htables : TablesDistinct vm)
    (hsupply : Supplied vm v) (hp : Aligned p) (hflags : flags ≠ 0)
    (hsmall : flags.toNat < 4096) :
    ∃ pg vm', vm.map flags p v = .ok (pg, vm') ∧
      (∀ a, vm'.getmapping a =
        if SamePage a v then some p else vm.getmapping a) ∧
      (∀ a, (vm.unmap v).getmapping a =
        if SamePage a v then none else vm.getmapping a) ∧
      (vm.getmapping v = none →
        ∀ a, (vm'.unmap v).getmapping a = vm.getmapping a) := by
  obtain ⟨pg, vm', hmap, htables', hentry⟩ :=
    map_entryOf htables hsupply flags p
  have hmapped : ∀ a, vm'.getmapping a =
      if SamePage a v then some p else vm.getmapping a := by
    intro a
    rw [getmapping_eq, getmapping_eq, hentry, hp.and_pageMask]
    by_cases hpage : SamePage a v
    · simp only [if_pos hpage, hp.entry_frame hsmall]
      rw [if_neg (hp.entry_ne_zero hsmall hflags)]
    · simp only [if_neg hpage]
  have hunmapped : ∀ {w : Vm}, TablesDistinct w →
      ∀ a, (w.unmap v).getmapping a =
        if SamePage a v then none else w.getmapping a := by
    intro w hw a
    rw [getmapping_eq, getmapping_eq, unmap_entryOf hw]
    by_cases hpage : SamePage a v
    · simp only [if_pos hpage, if_true]
    · simp only [if_neg hpage]
  refine ⟨pg, vm', hmap, hmapped, hunmapped htables, fun hnone a => ?_⟩
  rw [hunmapped htables', hmapped]
  by_cases hpage : SamePage a v
  · rw [if_pos hpage, ← hnone, getmapping_eq, getmapping_eq,
      entryOf_congr hpage]
  · rw [if_neg hpage, if_neg hpage]

end Operations

/-- An address space without page tables. -/
def bare (pmm : Pmm) : Vm where
  pmm := pmm
  pgd := fun _ => 0
  mem := fun _ => 0
  clockPoint := none
  swapInitOk := true
  mm := ⟨none, none, fun _ => ⟨none, 0, 0, 0⟩⟩
  io := []

theorem bare_tablesDistinct (pmm : Pmm) : TablesDistinct (bare pmm) := by
  intro a b hne
  simp [bare, tableOf] at hne

/-- The first page allocated of six frames is the last one. -/
theorem six_frames :
    ∃ p pg vm₁,
      Pmm.initBuddy (BuddySession.frameMap 6) (.boot BuddySession.zeroPage) =
        .ok p ∧
      (bare p).allocPages 1 = .ok (pg, vm₁) ∧
      vm₁.pmm.startAddr pg = 0x105000 := by
  have htrace : BuddySession.trace BuddySession.next 6 [] (fun s =>
      ((bare s.pmm).allocPages 1).toOption.map
        fun r => r.2.pmm.startAddr r.1) = some 0x105000 := by decide +kernel
  obtain ⟨p, s, hinit, hrun, hlook⟩ := BuddySession.run_of_trace htrace
    fun _ _ _ => BuddySession.step_of_next
  obtain rfl := Transition.run_nil hrun
  obtain ⟨⟨pg, vm₁⟩, halloc, hstart⟩ := Option.map_eq_some_iff.mp hlook
  exact ⟨p, pg, vm₁, hinit, BuddySession.eq_ok_of_toOption halloc, hstart⟩

/-- A page is mapped and unmapped again; its page table is the last of six
frames. -/
theorem map_unmap_one_page :
    ∃ p pg vm',
      Pmm.initBuddy (BuddySession.frameMap 6) (.boot BuddySession.zeroPage) =
        .ok p ∧
      (bare p).map 7 0x104000 0xE0008700 = .ok (pg, vm') ∧
      vm'.getmapping 0xE0008123 = some 0x104000 ∧
      (vm'.unmap 0xE0008700).getmapping 0xE0008123 = none := by
  obtain ⟨p, pg, vm₁, hinit, halloc, hstart⟩ := six_frames
  have hsupply : Supplied (bare p) 0xE0008700 := by
    intro _
    refine ⟨pg, vm₁, halloc, ?_⟩
    rw [hstart]
    exact ⟨by unfold Aligned; decide, by decide, by simp [bare, tableOf]⟩
  obtain ⟨pg', vm', hmap, hmapped, _, hrestore⟩ :=
    map_unmap_getmapping (bare_tablesDistinct p) hsupply
      (show Aligned 0x104000 by unfold Aligned; decide)
      (show (7 : Uint) ≠ 0 by decide) (by decide)
  have hnone : ∀ a, (bare p).getmapping a = none := by
    intro a
    simp [getmapping, bare, tableOf]
  refine ⟨p, pg', vm', hinit, hmap, ?_, ?_⟩
  · rw [hmapped, if_pos (by decide)]
  · rw [hrestore (hnone _), hnone]

end Vm
end OS32
