import OS32.BuddyContiguity
import OS32.SlabSteps
import OS32.SwapList

/-!
# The pages of a new slab

The loop of `apply_slab` adds `i` pages to the first address of `pg_list`, and
`map` moves `pg_list` on to the page it has just entered.
-/

namespace OS32

open NullList BuddyTable Swap

namespace Vm

variable {vm vm' : Vm} {free : Table ℕ} {clock block : List ℕ} {a v : Uint}

/-! ## Page tables that stay -/

/-- No page table is taken out of the directory. -/
def KeepsTables (vm vm' : Vm) : Prop :=
  ∀ a, vm.tableOf a ≠ 0 → vm'.tableOf a = vm.tableOf a

theorem KeepsTables.trans {vm₁ : Vm} (hfirst : KeepsTables vm vm₁)
    (hsecond : KeepsTables vm₁ vm') : KeepsTables vm vm' := by
  intro a ha
  have hkept := hfirst a ha
  rw [hsecond a (by rwa [hkept]), hkept]

theorem KeepsTables.of_pgd (hpgd : vm'.pgd = vm.pgd) : KeepsTables vm vm' := by
  intro a _
  rw [tableOf, tableOf, hpgd]

/-- Page tables that are different later on are different now. -/
theorem KeepsTables.distinct (hkept : KeepsTables vm vm')
    (htables : TablesDistinct vm') : TablesDistinct vm := by
  intro a b hne hsame
  have ha := hkept a hne
  have hb := hkept b (by rwa [← hsame])
  exact htables a b (by rwa [ha]) (by rw [ha, hb, hsame])

theorem claimTable_keeps (hmissing : vm.tableOf v = 0) (pg : PagePtr) :
    KeepsTables vm (vm.claimTable pg v) := by
  intro a ha
  refine withTable_tableOf_of_ne fun hidx => ha ?_
  rw [tableOf_congr hidx, hmissing]

theorem entered_keeps (vm : Vm) (pg : PagePtr) (entry v table : Uint) :
    KeepsTables vm (vm.entered pg entry v table) := .of_pgd rfl

theorem map_keeps {flags p : Uint} {pg : PagePtr}
    (hrun : vm.map flags p v = .ok (pg, vm')) : KeepsTables vm vm' := by
  obtain ⟨_, ⟨_, rfl⟩ | ⟨hmissing, q, vm₁, halloc, rfl⟩⟩ := map_cases hrun
  · exact entered_keeps _ _ _ _ _
  · obtain ⟨t, rfl, _⟩ := allocPages_cases halloc
    have hmissing₁ : (vm.setPmm t).tableOf v = 0 := hmissing
    exact (claimTable_keeps hmissing₁ q).trans (entered_keeps _ _ _ _ _)

theorem unmap_keeps (vm : Vm) (v : Uint) : KeepsTables vm (vm.unmap v) := by
  by_cases htable : vm.tableOf v = 0
  · rw [Vm.unmap, if_pos htable]
    exact .of_pgd rfl
  · rw [Vm.unmap, if_neg htable]
    exact .of_pgd rfl

/-- Where the page tables are different after a frame has become one, the frame
was none before. -/
theorem freshTable_of_distinct {pg : PagePtr}
    (haligned : Aligned (vm.pmm.startAddr pg)) (hne : vm.pmm.startAddr pg ≠ 0)
    (hmissing : vm.tableOf v = 0)
    (htables : TablesDistinct (vm.claimTable pg v)) :
    FreshTable vm (vm.pmm.startAddr pg) := by
  refine ⟨haligned, hne, fun a ha => ?_⟩
  have hused : vm.tableOf a ≠ 0 := by rwa [ha]
  have hkept := claimTable_keeps hmissing pg a hused
  have hself : (vm.claimTable pg v).tableOf v = vm.pmm.startAddr pg :=
    withTable_tableOf_self haligned
  have hidx : pgdIdx a = pgdIdx v :=
    htables a v (by rwa [hkept]) (by rw [hkept, ha, hself])
  exact hused (by rw [tableOf_congr hidx, hmissing])

/-! ## `map` -/

/-- An address space to which pages can be added while `block` is in hand: the
allocator's lists are sound, page tables do not overlap, and free frames are
pages. -/
structure Mappable (vm : Vm) (free : Table ℕ) (clock block : List ℕ) : Prop where
  listed : Listed vm free clock block
  tables : TablesDistinct vm
  frame : ∀ i ∈ frames 17 free, Aligned (vm.pmm.startAddr (some i)) ∧
    vm.pmm.startAddr (some i) ≠ 0

/-- The count and the address of the frame `j` are the same, or it has become a
page table. -/
def Untouched (vm vm' : Vm) (j : ℕ) : Prop :=
  (vm'.pmm.refNum (some j) = vm.pmm.refNum (some j) ∧
      vm'.pmm.va (some j) = vm.pmm.va (some j)) ∨
    ∃ a, vm'.tableOf a ≠ 0 ∧ vm'.tableOf a = vm.pmm.startAddr (some j)

/-- What `map` of a page leaves behind. -/
structure Mapped (vm : Vm) (flags p v : Uint) (pg : PagePtr) (vm' : Vm) :
    Prop where
  page : pg = some (findPageIndex vm.pmm p)
  startAddr : vm'.pmm.startAddr = vm.pmm.startAddr
  entry : ∀ a, vm'.entryOf a =
    if SamePage a v then p &&& PAGE_MASK ||| flags else vm.entryOf a
  untouched : ∀ j, some j ≠ pg → Untouched vm vm' j

theorem entered_untouched (pg : PagePtr) (entry v table : Uint) {j : ℕ}
    (hj : some j ≠ pg) : (vm.entered pg entry v table).pmm.refNum (some j) =
        vm.pmm.refNum (some j) ∧
      (vm.entered pg entry v table).pmm.va (some j) = vm.pmm.va (some j) := by
  constructor
  · exact Function.update_of_ne hj _ _
  · exact Function.update_of_ne hj _ _

/-- The frame `i` has become the page table of `v`. -/
structure Claimed (vm : Vm) (v : Uint) (i : ℕ) (vm' : Vm) : Prop where
  tableOf : vm'.tableOf v = vm.pmm.startAddr (some i)
  ne_zero : vm'.tableOf v ≠ 0
  entry : ∀ a, vm'.entryOf a = vm.entryOf a
  startAddr : vm'.pmm.startAddr = vm.pmm.startAddr
  raised : vm'.pmm.refNum (some i) = vm.pmm.refNum (some i) + 1
  counts : ∀ j ≠ i, vm'.pmm.refNum (some j) = vm.pmm.refNum (some j) ∧
    vm'.pmm.va (some j) = vm.pmm.va (some j)

theorem claimed_claimTable {t : Pmm} {i : ℕ}
    (hmembers : t.members = vm.pmm.members) (hmissing : vm.tableOf v = 0)
    (hfresh : FreshTable vm (vm.pmm.startAddr (some i))) :
    Claimed vm v i ((vm.setPmm t).claimTable (some i) v) := by
  have hstart : t.startAddr = vm.pmm.startAddr := Pmm.startAddr_eq hmembers
  have hfresh₁ : FreshTable (vm.setPmm t) (t.startAddr (some i)) := by
    rw [hstart]
    exact hfresh.of_pgd rfl
  have htableOf := withTable_tableOf (v := v) hfresh₁ v
  rw [if_pos rfl, hstart] at htableOf
  have hmissing₁ : (vm.setPmm t).tableOf v = 0 := hmissing
  refine ⟨?_, ?_, ?_, ?_, ?_, ?_⟩
  · rw [← htableOf, ← hstart]
    rfl
  · have hne := hfresh.ne_zero
    rw [← htableOf, ← hstart] at hne
    exact hne
  · intro a
    rw [← entryOf_setPmm vm t a, ← withTable_entryOf hmissing₁ hfresh₁ a]
    rfl
  · rw [claimTable_startAddr]
    exact hstart
  · rw [← congrFun (Pmm.refNum_eq hmembers) (some i)]
    exact Function.update_self _ _ _
  · intro j hj
    have hne : some j ≠ some i := fun heq => hj (Option.some.inj heq)
    constructor
    · exact (Function.update_of_ne hne _ _).trans
        (congrFun (Pmm.refNum_eq hmembers) _)
    · exact (Function.update_of_ne hne _ _).trans
        (congrFun (Pmm.va_eq hmembers) _)

/-- The frame that becomes a page table is no longer free. -/
theorem Mappable.claim (hvm : Mappable vm free clock block) {vm₁ : Vm}
    {q : PagePtr} (halloc : vm.allocPages 1 = .ok (q, vm₁))
    (hmissing : vm.tableOf v = 0) (htables : TablesDistinct (vm₁.claimTable q v)) :
    ∃ i free', q = some i ∧ Claimed vm v i (vm₁.claimTable q v) ∧
      vm₁.pmm.startAddr q = vm.pmm.startAddr (some i) ∧
      Mappable (vm₁.claimTable q v) free' clock block ∧
      (frames 17 free').card < (frames 17 free).card := by
  obtain ⟨t, rfl, hmembers⟩ := allocPages_cases halloc
  obtain ⟨free', new, hlisted, hhead, hne, _, hframes, _⟩ :=
    hvm.listed.alloc halloc
  obtain ⟨i, rest, rfl⟩ := List.exists_cons_of_ne_nil hne
  obtain rfl : q = some i := hhead
  have hstart : (vm.setPmm t).pmm.startAddr = vm.pmm.startAddr :=
    Pmm.startAddr_eq hmembers
  obtain ⟨hnew, hsub⟩ := mem_of_frames_eq hframes
  obtain ⟨haligned, hnonzero⟩ := hvm.frame i (hnew i List.mem_cons_self)
  have hmissing₁ : (vm.setPmm t).tableOf v = 0 := hmissing
  have hfresh : FreshTable (vm.setPmm t) ((vm.setPmm t).pmm.startAddr (some i)) :=
    freshTable_of_distinct (by rwa [hstart]) (by rwa [hstart]) hmissing₁ htables
  rw [hstart] at hfresh
  replace hfresh : FreshTable vm (vm.pmm.startAddr (some i)) := hfresh.of_pgd rfl
  have hclaimed := claimed_claimTable hmembers hmissing hfresh
  have hfewer : (frames 17 free').card < (frames 17 free).card := by
    rw [hframes, Multiset.card_add, Multiset.coe_card, List.length_cons]
    omega
  refine ⟨i, free', rfl, hclaimed, congrFun hstart _,
    ⟨hlisted.claimTable (some i) v, htables, fun j hj => ?_⟩, hfewer⟩
  rw [hclaimed.startAddr]
  exact hvm.frame j (hsub j hj)

theorem Mappable.congr (hvm : Mappable vm free clock block)
    (hpgd : vm'.pgd = vm.pgd) (hlinks : vm'.pmm.links = vm.pmm.links)
    (hlist : vm'.pmm.pageBlkList = vm.pmm.pageBlkList)
    (hnum : vm'.pmm.blkNum = vm.pmm.blkNum)
    (hstart : vm'.pmm.startAddr = vm.pmm.startAddr)
    (hclock : vm'.clockPoint = vm.clockPoint) :
    Mappable vm' free clock block := by
  refine ⟨hvm.listed.congr hlinks hlist hnum hstart hclock,
    (KeepsTables.of_pgd hpgd.symm).distinct hvm.tables, ?_⟩
  rw [hstart]
  exact hvm.frame

theorem Mappable.drop (hvm : Mappable vm free clock block) :
    Mappable vm free clock [] := by
  have hlisted := hvm.listed
  refine ⟨⟨hlisted.represents, hlisted.clock, apart_nil _ _, by simp, ?_⟩,
    hvm.tables, hvm.frame⟩
  intro a ha
  exact hlisted.found a (.inl (by simpa using ha))

theorem Mappable.entered (hvm : Mappable vm free clock block) (pg : PagePtr)
    (entry v table : Uint) :
    Mappable (vm.entered pg entry v table) free clock block :=
  hvm.congr rfl rfl rfl rfl rfl rfl

theorem entered_entryOf (htables : TablesDistinct vm) (htable : vm.tableOf v ≠ 0)
    (pg : PagePtr) (entry a : Uint) :
    (vm.entered pg entry v (vm.tableOf v)).entryOf a =
      if SamePage a v then entry else vm.entryOf a := by
  rw [Vm.entered, entryOf_setPmm, entryOf_store htables htable]

theorem entered_tableOf (vm : Vm) (pg : PagePtr) (entry v table a : Uint) :
    (vm.entered pg entry v table).tableOf a = vm.tableOf a := by
  have hpgd : (vm.entered pg entry v table).pgd = vm.pgd := rfl
  rw [tableOf, tableOf, hpgd]

/-- `map` with a page table in place. -/
theorem mapped_entered (htables : TablesDistinct vm) (htable : vm.tableOf v ≠ 0)
    {pg : PagePtr} {flags p : Uint} (hpg : pg = some (findPageIndex vm.pmm p)) :
    Mapped vm flags p v pg
      (vm.entered pg (p &&& PAGE_MASK ||| flags) v (vm.tableOf v)) := by
  refine ⟨hpg, rfl, ?_, ?_⟩
  · exact entered_entryOf htables htable pg _
  · intro j hj
    exact .inl (entered_untouched pg _ _ _ hj)

theorem Claimed.mapped {vm₁ : Vm} {i : ℕ} (hclaimed : Claimed vm v i vm₁)
    {flags p : Uint} {pg : PagePtr} (hmapped : Mapped vm₁ flags p v pg vm')
    (htable : vm'.tableOf v = vm₁.tableOf v) : Mapped vm flags p v pg vm' := by
  refine ⟨?_, hmapped.startAddr.trans hclaimed.startAddr, ?_, ?_⟩
  · rw [hmapped.page, findPageIndex_congr hclaimed.startAddr]
  · intro a
    rw [hmapped.entry, hclaimed.entry]
  · intro j hj
    by_cases hji : j = i
    · subst hji
      refine .inr ⟨v, ?_, ?_⟩
      · rw [htable]
        exact hclaimed.ne_zero
      · rw [htable, hclaimed.tableOf]
    · obtain ⟨href, hva⟩ := hclaimed.counts j hji
      rcases hmapped.untouched j hj with ⟨href', hva'⟩ | ⟨a, ha, heq⟩
      · exact .inl ⟨href'.trans href, hva'.trans hva⟩
      · refine .inr ⟨a, ha, ?_⟩
        rw [heq, hclaimed.startAddr]

/-- `map` writes one entry and counts one page, and may make a page table. -/
theorem Mappable.map (hvm : Mappable vm free clock block) {flags p : Uint}
    {pg : PagePtr} (hrun : vm.map flags p v = .ok (pg, vm'))
    (htables : TablesDistinct vm') :
    Mapped vm flags p v pg vm' ∧ ∃ free', Mappable vm' free' clock block := by
  obtain ⟨hpg, hcase⟩ := map_cases hrun
  rcases hcase with ⟨htable, rfl⟩ | ⟨hmissing, q, vm₁, halloc, rfl⟩
  · exact ⟨mapped_entered hvm.tables htable hpg, free, hvm.entered _ _ _ _⟩
  · have hclaim : TablesDistinct (vm₁.claimTable q v) :=
      (entered_keeps _ _ _ _ _).distinct htables
    obtain ⟨i, free', rfl, hclaimed, hstart, hvm₂, _⟩ :=
      hvm.claim halloc hmissing hclaim
    rw [hstart, ← hclaimed.tableOf]
    generalize vm₁.claimTable (some i) v = vm₂ at *
    rw [← findPageIndex_congr hclaimed.startAddr] at hpg
    have hmapped : Mapped vm₂ flags p v pg (vm₂.entered pg
        (p &&& PAGE_MASK ||| flags) v (vm₂.tableOf v)) :=
      mapped_entered hvm₂.tables hclaimed.ne_zero hpg
    exact ⟨hclaimed.mapped hmapped (entered_tableOf _ _ _ _ _ _), free',
      hvm₂.entered _ _ _ _⟩

/-- `map` returns if `alloc_pages` does where it is called. -/
theorem map_returns (halloc : vm.tableOf v = 0 →
      ∃ q vm', vm.allocPages 1 = .ok (q, vm')) (flags p : Uint) :
    ∃ pg vm', vm.map flags p v = .ok (pg, vm') := by
  unfold Vm.map
  by_cases hmissing : vm.tableOf v = 0
  · obtain ⟨q, vm₁, hrun⟩ := halloc hmissing
    obtain ⟨pmm, hnew⟩ := newTable_eq (v := v) hrun
    rw [if_pos hmissing, hnew]
    exact ⟨_, _, rfl⟩
  · rw [if_neg hmissing]
    exact ⟨_, _, rfl⟩

/-- A block taken from the table is in hand. -/
theorem Mappable.alloc (hvm : Mappable vm free clock []) {n : Uint}
    {q : PagePtr} (hrun : vm.allocPages n = .ok (q, vm')) :
    ∃ free' block, q = block.head? ∧ Mappable vm' free' clock block ∧
      (∀ i ∈ block, Aligned (vm'.pmm.startAddr (some i))) ∧
      2 ^ Pmm.requestOrder (Pmm.requestPages (n <<< 2)) ≤ block.length ∧
      frames 17 free = (block : Multiset ℕ) + frames 17 free' := by
  obtain ⟨t, rfl, hmembers⟩ := allocPages_cases hrun
  obtain ⟨free', block, _, rfl, _, hlength, hframes, hlisted⟩ := hvm.listed.alloc hrun
  have hstart : t.startAddr = vm.pmm.startAddr := Pmm.startAddr_eq hmembers
  obtain ⟨hblock, hsub⟩ := mem_of_frames_eq hframes
  refine ⟨free', block, rfl, ⟨hlisted rfl, hvm.tables, ?_⟩, ?_, hlength, hframes⟩
  · intro i hi
    change Aligned (t.startAddr (some i)) ∧ t.startAddr (some i) ≠ 0
    rw [hstart]
    exact hvm.frame i (hsub i hi)
  · intro i hi
    change Aligned (t.startAddr (some i))
    rw [hstart]
    exact (hvm.frame i (hblock i hi)).1

end Vm

namespace Slab

open Vm BuddySession

variable {h h' : Heap Vm} {free : Table ℕ} {clock block : List ℕ}
  {pgList pgList' : PagePtr} {n i : ℕ} {a : Uint}

/-- The first address of the `i`-th page from `a` on. -/
def pageAt (a : Uint) (i : ℕ) : Uint := a + BitVec.ofNat 32 i * PGSIZE

theorem pageAt_zero (a : Uint) : pageAt a 0 = a := by
  unfold pageAt
  bv_omega

theorem pageAt_succ (a : Uint) (i : ℕ) :
    pageAt (a + PGSIZE) i = pageAt a (i + 1) := next_addr a i

theorem toNat_pageAt (a : Uint) (i : ℕ) :
    (pageAt a i).toNat = (a.toNat + 4096 * i) % 4294967296 := by
  unfold pageAt
  rw [BitVec.toNat_add, BitVec.toNat_mul, BitVec.toNat_ofNat]
  change (a.toNat + i % 4294967296 * 4096 % 4294967296) % 4294967296 = _
  omega

theorem pageAt_add (a : Uint) (k i : ℕ) :
    pageAt (pageAt a k) i = pageAt a (k + i) := by
  rw [← BitVec.toNat_inj, toNat_pageAt, toNat_pageAt, toNat_pageAt]
  omega

theorem pageAt_next (a : Uint) (i : ℕ) :
    pageAt a i + PGSIZE = pageAt a (i + 1) := by
  rw [← BitVec.toNat_inj, BitVec.toNat_add, toNat_pageAt, toNat_pageAt]
  change (_ + 4096) % 4294967296 = _
  omega

/-- The address space has room for all pages of a block. -/
theorem not_samePage_pageAt {j : ℕ} (hi : i < 1048576) (hj : j < 1048576)
    (hij : i ≠ j) : ¬ SamePage (pageAt a i) (pageAt a j) := by
  intro hsame
  have hnat := congrArg BitVec.toNat hsame
  rw [toNat_and_pageMask, toNat_and_pageMask, toNat_pageAt, toNat_pageAt]
    at hnat
  omega

/-- `apply_slab` has mapped the pages of `block` and has kept the block for
`free_buddy`; `vm` is what `alloc_pages` left. -/
structure MapsBlock (h : Heap Vm) (n : ℕ) (vm : Vm) (block : List ℕ)
    (r : Uint × Heap Vm) : Prop where
  maps : ∀ i < n, ∃ b, block[i]? = some b ∧
    r.2.pages.getmapping (pageAt h.heapTop i) =
      some (vm.pmm.startAddr (some b))
  untouched : ∀ j ∉ block, Untouched vm r.2.pages j
  heapTop : r.2.heapTop = pageAt h.heapTop n
  pgList : (r.2.slabs h.heapTop).pgList = block.head?
  whole : r.2.pages.pmm.pagesFrom (r.2.slabs h.heapTop).pgList = .ok block

/-! ## The loop -/

theorem mapPages_succ {r : PagePtr × Heap Vm}
    (hrun : mapPages vmPages (n + 1) i pgList h = .ok r) :
    ∃ pg vm, h.pages.map (PTE_P ||| PTE_W)
        (pageAt (h.pages.pmm.startAddr pgList) i) h.heapTop = .ok (pg, vm) ∧
      mapPages vmPages n (i + 1) pg
        { h with pages := vm, heapTop := h.heapTop + PGSIZE } = .ok r := by
  obtain ⟨⟨pg, vm⟩, hmap, hrest⟩ := bind_ok_iff.mp hrun
  exact ⟨pg, vm, hmap, hrest⟩

theorem mapPages_keeps (hrun : mapPages vmPages n i pgList h = .ok (pgList', h')) :
    KeepsTables h.pages h'.pages := by
  induction n generalizing i pgList h with
  | zero =>
      cases hrun
      exact .of_pgd rfl
  | succ n ih =>
      obtain ⟨pg, vm, hmap, hrest⟩ := mapPages_succ hrun
      exact (map_keeps hmap).trans (ih hrest)

/-- The loop writes the entries of the pages from `heap_top` on only. -/
theorem mapPages_entryOf (hvm : Mappable h.pages free clock block)
    (hrun : mapPages vmPages n i pgList h = .ok (pgList', h'))
    (htables : TablesDistinct h'.pages)
    (hoff : ∀ j < n, ¬ SamePage a (pageAt h.heapTop j)) :
    h'.pages.entryOf a = h.pages.entryOf a := by
  induction n generalizing i pgList h free with
  | zero =>
      cases hrun
      rfl
  | succ n ih =>
      obtain ⟨pg, vm, hmap, hrest⟩ := mapPages_succ hrun
      obtain ⟨hmapped, free', hvm'⟩ :=
        hvm.map hmap ((mapPages_keeps hrest).distinct htables)
      have hfirst := hoff 0 (Nat.succ_pos n)
      rw [pageAt_zero] at hfirst
      rw [ih hvm' hrest, hmapped.entry, if_neg hfirst]
      intro j hj
      rw [pageAt_succ]
      exact hoff (j + 1) (Nat.succ_lt_succ hj)

theorem found_block {s : Uint} {vm : Vm} (hvm : Mappable vm free clock block)
    (hcontig : ContigFrom vm.pmm s block) (hi : i < block.length) :
    some (findPageIndex vm.pmm (pageAt s i)) = block[i]? := by
  have haddr : vm.pmm.startAddr (some block[i]) = pageAt s i :=
    hcontig.getElem hi
  rw [← haddr, hvm.listed.found _ (.inr (List.getElem_mem hi)),
    List.getElem?_eq_getElem hi]

/-- The turn `i` adds `i` pages to where `pg_list` has come to, and `pg_list`
goes there too. -/
theorem mapPages_turn {s : Uint} {k : ℕ} {r : PagePtr × Heap Vm}
    (hvm : Mappable h.pages free clock block)
    (hcontig : ContigFrom h.pages.pmm s block) (hk : k < block.length)
    (hrun : mapPages vmPages (n + 1) i block[k]? h = .ok r)
    (htables : TablesDistinct r.2.pages) :
    ∃ pg vm free', mapPages vmPages n (i + 1) pg
        { h with pages := vm, heapTop := h.heapTop + PGSIZE } = .ok r ∧
      Mappable vm free' clock block ∧ ContigFrom vm.pmm s block ∧
      Mapped h.pages (PTE_P ||| PTE_W) (pageAt s (k + i)) h.heapTop pg vm ∧
      (k + i < block.length → pg = block[k + i]?) := by
  have haddr : h.pages.pmm.startAddr block[k]? = pageAt s k := by
    rw [List.getElem?_eq_getElem hk]
    exact hcontig.getElem hk
  obtain ⟨pg, vm, hmap, hrest⟩ := mapPages_succ hrun
  rw [haddr, pageAt_add] at hmap
  obtain ⟨hmapped, free', hvm'⟩ :=
    hvm.map hmap ((mapPages_keeps hrest).distinct htables)
  refine ⟨pg, vm, free', hrest, hvm', hcontig.congr hmapped.startAddr, hmapped,
    fun hlt => ?_⟩
  rw [hmapped.page]
  exact found_block hvm hcontig hlt

/-! ## The calls -/

section Apply

variable {vm : Vm} {q : PagePtr} {objPerSlab : Uint} {r : Uint × Heap Vm}

theorem applySlab_parts
    (halloc : h.pages.allocPages (BitVec.ofNat 32 n) = .ok (q, vm))
    (hrun : applySlab vmPages h n objPerSlab = .ok r) :
    ∃ pg h₁, mapPages vmPages n 0 q { h with pages := vm } = .ok (pg, h₁) ∧
      r.2.pages = h₁.pages ∧ r.2.heapTop = pageAt h.heapTop n ∧
      (r.2.slabs h.heapTop).pgList = pg := by
  obtain ⟨⟨q', vm'⟩, halloc', hrest⟩ := bind_ok_iff.mp hrun
  obtain ⟨rfl, rfl⟩ := Prod.mk.inj (Except.ok.inj (halloc.symm.trans halloc'))
  obtain ⟨⟨pg, h₁⟩, hmap, hret⟩ := bind_ok_iff.mp hrest
  cases hret
  obtain ⟨pages, rfl⟩ := mapPages_cases hmap
  refine ⟨pg, _, hmap, rfl, rfl, ?_⟩
  exact congrArg SlabT.pgList (Function.update_self (β := fun _ => SlabT) _ _ _)

theorem applySlab_keeps (hrun : applySlab vmPages h n objPerSlab = .ok r) :
    KeepsTables h.pages r.2.pages := by
  obtain ⟨⟨q, vm⟩, halloc, _⟩ := bind_ok_iff.mp hrun
  obtain ⟨t, rfl, _⟩ := allocPages_cases halloc
  obtain ⟨pg, h₁, hloop, hpages, _, _⟩ := applySlab_parts halloc hrun
  have hmapped : KeepsTables (h.pages.setPmm t) h₁.pages :=
    mapPages_keeps (h := { h with pages := h.pages.setPmm t }) hloop
  rw [hpages]
  exact (KeepsTables.of_pgd rfl).trans hmapped

theorem applySlab_returns (objPerSlab : Uint) {pg : PagePtr} {h₁ : Heap Vm}
    (halloc : h.pages.allocPages (BitVec.ofNat 32 n) = .ok (q, vm))
    (hmap : mapPages vmPages n 0 q { h with pages := vm } = .ok (pg, h₁)) :
    ∃ r, applySlab vmPages h n objPerSlab = .ok r := by
  unfold applySlab
  change ∃ r, (h.pages.allocPages (BitVec.ofNat 32 n)).bind _ = .ok r
  rw [halloc]
  change ∃ r, (mapPages vmPages n 0 q { h with pages := vm }).bind _ = .ok r
  rw [hmap]
  exact ⟨_, rfl⟩

/-- With two pages `pg_list` has moved on, and with three or more the third
page is mapped to the fourth frame. -/
theorem MapsBlock.eq_one {s : Uint} (hvm : Mappable vm free clock block)
    (hcontig : ContigFrom vm.pmm s block)
    (haligned : ∀ i ∈ block, Aligned (vm.pmm.startAddr (some i)))
    (hpos : 0 < n) (hlen : n ≤ block.length) (hmax : n < 1048576)
    (halloc : h.pages.allocPages (BitVec.ofNat 32 n) = .ok (block.head?, vm))
    (hrun : applySlab vmPages h n objPerSlab = .ok r)
    (htables : TablesDistinct r.2.pages)
    (hmaps : MapsBlock h n vm block r) : n = 1 := by
  by_contra hne
  obtain ⟨m, rfl⟩ : ∃ m, n = m + 2 := ⟨n - 2, by omega⟩
  obtain ⟨pg, h₁, hloop, hpages, _, hpg⟩ := applySlab_parts halloc hrun
  have htables₁ : TablesDistinct h₁.pages := hpages ▸ htables
  rw [List.head?_eq_getElem?] at hloop
  obtain ⟨pg₀, vm₀, free₀, hloop₀, hvm₀, hcontig₀, _, hpg₀⟩ :=
    mapPages_turn hvm hcontig (by omega) hloop htables₁
  obtain rfl := hpg₀ (by omega)
  obtain ⟨pg₁, vm₁, free₁, hloop₁, hvm₁, hcontig₁, hmapped₁, hpg₁⟩ :=
    mapPages_turn hvm₀ hcontig₀ (by omega) hloop₀ htables₁
  obtain rfl := hpg₁ (by omega)
  cases m with
  | zero =>
      obtain ⟨rfl, rfl⟩ := Prod.mk.inj (Except.ok.inj hloop₁)
      have hsame := hpg.symm.trans hmaps.pgList
      rw [List.head?_eq_getElem?] at hsame
      have hnodup := hvm.listed.block.nodup
      exact absurd ((List.getElem?_inj (by omega) hnodup).mp hsame) (by decide)
  | succ m =>
      obtain ⟨pg₂, vm₂, free₂, hloop₂, hvm₂, _, hmapped₂, _⟩ :=
        mapPages_turn hvm₁ hcontig₁ (by omega) hloop₁ htables₁
      have hoff : ∀ j < m, ¬ SamePage (pageAt h.heapTop 2)
          (pageAt (h.heapTop + PGSIZE + PGSIZE + PGSIZE) j) := by
        intro j hj
        rw [pageAt_succ, pageAt_succ, pageAt_succ]
        exact not_samePage_pageAt (by omega) (by omega) (by omega)
      have htop : h.heapTop + PGSIZE + PGSIZE = pageAt h.heapTop 2 := by
        rw [← pageAt_succ, ← pageAt_succ, pageAt_zero]
      have hentry : r.2.pages.entryOf (pageAt h.heapTop 2) =
          pageAt s 3 &&& PAGE_MASK ||| (PTE_P ||| PTE_W) := by
        rw [hpages, mapPages_entryOf hvm₂ hloop₂ htables₁ hoff,
          hmapped₂.entry]
        exact if_pos (congrArg (· &&& PAGE_MASK) htop.symm)
      obtain ⟨b, hb, hget⟩ := hmaps.maps 2 (by omega)
      obtain ⟨hlt, rfl⟩ := List.getElem?_eq_some_iff.mp hb
      have hb' := (haligned _ (List.getElem_mem hlt)).and_pageMask
      have hmask := aligned_and_pageMask (pageAt s 3)
      rw [hcontig.getElem hlt] at hget hb'
      rw [getmapping_eq, hentry,
        if_neg (hmask.entry_ne_zero (by decide) (by decide)),
        hmask.entry_frame (by decide)] at hget
      have hsame : SamePage (pageAt s 3) (pageAt s 2) :=
        (Option.some.inj hget).trans hb'.symm
      exact not_samePage_pageAt (by decide) (by decide) (by decide) hsame

/-- A slab of one page is mapped to the first page of the block. -/
theorem MapsBlock.one {s : Uint} (hvm : Mappable vm free clock block)
    (hcontig : ContigFrom vm.pmm s block)
    (haligned : ∀ i ∈ block, Aligned (vm.pmm.startAddr (some i)))
    (hlen : 1 ≤ block.length)
    (halloc : h.pages.allocPages (BitVec.ofNat 32 1) = .ok (block.head?, vm))
    (htable : vm.tableOf h.heapTop = 0 →
      ∃ q vm', vm.allocPages 1 = .ok (q, vm'))
    (htables : ∀ r, applySlab vmPages h 1 objPerSlab = .ok r →
      TablesDistinct r.2.pages) :
    ∃ r, applySlab vmPages h 1 objPerSlab = .ok r ∧
      MapsBlock h 1 vm block r := by
  have haddr : vm.pmm.startAddr block.head? = pageAt s 0 := by
    rw [List.head?_eq_getElem?, List.getElem?_eq_getElem hlen]
    exact hcontig.getElem hlen
  obtain ⟨pg, vm', hmap⟩ := map_returns htable (PTE_P ||| PTE_W) (pageAt s 0)
  have hloop : mapPages vmPages 1 0 block.head? { h with pages := vm } =
      .ok (pg, { h with pages := vm', heapTop := h.heapTop + PGSIZE }) := by
    unfold mapPages
    change (vm.map (PTE_P ||| PTE_W)
      (pageAt (vm.pmm.startAddr block.head?) 0) h.heapTop).bind _ = _
    rw [haddr, pageAt_zero, hmap]
    rfl
  obtain ⟨r, hrun⟩ := applySlab_returns objPerSlab halloc hloop
  refine ⟨r, hrun, ?_⟩
  obtain ⟨pg', h₁, hloop', hpages, htop, hpglist⟩ :=
    applySlab_parts halloc hrun
  obtain ⟨rfl, rfl⟩ := Prod.mk.inj (Except.ok.inj (hloop.symm.trans hloop'))
  change r.2.pages = vm' at hpages
  obtain ⟨hmapped, free', hvm'⟩ := hvm.map hmap (hpages ▸ htables r hrun)
  have hpg : pg = block.head? := by
    rw [hmapped.page, found_block hvm hcontig hlen, List.head?_eq_getElem?]
  have hmask := aligned_and_pageMask (pageAt s 0)
  have hentry : vm'.entryOf h.heapTop =
      pageAt s 0 &&& PAGE_MASK ||| (PTE_P ||| PTE_W) :=
    (hmapped.entry h.heapTop).trans (if_pos rfl)
  refine ⟨?_, ?_, htop, hpglist.trans hpg, ?_⟩
  · intro i hi
    obtain rfl := Nat.lt_one_iff.mp hi
    refine ⟨block[0], List.getElem?_eq_getElem hlen, ?_⟩
    have hfirst := hcontig.getElem hlen
    have hb := (haligned _ (List.getElem_mem hlen)).and_pageMask
    rw [hfirst] at hb
    rw [hpages, pageAt_zero, getmapping_eq, hentry,
      if_neg (hmask.entry_ne_zero (by decide) (by decide)),
      hmask.entry_frame (by decide), hfirst]
    exact congrArg some hb
  · intro j hj
    rw [hpages]
    refine hmapped.untouched j fun heq => hj ?_
    rw [hpg] at heq
    exact List.mem_of_mem_head? heq.symm
  · rw [hpages, hpglist, hpg]
    exact hvm'.listed.block.pagesFrom_eq

end Apply

/-- Given a contiguous block of enough pages, `apply_slab` maps it page by page
and keeps its head just for slabs of one page.  The page tables that it has made
were none before: no two are the same afterwards. -/
theorem apply_slab_maps_iff {vm : Vm} {q : PagePtr} {objPerSlab : Uint}
    (hvm : Mappable h.pages free clock []) (hpos : 0 < n)
    (halloc : h.pages.allocPages (BitVec.ofNat 32 n) = .ok (q, vm))
    (hblock : vm.pmm.pagesFrom q = .ok block) (hlen : n ≤ block.length)
    (hcontig : Contiguous vm.pmm block)
    (htable : vm.tableOf h.heapTop = 0 →
      ∃ q' vm', vm.allocPages 1 = .ok (q', vm'))
    (htables : ∀ r, applySlab vmPages h n objPerSlab = .ok r →
      TablesDistinct r.2.pages) :
    (∃ r, applySlab vmPages h n objPerSlab = .ok r ∧
        MapsBlock h n vm block r) ↔ n = 1 := by
  obtain ⟨free', new, rfl, hvm₁, haligned, _⟩ := hvm.alloc halloc
  have hnew := hvm₁.listed.block.pagesFrom_eq
  obtain rfl : new = block := Except.ok.inj (hnew.symm.trans hblock)
  obtain ⟨s, hs⟩ := hcontig
  have hroom : new.length ≤ MAX_PG_NUM :=
    Pmm.length_le_of_bound hvm₁.listed.block.nodup hvm₁.listed.block.bound
  have hmax : n < 1048576 :=
    (hlen.trans hroom).trans_lt (by decide)
  constructor
  · rintro ⟨r, hrun, hmaps⟩
    exact hmaps.eq_one hvm₁ hs haligned hpos hlen hmax halloc hrun
      (htables r hrun)
  · rintro rfl
    exact MapsBlock.one hvm₁ hs haligned hlen halloc htable htables

theorem bare_mappable {p : Pmm}
    (hinit : Pmm.initBuddy (frameMap 6) (.boot zeroPage) = .ok p) :
    ∃ free, Mappable (bare p) free [] [] ∧ (frames 17 free).card = 6 := by
  obtain ⟨free, hinitial, hcount, hfree⟩ := Swap.sixFrames_initial hinit
  have hcard : (frames 17 free).card = 6 := by
    rw [hfree]
    rfl
  refine ⟨free, ⟨Swap.listed_of_session (inv_of_initial hinitial)
    (Swap.sixFrames_distinct hinit) rfl, bare_tablesDistinct p, ?_⟩, hcard⟩
  intro i hi
  rw [hfree, Multiset.mem_coe, List.mem_range] at hi
  have hframe := hinitial.recorded.frame i (by omega)
  exact ⟨hframe.aligned, (frameAddr_ne hframe).1⟩

/-- There is no page table but that of the heap's first pages. -/
def OneTable (vm : Vm) : Prop :=
  ∀ k ∈ List.range 1024, k ≠ 896 → vm.pgd (BitVec.ofNat 32 k) = 0

instance (vm : Vm) : Decidable (OneTable vm) :=
  List.decidableBAll ..

theorem OneTable.tablesDistinct {vm : Vm} (hvm : OneTable vm) :
    TablesDistinct vm := by
  have honly : ∀ a, vm.tableOf a ≠ 0 → (pgdIdx a).toNat = 896 := by
    intro a ha
    by_contra hidx
    have hbound := a.isLt
    have hlt : (pgdIdx a).toNat < 1024 := by
      rw [toNat_pgdIdx]
      omega
    have hentry := hvm _ (List.mem_range.mpr hlt) hidx
    rw [BitVec.ofNat_toNat, BitVec.setWidth_eq] at hentry
    refine ha ?_
    rw [tableOf, hentry]
    exact BitVec.zero_and
  intro a b hne hsame
  exact BitVec.toNat_inj.mp ((honly a hne).trans (honly b (by rwa [← hsame])).symm)

/-- The block of `n` pages, and whether it is contiguous, a page table can be
allocated behind it and `apply_slab` makes no more than that one. -/
def blockAtBoot (n : ℕ) (s : State) : Option (List ℕ × Bool × Bool × Bool) := do
  let (q, vm) ← ((bare s.pmm).allocPages (BitVec.ofNat 32 n)).toOption
  let block ← (vm.pmm.pagesFrom q).toOption
  let (_, h) ← (applySlab vmPages (bootHeap (bare s.pmm)) n 100).toOption
  return (block, decide (ContigFrom vm.pmm (vm.pmm.startAddr q) block),
    (vm.allocPages 1).toOption.isSome, decide (OneTable h.pages))

theorem blockAtBoot_spec {n : ℕ} (hlook : trace next 6 [] (blockAtBoot n) =
      some (block, true, true, true)) :
    ∃ p free q vm, Mappable (bootHeap (bare p)).pages free [] [] ∧
      (bootHeap (bare p)).pages.allocPages (BitVec.ofNat 32 n) = .ok (q, vm) ∧
      vm.pmm.pagesFrom q = .ok block ∧ Contiguous vm.pmm block ∧
      (∃ q' vm', vm.allocPages 1 = .ok (q', vm')) ∧
      ∀ r, applySlab vmPages (bootHeap (bare p)) n 100 = .ok r →
        TablesDistinct r.2.pages := by
  obtain ⟨p, s, hinit, hrun, hlook⟩ := run_of_trace hlook
    fun _ _ _ => step_of_next
  obtain rfl := Transition.run_nil hrun
  obtain ⟨free, hvm, _⟩ := bare_mappable hinit
  obtain ⟨⟨q, vm⟩, halloc, hrest⟩ := Option.bind_eq_some_iff.mp hlook
  obtain ⟨block', hblock, hrest⟩ := Option.bind_eq_some_iff.mp hrest
  obtain ⟨⟨a, h⟩, happly, hret⟩ := Option.bind_eq_some_iff.mp hrest
  obtain ⟨rfl, hflags⟩ := Prod.mk.inj (Option.some.inj hret)
  obtain ⟨hcontig, hflags⟩ := Prod.mk.inj hflags
  obtain ⟨hnext, hone⟩ := Prod.mk.inj hflags
  obtain ⟨⟨q', vm'⟩, hnext⟩ := Option.isSome_iff_exists.mp hnext
  refine ⟨p, free, q, vm, hvm, eq_ok_of_toOption halloc,
    eq_ok_of_toOption hblock, ⟨_, of_decide_eq_true hcontig⟩,
    ⟨q', vm', eq_ok_of_toOption hnext⟩, fun r hr => ?_⟩
  obtain rfl := Except.ok.inj ((eq_ok_of_toOption happly).symm.trans hr)
  exact (of_decide_eq_true hone).tablesDistinct

/-- A slab of one page, on the last of six frames. -/
theorem one_page_slab_maps : ∃ p q vm r,
    (bare p).allocPages 1 = .ok (q, vm) ∧
      applySlab vmPages (bootHeap (bare p)) 1 100 = .ok r ∧
      MapsBlock (bootHeap (bare p)) 1 vm [5] r := by
  have hlook : trace next 6 [] (blockAtBoot 1) = some ([5], true, true, true) := by
    decide +kernel
  obtain ⟨p, free, q, vm, hvm, halloc, hblock, hcontig, hnext, htables⟩ :=
    blockAtBoot_spec hlook
  have hserved : ∃ r, applySlab vmPages (bootHeap (bare p)) 1 100 = .ok r ∧
      MapsBlock (bootHeap (bare p)) 1 vm [5] r :=
    (apply_slab_maps_iff hvm (by decide) halloc hblock (by decide) hcontig
      (fun _ => hnext) htables).mpr rfl
  obtain ⟨r, hrun, hmaps⟩ := hserved
  exact ⟨p, q, vm, r, halloc, hrun, hmaps⟩

/-- With two pages `pg_list` is left at the second one. -/
theorem two_page_slab_moves : ¬ ∀ (h : Heap Vm) (free : Table ℕ)
    (clock block : List ℕ) (n : ℕ) (vm : Vm) (q : PagePtr) (objPerSlab : Uint),
    Mappable h.pages free clock [] → (∃ k, n = 2 ^ k) →
    h.pages.allocPages (BitVec.ofNat 32 n) = .ok (q, vm) →
    vm.pmm.pagesFrom q = .ok block → n ≤ block.length →
    Contiguous vm.pmm block →
    (vm.tableOf h.heapTop = 0 → ∃ q' vm', vm.allocPages 1 = .ok (q', vm')) →
    (∀ r, applySlab vmPages h n objPerSlab = .ok r →
      TablesDistinct r.2.pages) →
    ∃ r, applySlab vmPages h n objPerSlab = .ok r ∧
      MapsBlock h n vm block r := by
  intro hall
  have hlook : trace next 6 [] (blockAtBoot 2) =
      some ([4, 5], true, true, true) := by
    decide +kernel
  obtain ⟨p, free, q, vm, hvm, halloc, hblock, hcontig, hnext, htables⟩ :=
    blockAtBoot_spec hlook
  obtain ⟨r, hrun, hmaps⟩ := hall (bootHeap (bare p)) free [] [4, 5] 2 vm q 100
    hvm ⟨1, rfl⟩ halloc hblock (by decide) hcontig (fun _ => hnext) htables
  obtain ⟨free', new, rfl, hvm₁, haligned, _⟩ := hvm.alloc halloc
  have hnew := hvm₁.listed.block.pagesFrom_eq
  obtain rfl : new = [4, 5] := Except.ok.inj (hnew.symm.trans hblock)
  obtain ⟨s, hs⟩ := hcontig
  have hone : 2 = 1 := hmaps.eq_one hvm₁ hs haligned (by decide) (by decide)
    (by decide) halloc hrun (htables r hrun)
  exact absurd hone (by decide)

end Slab

end OS32
