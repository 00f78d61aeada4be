import OS32.RefCount
import OS32.SlabPages

/-!
# The counts of the heap's pages

`map` counts a reference to the frame that it enters and `unmap` drops one.  So
the frame of a page of the heap has a reference as long as the page is mapped,
whatever else was mapped to the frame by mistake.
-/

namespace OS32

open BuddyTable

namespace Slab

open Vm

/-! ## Tallies -/

section Tally

variable {f : ℕ → ℕ} {S : Finset ℕ} {i j : ℕ}

/-- How many of the pages `S` have the frame `i`. -/
def tally (f : ℕ → ℕ) (S : Finset ℕ) (i : ℕ) : ℕ :=
  (S.filter fun j => f j = i).card

theorem tally_insert (hj : j ∉ S) (a i : ℕ) :
    tally (Function.update f j a) (insert j S) i =
      tally f S i + if a = i then 1 else 0 := by
  have hrest : S.filter (fun x => Function.update f j a x = i) =
      S.filter fun x => f x = i := by
    refine Finset.filter_congr fun x hx => ?_
    have hne : x ≠ j := fun heq => hj (heq ▸ hx)
    rw [Function.update_of_ne hne]
  unfold tally
  rw [Finset.filter_insert, Function.update_self, hrest]
  split
  · refine Finset.card_insert_of_notMem fun hmem => ?_
    exact hj (Finset.mem_filter.mp hmem).1
  · rfl

theorem tally_erase (hj : j ∈ S) (i : ℕ) :
    tally f (S.erase j) i + (if f j = i then 1 else 0) = tally f S i := by
  have hback := tally_insert (f := f) (Finset.notMem_erase j S) (f j) i
  rw [Function.update_eq_self, Finset.insert_erase hj] at hback
  exact hback.symm

theorem tally_pos (hj : j ∈ S) : 0 < tally f S (f j) :=
  Finset.card_pos.mpr ⟨j, Finset.mem_filter.mpr ⟨hj, rfl⟩⟩

theorem tally_le (hS : ∀ j ∈ S, j < 131072) (i : ℕ) : tally f S i ≤ 131072 := by
  have hsub : S ⊆ Finset.range 131072 := fun j hj =>
    Finset.mem_range.mpr (hS j hj)
  calc tally f S i ≤ S.card := Finset.card_filter_le S _
    _ ≤ (Finset.range 131072).card := Finset.card_le_card hsub
    _ = 131072 := Finset.card_range 131072

end Tally

/-! ## Mapped pages of the heap -/

/-- The pages `S` of the heap are mapped to the frames `f`.  Each frame has a
reference for each of its pages, and one more only if it has become a page table
and is no longer free. -/
structure Tallied (vm : Vm) (free : Table ℕ) (clock : List ℕ) (f : ℕ → ℕ)
    (S : Finset ℕ) : Prop where
  mappable : Mappable vm free clock []
  aligned : ∀ i, Aligned (vm.pmm.startAddr (some i))
  pages : ∀ j ∈ S, j < 131072
  entry : ∀ j ∈ S, vm.entryOf (pageAt HEAP_START j) ≠ 0 ∧
    findPageIndex vm.pmm (vm.entryOf (pageAt HEAP_START j) &&& PAGE_MASK) = f j
  lower : ∀ i, tally f S i ≤ (vm.pmm.refNum (some i)).toNat
  upper : ∀ i, (vm.pmm.refNum (some i)).toNat + (frames 17 free).card ≤
    MAX_PG_NUM + tally f S i

variable {vm vm' : Vm} {free : Table ℕ} {clock : List ℕ} {f : ℕ → ℕ}
  {S : Finset ℕ} {i j n : ℕ} {v p : Uint} {pg : PagePtr}

/-- No count wraps. -/
theorem Tallied.raise (hvm : Tallied vm free clock f S) (i : ℕ) :
    (vm.pmm.refNum (some i) + 1).toNat =
      (vm.pmm.refNum (some i)).toNat + 1 := by
  have hupper := hvm.upper i
  have hle := tally_le (f := f) hvm.pages i
  have hmax : MAX_PG_NUM = 131072 := rfl
  rw [BitVec.toNat_add]
  change (_ + 1) % 4294967296 = _
  omega

theorem Tallied.claim (hvm : Tallied vm free clock f S) {vm₁ : Vm}
    (halloc : vm.allocPages 1 = .ok (pg, vm₁)) (hmissing : vm.tableOf v = 0)
    (htables : TablesDistinct (vm₁.claimTable pg v)) :
    ∃ i free', Claimed vm v i (vm₁.claimTable pg v) ∧
      vm₁.pmm.startAddr pg = (vm₁.claimTable pg v).tableOf v ∧
      Tallied (vm₁.claimTable pg v) free' clock f S ∧
      (frames 17 free').card ≤ (frames 17 free).card := by
  obtain ⟨i, free', rfl, hclaimed, hstart, hmappable, hfewer⟩ :=
    hvm.mappable.claim halloc hmissing htables
  generalize hvm₂ : vm₁.claimTable (some i) v = vm₂ at *
  have hrefs : ∀ k, (vm₂.pmm.refNum (some k)).toNat =
      (vm.pmm.refNum (some k)).toNat + if i = k then 1 else 0 := by
    intro k
    by_cases hk : k = i
    · subst hk
      rw [hclaimed.raised, hvm.raise, if_pos rfl]
    · rw [(hclaimed.counts k hk).1, if_neg (Ne.symm hk), Nat.add_zero]
  refine ⟨i, free', hclaimed, hstart.trans hclaimed.tableOf.symm,
    ⟨hmappable, ?_, hvm.pages, ?_, ?_, ?_⟩, hfewer.le⟩
  · intro k
    rw [hclaimed.startAddr]
    exact hvm.aligned k
  · intro k hk
    rw [hclaimed.entry, findPageIndex_congr hclaimed.startAddr]
    exact hvm.entry k hk
  · intro k
    have hlower := hvm.lower k
    rw [hrefs]
    omega
  · intro k
    have hupper := hvm.upper k
    rw [hrefs]
    split <;> omega

/-- The next page of the heap is mapped. -/
theorem Tallied.entered (hvm : Tallied vm free clock f S) (hn : n ∉ S)
    (hroom : n < 131072) (hp : Aligned p)
    (htable : vm.tableOf (pageAt HEAP_START n) ≠ 0) :
    Tallied (vm.entered (some (findPageIndex vm.pmm p))
        (p &&& PAGE_MASK ||| (PTE_P ||| PTE_W)) (pageAt HEAP_START n)
        (vm.tableOf (pageAt HEAP_START n)))
      free clock (Function.update f n (findPageIndex vm.pmm p))
      (insert n S) := by
  have hentry := entered_entryOf hvm.mappable.tables htable
    (some (findPageIndex vm.pmm p)) (p &&& PAGE_MASK ||| (PTE_P ||| PTE_W))
  have hmappable := hvm.mappable.entered (some (findPageIndex vm.pmm p))
    (p &&& PAGE_MASK ||| (PTE_P ||| PTE_W)) (pageAt HEAP_START n)
    (vm.tableOf (pageAt HEAP_START n))
  have hstart : (vm.entered (some (findPageIndex vm.pmm p))
      (p &&& PAGE_MASK ||| (PTE_P ||| PTE_W)) (pageAt HEAP_START n)
      (vm.tableOf (pageAt HEAP_START n))).pmm.startAddr = vm.pmm.startAddr := rfl
  have hrefs : ∀ k, ((vm.entered (some (findPageIndex vm.pmm p))
      (p &&& PAGE_MASK ||| (PTE_P ||| PTE_W)) (pageAt HEAP_START n)
      (vm.tableOf (pageAt HEAP_START n))).pmm.refNum (some k)).toNat =
      (vm.pmm.refNum (some k)).toNat +
        if findPageIndex vm.pmm p = k then 1 else 0 := by
    intro k
    by_cases hk : findPageIndex vm.pmm p = k
    · subst hk
      rw [if_pos rfl, ← hvm.raise]
      exact congrArg BitVec.toNat (Function.update_self _ _ _)
    · have hne : some k ≠ some (findPageIndex vm.pmm p) := fun heq =>
        hk (Option.some.inj heq).symm
      rw [if_neg hk, (entered_untouched _ _ _ _ hne).1, Nat.add_zero]
  generalize vm.entered (some (findPageIndex vm.pmm p))
    (p &&& PAGE_MASK ||| (PTE_P ||| PTE_W)) (pageAt HEAP_START n)
    (vm.tableOf (pageAt HEAP_START n)) = vm₁ at *
  refine ⟨hmappable, ?_, ?_, ?_, ?_, ?_⟩
  · intro k
    rw [hstart]
    exact hvm.aligned k
  · intro k hk
    rcases Finset.mem_insert.mp hk with rfl | hk
    · exact hroom
    · exact hvm.pages k hk
  · intro k hk
    rw [findPageIndex_congr hstart, hentry]
    rcases Finset.mem_insert.mp hk with rfl | hk
    · have hself : SamePage (pageAt HEAP_START k) (pageAt HEAP_START k) := rfl
      rw [if_pos hself, hp.and_pageMask, hp.entry_frame (by decide),
        Function.update_self]
      exact ⟨hp.entry_ne_zero (by decide) (by decide), rfl⟩
    · have hne : k ≠ n := fun heq => hn (heq ▸ hk)
      have hklt := hvm.pages k hk
      rw [if_neg (not_samePage_pageAt (by omega) (by omega) hne),
        Function.update_of_ne hne]
      exact hvm.entry k hk
  · intro k
    have hlower := hvm.lower k
    rw [hrefs, tally_insert hn]
    omega
  · intro k
    have hupper := hvm.upper k
    rw [hrefs, tally_insert hn]
    omega

theorem Tallied.map (hvm : Tallied vm free clock f S) (hn : n ∉ S)
    (hroom : n < 131072) (hp : Aligned p)
    (hrun : vm.map (PTE_P ||| PTE_W) p (pageAt HEAP_START n) = .ok (pg, vm'))
    (htables : TablesDistinct vm') :
    ∃ free' i, pg = some i ∧
      Tallied vm' free' clock (Function.update f n i) (insert n S) ∧
      (frames 17 free').card ≤ (frames 17 free).card := by
  obtain ⟨rfl, hcase⟩ := map_cases hrun
  rcases hcase with ⟨htable, rfl⟩ | ⟨hmissing, q, vm₁, halloc, rfl⟩
  · exact ⟨free, _, rfl, hvm.entered hn hroom hp htable, le_rfl⟩
  · have hclaim : TablesDistinct (vm₁.claimTable q (pageAt HEAP_START n)) :=
      (entered_keeps _ _ _ _ _).distinct htables
    obtain ⟨i, free', hclaimed, hstart, hvm₂, hfewer⟩ :=
      hvm.claim halloc hmissing hclaim
    rw [hstart]
    generalize vm₁.claimTable q (pageAt HEAP_START n) = vm₂ at *
    have hentered := hvm₂.entered hn hroom hp hclaimed.ne_zero
    rw [findPageIndex_congr hclaimed.startAddr] at hentered
    exact ⟨free', _, rfl, hentered, hfewer⟩

/-- What `unmap` does to a page with a frame `i` that has a reference. -/
theorem unmap_drops (htable : vm.tableOf v ≠ 0)
    (hindex : findPageIndex vm.pmm (vm.entryOf v &&& PAGE_MASK) = i)
    (hpos : 0 < (vm.pmm.refNum (some i)).toNat)
    (hvm : Mappable vm free clock []) :
    Mappable (vm.unmap v) free clock [] ∧
      (vm.unmap v).pmm.startAddr = vm.pmm.startAddr ∧
      ∀ k, ((vm.unmap v).pmm.refNum (some k)).toNat + (if i = k then 1 else 0) =
        (vm.pmm.refNum (some k)).toNat := by
  have hcount : 0 < vm.pmm.refNum (some i) := hpos
  have hunmap : vm.unmap v = (vm.store (pteAddr (vm.tableOf v) v) 0).setPmm
      ((vm.pmm.setRefNum (some i) (vm.pmm.refNum (some i) - 1)).setVa
        (some i) 0) := by
    rw [RefCount.unmap_eq htable]
    dsimp only
    rw [hindex, dropRef, if_pos hcount]
  rw [hunmap]
  refine ⟨hvm.congr rfl rfl rfl rfl rfl rfl, rfl, fun k => ?_⟩
  change (Function.update vm.pmm.refNum (some i)
    (vm.pmm.refNum (some i) - 1) (some k)).toNat + _ = _
  by_cases hk : i = k
  · subst hk
    rw [Function.update_self, if_pos rfl]
    generalize vm.pmm.refNum (some i) = count at hpos
    bv_omega
  · have hne : some k ≠ some i := fun heq => hk (Option.some.inj heq).symm
    rw [Function.update_of_ne hne, if_neg hk, Nat.add_zero]

/-- A page of the heap is unmapped: its frame loses the reference. -/
theorem Tallied.unmap (hvm : Tallied vm free clock f S) (hj : j ∈ S) :
    Tallied (vm.unmap (pageAt HEAP_START j)) free clock f (S.erase j) := by
  obtain ⟨hmapped, hindex⟩ := hvm.entry j hj
  have htable : vm.tableOf (pageAt HEAP_START j) ≠ 0 := fun hzero =>
    hmapped (if_pos hzero)
  obtain ⟨hmappable, hstart, hrefs⟩ := unmap_drops htable hindex
    ((tally_pos hj).trans_le (hvm.lower (f j))) hvm.mappable
  refine ⟨hmappable, ?_, ?_, ?_, ?_, ?_⟩
  · intro k
    rw [hstart]
    exact hvm.aligned k
  · intro k hk
    exact hvm.pages k (Finset.mem_of_mem_erase hk)
  · intro k hk
    obtain ⟨hne, hkS⟩ := Finset.mem_erase.mp hk
    have hklt := hvm.pages k hkS
    have hjlt := hvm.pages j hj
    rw [findPageIndex_congr hstart, unmap_entryOf hvm.mappable.tables,
      if_neg (not_samePage_pageAt (by omega) (by omega) hne)]
    exact hvm.entry k hkS
  · intro k
    have hlower := hvm.lower k
    rw [← hrefs, ← tally_erase hj] at hlower
    omega
  · intro k
    have hupper := hvm.upper k
    rw [← hrefs, ← tally_erase hj] at hupper
    omega

/-- The frames of a block leave the table. -/
theorem Tallied.alloc (hvm : Tallied vm free clock f S) {k : Uint}
    (hrun : vm.allocPages k = .ok (pg, vm')) :
    ∃ free', pg ≠ none ∧ Tallied vm' free' clock f S ∧
      2 ^ Pmm.requestOrder (Pmm.requestPages (k <<< 2)) +
        (frames 17 free').card ≤ (frames 17 free).card := by
  obtain ⟨free', block, rfl, hmappable, _, hlength, hframes⟩ :=
    hvm.mappable.alloc hrun
  obtain ⟨t, rfl, hmembers⟩ := allocPages_cases hrun
  have hstart : (vm.setPmm t).pmm.startAddr = vm.pmm.startAddr :=
    Pmm.startAddr_eq hmembers
  have hrefs : (vm.setPmm t).pmm.refNum = vm.pmm.refNum :=
    Pmm.refNum_eq hmembers
  have hentry : ∀ a, (vm.setPmm t).entryOf a = vm.entryOf a :=
    entryOf_setPmm vm t
  have hcard := congrArg Multiset.card hframes
  rw [Multiset.card_add, Multiset.coe_card] at hcard
  have hne : block ≠ [] :=
    List.ne_nil_of_length_pos (Nat.one_le_two_pow.trans hlength)
  generalize vm.setPmm t = vm₁ at *
  refine ⟨free', ?_, ⟨hmappable.drop, ?_, hvm.pages, ?_, ?_, ?_⟩, by omega⟩
  · rwa [ne_eq, List.head?_eq_none_iff]
  · rw [hstart]
    exact hvm.aligned
  · intro j hj
    rw [hentry, findPageIndex_congr hstart]
    exact hvm.entry j hj
  · rw [hrefs]
    exact hvm.lower
  · intro i
    have hupper := hvm.upper i
    rw [hrefs]
    omega

/-! ## The loops -/

section Loops

variable {h h' : Heap Vm} {m : ℕ} {pgList pgList' : PagePtr}

/-- The loop of `apply_slab` maps the next pages of the heap, and `pg_list` ends
at the frame of the last one. -/
theorem Tallied.mapPages (hh : Tallied h.pages free clock f (Finset.range n))
    (htop : h.heapTop = pageAt HEAP_START n) (hroom : n + m ≤ 131072)
    (hlist : pgList ≠ none)
    (hrun : mapPages vmPages m i pgList h = .ok (pgList', h'))
    (htables : TablesDistinct h'.pages) :
    ∃ free' f', Tallied h'.pages free' clock f' (Finset.range (n + m)) ∧
      (∀ j < n, f' j = f j) ∧ (frames 17 free').card ≤ (frames 17 free).card ∧
      (0 < m → pgList' = some (f' (n + m - 1))) := by
  induction m generalizing n i pgList h free f with
  | zero =>
      cases hrun
      exact ⟨free, f, hh, fun _ _ => rfl, le_rfl, fun hpos => absurd hpos (by simp)⟩
  | succ m ih =>
      obtain ⟨a, rfl⟩ := Option.ne_none_iff_exists'.mp hlist
      obtain ⟨pg, vm, hmap, hrest⟩ := mapPages_succ hrun
      have haligned : Aligned (pageAt (h.pages.pmm.startAddr (some a)) i) := by
        have hstart := hh.aligned a
        unfold Aligned at hstart ⊢
        rw [toNat_pageAt]
        omega
      rw [htop] at hmap
      obtain ⟨free₁, b, rfl, hh₁, hfewer₁⟩ := hh.map Finset.notMem_range_self
        (by omega) haligned hmap ((mapPages_keeps hrest).distinct htables)
      rw [← Finset.range_add_one] at hh₁
      have htop₁ : h.heapTop + PGSIZE = pageAt HEAP_START (n + 1) := by
        rw [htop, pageAt_next]
      obtain ⟨free', f', hh', hsame, hfewer, hlast⟩ := ih
        (h := { h with pages := vm, heapTop := h.heapTop + PGSIZE }) hh₁ htop₁
        (by omega) (Option.some_ne_none b) hrest
      rw [show n + 1 + m = n + (m + 1) by omega] at hh' hlast
      refine ⟨free', f', hh', ?_, hfewer.trans hfewer₁, fun _ => ?_⟩
      · intro j hj
        rw [hsame j (by omega), Function.update_of_ne (by omega)]
      · cases m with
        | zero =>
            cases hrest
            rw [show n + (0 + 1) - 1 = n by omega, hsame n (by omega),
              Function.update_self]
        | succ m => exact hlast (Nat.succ_pos m)

/-- The loop of `_check_free_buddy`. -/
theorem Tallied.unmapPages (hvm : Tallied vm free clock f S)
    (hsub : ∀ j, n ≤ j → j < n + m → j ∈ S) :
    ∃ S', Tallied (unmapPages vmPages vm (pageAt HEAP_START n) m) free clock f
        S' ∧ ∀ j, j ∈ S' ↔ j ∈ S ∧ (j < n ∨ n + m ≤ j) := by
  induction m generalizing n vm S with
  | zero =>
      refine ⟨S, hvm, fun j => ?_⟩
      exact (and_iff_left (by omega)).symm
  | succ m ih =>
      have hfirst := hvm.unmap (hsub n (le_refl n) (by omega))
      obtain ⟨S', hS', hmem⟩ := ih (n := n + 1) hfirst (fun j hj hlt =>
        Finset.mem_erase.mpr ⟨by omega, hsub j (by omega) (by omega)⟩)
      refine ⟨S', ?_, fun j => ?_⟩
      · unfold Slab.unmapPages
        rw [pageAt_next]
        exact hS'
      · rw [hmem, Finset.mem_erase]
        constructor
        · rintro ⟨⟨hne, hj⟩, hcase⟩
          exact ⟨hj, by omega⟩
        · rintro ⟨hj, hcase⟩
          exact ⟨⟨by omega, hj⟩, by omega⟩

end Loops

end Slab

end OS32
