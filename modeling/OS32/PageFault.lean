import OS32.BuddyAllocSize
import OS32.RefCount
import OS32.RegionLookup

/-!
# What a page fault leaves behind

`do_pgfault` reads the entry of the address through `getpte`, which tests its
pointer for NULL after `PAGE_OFFSET` has been added, and it gives `PTE_P` to
writable regions only.
-/

namespace OS32

open BuddyTable Intervals Swap

namespace Vm

variable {vm vm' : Vm} {free : Table ℕ} {clock l : List ℕ} {va : Uint} {a : ℕ}

/-- What a page fault relies on: the lists of the allocator are sound and not
empty, frames are aligned, and `getpte` finds every page table. -/
structure Ready (vm : Vm) (free : Table ℕ) (clock : List ℕ) : Prop where
  listed : Listed vm free clock []
  supply : frames 17 free ≠ 0
  aligned : ∀ i ∈ frames 17 free, Aligned (vm.pmm.startAddr (some i))
  tables : TablesDistinct vm
  reached : ∀ b, (vm.getpte b).2 = true

/-- The region may be written. -/
def Writable (mm : Mm) (a : ℕ) : Prop := (mm.vma (some a)).vmFlags &&& PTE_W ≠ 0

/-- The fault at `va` reads an existing page table and maps a frame that was
free, with the rights of the region `a`; other pages stay as they are. -/
structure FaultServed (vm : Vm) (free : Table ℕ) (a : ℕ) (va : Uint) :
    Prop where
  reads : ∃ b, vm.tableOf b ≠ 0 ∧ (vm.getpte va).1 = pteAddr (vm.tableOf b) b
  serves : ∃ vm', vm.doPgfault va = .ok vm' ∧
    vm'.entryOf va &&& PTE_P ≠ 0 ∧
    (vm'.entryOf va &&& PTE_W ≠ 0 ↔ Writable vm.mm a) ∧
    (∃ i ∈ frames 17 free,
      vm'.entryOf va &&& PAGE_MASK = vm.pmm.startAddr (some i) ∧
      ∃ free' clock', Listed vm' free' clock' [] ∧ i ∉ frames 17 free') ∧
    ∀ b, ¬ SamePage b va → vm'.entryOf b = vm.entryOf b

/-! ## The entry that is read -/

theorem table_of_reads (hreads : ∃ b, vm.tableOf b ≠ 0 ∧
    (vm.getpte va).1 = pteAddr (vm.tableOf b) b) (hflag : (vm.getpte va).2 = true) :
    vm.tableOf va ≠ 0 := by
  obtain ⟨b, hb, haddr⟩ := hreads
  rw [getpte_addr hflag] at haddr
  have hsame := (pteAddr_inj (vm.tableOf_aligned va) (vm.tableOf_aligned b)).mp
    haddr
  rw [hsame.1]
  exact hb

/-! ## The entry that is written -/

/-- The bits of an entry in which frames have zeros are those of its flags. -/
theorem entry_and {p flags bit : Uint} (hbit : PAGE_MASK &&& bit = 0#32) :
    (p &&& PAGE_MASK ||| flags) &&& bit = flags &&& bit := by
  rw [BitVec.and_or_distrib_right, BitVec.and_assoc, hbit, BitVec.and_zero,
    BitVec.zero_or]

theorem permOf_present (vma : Vma) :
    permOf vma &&& PTE_P ≠ 0 ↔ vma.vmFlags &&& PTE_W ≠ 0 := by
  unfold permOf
  split
  next hw => exact ⟨fun _ => hw, fun _ => by decide⟩
  next hw => exact ⟨fun h => absurd h (by decide), fun h => absurd h hw⟩

theorem permOf_writable (vma : Vma) :
    permOf vma &&& PTE_W ≠ 0 ↔ vma.vmFlags &&& PTE_W ≠ 0 := by
  unfold permOf
  split
  next hw => exact ⟨fun _ => hw, fun _ => by decide⟩
  next hw => exact ⟨fun h => absurd h (by decide), fun h => absurd h hw⟩

/-- With a page table for `va`, a fault that maps a frame writes one entry. -/
theorem mapped_entryOf (vm : Vm) {vm' vm₁ vm₂ : Vm} {pg q : PagePtr} {flags p : Uint}
    (htables : TablesDistinct vm) (htable : vm.tableOf va ≠ 0)
    (halloc : vm.allocPages 1 = .ok (pg, vm₁))
    (hmap : vm₁.map flags p va = .ok (q, vm₂))
    (hlist : vm₂.mapSwappable q = .ok vm') (b : Uint) :
    vm'.entryOf b =
      if SamePage b va then p &&& PAGE_MASK ||| flags else vm.entryOf b := by
  obtain ⟨t, rfl, _⟩ := allocPages_cases halloc
  have hkept : vm'.entryOf b = vm₂.entryOf b := by
    rcases mapSwappable_cases hlist with ⟨_, rfl⟩ | ⟨_, _, _, rfl⟩
    · exact entryOf_eq rfl rfl b
    · exact entryOf_setPmm _ _ b
  have htable' : (vm.setPmm t).tableOf va ≠ 0 := htable
  have htables' : TablesDistinct (vm.setPmm t) := htables
  rcases (map_cases hmap).2 with ⟨_, rfl⟩ | ⟨hmissing, _⟩
  · rw [hkept, entered, entryOf_setPmm, entryOf_store htables' htable',
      entryOf_setPmm]
  · exact absurd hmissing htable'

/-! ## The fault -/

theorem doPgfault_of_none {mm : Mm}
    (hfind : findVma vm.mm va = .ok (none, mm)) :
    vm.doPgfault va = .ok { vm with mm := mm } := by
  unfold doPgfault
  rw [hfind]
  rfl

/-- While frames are free, `alloc_pages(1)` returns one of them. -/
theorem Ready.alloc (hvm : vm.Ready free clock) :
    ∃ i new free' t, vm.allocPages 1 = .ok (some i, vm.setPmm t) ∧
      i ∈ frames 17 free ∧ i ∉ frames 17 free' ∧
      t.startAddr = vm.pmm.startAddr ∧
      Listed (vm.setPmm t) free' clock (i :: new) := by
  have hpages : Pmm.requestPages ((1 : Uint) <<< 2) = 1 := by decide
  have htable := hvm.listed.represents.allocBuddy hpages.symm.le
    (hpages.trans_le Nat.one_le_two_pow)
  rw [hpages, Nat.clog_one_right] at htable
  rcases htable with ⟨_, hempty⟩ | ⟨blk, free', t, hsome, hallocated⟩
  · refine absurd ?_ hvm.supply
    unfold frames
    refine Finset.sum_eq_zero ?_
    intro k hk
    rw [hempty k (Nat.zero_le k) (Finset.mem_range.mp hk)]
    rfl
  · have halloc : vm.allocPages 1 = .ok (blk.head?, vm.setPmm t) := by
      unfold allocPages
      rw [BuddySession.allocPages_ok_iff.mpr hsome]
      rfl
    obtain ⟨free₁, new, _, hhead, hne, _, hframes, hnew⟩ :=
      hvm.listed.alloc halloc
    have hlisted := hnew rfl
    obtain ⟨i, rest, rfl⟩ := List.exists_cons_of_ne_nil hne
    have hi : i ∈ frames 17 free :=
      (mem_of_frames_eq hframes).1 i List.mem_cons_self
    rw [hhead] at halloc
    exact ⟨i, rest, free₁, t, halloc, hi,
      hlisted.block.off i List.mem_cons_self, hallocated.same.startAddr,
      hlisted⟩

theorem mapSwappable_ok {blk : List ℕ} (hs : Listed vm free clock blk)
    (p : PagePtr) : ∃ vm', vm.mapSwappable p = .ok vm' := by
  unfold mapSwappable
  dsimp only
  by_cases hnone : vm.clockPoint = none
  · rw [if_pos hnone]
    exact ⟨_, rfl⟩
  · rw [if_neg hnone]
    obtain ⟨before, hclock⟩ := hs.clock.chain
    have hlast := Pmm.lastPage_eq
      (s := vm.pmm.setFlags p (vm.pmm.flags p &&& ~~~PAGE_A)) hclock
      (hclock.ne_nil hnone) hs.clock.bound
    rw [hlast]
    exact ⟨_, rfl⟩

/-- A fault in a region, at an entry that is zero. -/
theorem doPgfault_eq {mm : Mm} {r : ℕ} {p q : PagePtr} {vm₁ vm₂ : Vm}
    (hfind : findVma vm.mm va = .ok (some r, mm))
    (hstart : ¬ va < (mm.vma (some r)).vmStart) (hread : vm.readPte va = .ok 0)
    (halloc : Vm.allocPages { vm with mm := mm } 1 = .ok (p, vm₁))
    (hmap : vm₁.map (permOf (mm.vma (some r))) (vm₁.pmm.startAddr p) va =
      .ok (q, vm₂)) :
    vm.doPgfault va = vm₂.mapSwappable q := by
  have hin : ¬ (some r = none ∨ va < (mm.vma (some r)).vmStart) := by
    rintro (hnone | hlt)
    · cases hnone
    · exact hstart hlt
  have hread' : Vm.readPte { vm with mm := mm } va = .ok 0 := hread
  unfold doPgfault
  rw [hfind]
  change (if some r = none ∨ va < (mm.vma (some r)).vmStart then _ else _) = _
  rw [if_neg hin, hread']
  change (Vm.allocPages { vm with mm := mm } 1).bind _ = _
  rw [halloc]
  change (vm₁.map (permOf (mm.vma (some r))) (vm₁.pmm.startAddr p) va).bind _ =
    _
  rw [hmap]
  rfl

/-- With a page table for the address and a region that `FindVMA` finds, the
fault maps a frame. -/
theorem Ready.doPgfault (hvm : vm.Ready free clock) {mm : Mm} {r : ℕ}
    (hfind : findVma vm.mm va = .ok (some r, mm))
    (hstart : ¬ va < (mm.vma (some r)).vmStart) (htable : vm.tableOf va ≠ 0)
    (hunmapped : vm.entryOf va = 0) :
    ∃ vm' i free' clock', vm.doPgfault va = .ok vm' ∧ i ∈ frames 17 free ∧
      Listed vm' free' clock' [] ∧ i ∉ frames 17 free' ∧
      ∀ b, vm'.entryOf b = if SamePage b va then
        vm.pmm.startAddr (some i) &&& PAGE_MASK ||| permOf (mm.vma (some r))
        else vm.entryOf b := by
  have hmm : Ready { vm with mm := mm } free clock :=
    ⟨hvm.listed.congr rfl rfl rfl rfl rfl, hvm.supply, hvm.aligned, hvm.tables,
      hvm.reached⟩
  obtain ⟨i, new, free', t, halloc, hi, hoff, haddr, hlisted⟩ := hmm.alloc
  have hread := readPte_eq (hvm.reached va) htable
  rw [hunmapped] at hread
  generalize hfm : Vm.setPmm { vm with mm := mm } t = fm at halloc hlisted
  have htable' : fm.tableOf va ≠ 0 := hfm ▸ htable
  have hstart' : fm.pmm.startAddr = vm.pmm.startAddr := hfm ▸ haddr
  have hindex := hlisted.found i (.inr List.mem_cons_self)
  have hmap := RefCount.map_of_table (permOf (mm.vma (some r)))
    (fm.pmm.startAddr (some i)) htable'
  rw [hindex] at hmap
  have hlisted₂ := hlisted.entered (some i)
    (fm.pmm.startAddr (some i) &&& PAGE_MASK ||| permOf (mm.vma (some r))) va
    (fm.tableOf va)
  obtain ⟨vm', hlist⟩ := mapSwappable_ok hlisted₂ (some i)
  refine ⟨vm', i, free', clock ++ i :: new,
    (doPgfault_eq hfind hstart hread halloc hmap).trans hlist, hi,
    hlisted₂.mapSwappable (List.cons_ne_nil i new) hlist, hoff, ?_⟩
  intro b
  have hentry := mapped_entryOf _ hmm.tables htable halloc hmap hlist b
  rw [hstart'] at hentry
  exact hentry

/-- A fault whose entry becomes present has found a writable region. -/
theorem writable_of_present {mm : Mm} {r : Option ℕ}
    (htables : TablesDistinct vm) (hflag : (vm.getpte va).2 = true)
    (htable : vm.tableOf va ≠ 0) (hunmapped : vm.entryOf va = 0)
    (hfind : findVma vm.mm va = .ok (r, mm))
    (hrun : vm.doPgfault va = .ok vm') (hpresent : vm'.entryOf va &&& PTE_P ≠ 0) :
    ∃ b, r = some b ∧ Writable mm b ∧ vm'.entryOf va &&& PTE_W ≠ 0 := by
  have hkept : vm' ≠ { vm with mm := mm } := by
    rintro rfl
    have hzero : Vm.entryOf { vm with mm := mm } va = 0 :=
      (entryOf_eq rfl rfl va).trans hunmapped
    rw [hzero] at hpresent
    exact hpresent (by decide)
  obtain ⟨b, rfl⟩ : ∃ b, r = some b := by
    cases r with
    | none =>
        rw [doPgfault_of_none hfind] at hrun
        exact absurd (Except.ok.inj hrun).symm hkept
    | some b => exact ⟨b, rfl⟩
  obtain ⟨_, _, hfind', hcase⟩ := doPgfault_cases hrun
  rw [hfind] at hfind'
  obtain ⟨rfl, rfl⟩ := Prod.mk.inj (Except.ok.inj hfind')
  rcases hcase with hsame | ⟨_, pg, vm₁, p, vm₂, halloc, hmap, hlist⟩ |
    ⟨pte, _, _, hread, hne, _⟩
  · exact absurd hsame hkept
  · have hentry := mapped_entryOf { vm with mm := mm } htables htable
      halloc hmap hlist va
    have hself : SamePage va va := rfl
    rw [if_pos hself] at hentry
    rw [hentry, entry_and (by decide)] at hpresent
    rw [hentry, entry_and (by decide)]
    have hwritable := (permOf_present _).mp hpresent
    exact ⟨b, rfl, hwritable, (permOf_writable _).mpr hwritable⟩
  · rw [readPte_eq hflag htable, hunmapped] at hread
    exact absurd (Except.ok.inj hread).symm hne

/-- A fault at a page that was never mapped is served just when the page table
exists, the region is writable and `FindVMA` finds a writable region. -/
theorem fault_served_iff (hvm : vm.Ready free clock) (hregions : vm.mm.Regions l)
    (hcache : ∀ k, vm.mm.mmapCache = some k → k ∈ l) (ha : a ∈ l)
    (hcovers : Covers vm.mm.start vm.mm.stop va.toNat a)
    (hunmapped : vm.entryOf va = 0) :
    FaultServed vm free a va ↔
      vm.tableOf va ≠ 0 ∧ Writable vm.mm a ∧ ¬ vm.mm.NullAccepts va ∧
        ∀ b ∈ l, (vm.mm.vma (some b)).vmEnd = va → vm.mm.mmapCache ≠ some a →
          Writable vm.mm b := by
  obtain ⟨r, mm, hfind, hvma, hfinds⟩ :=
    hregions.findVma_finds hcache ha hcovers
  have hsame : ∀ b, Writable mm b ↔ Writable vm.mm b := fun b => by
    rw [Writable, hvma, Writable]
  have hflag := hvm.reached va
  constructor
  · rintro ⟨hreads, vm', hrun, hpresent, hwritable, _, _⟩
    have htable := table_of_reads hreads hflag
    obtain ⟨c, rfl, hc, hw⟩ := writable_of_present hvm.tables hflag htable
      hunmapped hfind hrun hpresent
    rw [hsame] at hc
    refine ⟨htable, hwritable.mp hw, ?_⟩
    cases hfinds with
    | region hnull hends =>
        exact ⟨hnull, fun b hb hend hne => absurd (hends b hb hend) hne⟩
    | before hnull hcl hend hne =>
        refine ⟨hnull, fun b hb hbend _ => ?_⟩
        rw [hregions.end_unique hb hcl hbend hend]
        exact hc
  · rintro ⟨htable, hawritable, hnull, hbefore⟩
    obtain ⟨c, rfl, hcwritable, hcstart⟩ : ∃ c, r = some c ∧
        Writable vm.mm c ∧ vm.mm.start c ≤ va.toNat := by
      cases hfinds with
      | null hyes => exact absurd hyes hnull
      | region => exact ⟨a, rfl, hawritable, hcovers.1⟩
      | @before b _ hb hend hne =>
          have hstop : vm.mm.stop b = va.toNat := congrArg BitVec.toNat hend
          have hproper := hregions.sorted.proper b hb
          exact ⟨b, rfl, hbefore b hb hend hne, by omega⟩
    have hstart : ¬ va < (mm.vma (some c)).vmStart := by
      rw [hvma, BitVec.not_lt]
      exact BitVec.le_def.mpr hcstart
    obtain ⟨vm', i, free', clock', hrun, hi, hlisted, hoff, hentry⟩ :=
      hvm.doPgfault hfind hstart htable hunmapped
    have hself : SamePage va va := rfl
    have hva := hentry va
    rw [if_pos hself] at hva
    have hperm := (hsame c).mpr hcwritable
    refine ⟨⟨va, htable, getpte_addr hflag⟩, vm', hrun, ?_, ?_,
      ⟨i, hi, ?_, free', clock', hlisted, hoff⟩, ?_⟩
    · rw [hva, entry_and (by decide)]
      exact (permOf_present _).mpr hperm
    · rw [hva, entry_and (by decide)]
      exact iff_of_true ((permOf_writable _).mpr hperm) hawritable
    · rw [hva, (hvm.aligned i hi).and_pageMask]
      exact (hvm.aligned i hi).entry_frame (permOf_small _)
    · intro b hb
      rw [hentry b, if_neg hb]

/-- A page table for the page directory entry of `0xE0000000`, and one region
there, which the last lookup has found. -/
def onePageTable (p : Pmm) (vmFlags : Uint) : Vm :=
  { bare p with
    pgd := fun k => if k = pgdIdx 0xE0000000 then 0x3000 ||| PTE_P ||| PTE_W
      else 0
    mm :=
      { vmaList := some 0
        mmapCache := some 0
        vma := fun i =>
          if i = some 0 then ⟨none, 0xE0000000, 0xE0100000, vmFlags⟩
          else ⟨none, 0, 0, 0⟩ } }

variable {p : Pmm} {vmFlags : Uint}

theorem onePageTable_tableOf (b : Uint) :
    (onePageTable p vmFlags).tableOf b =
      if pgdIdx b = pgdIdx 0xE0000000 then 0x3000 else 0 := by
  unfold onePageTable tableOf
  dsimp only
  split <;> decide

theorem onePageTable_regions : (onePageTable p vmFlags).mm.Regions [0] := by
  refine ⟨⟨rfl, rfl⟩, ?_, List.pairwise_singleton _ 0⟩
  intro a ha
  obtain rfl := List.mem_singleton.mp ha
  change 0xE0000000 < 0xE0100000
  decide

theorem onePageTable_ready :
    ∃ p free, ∀ vmFlags, (onePageTable p vmFlags).Ready free [] := by
  have hboot : ((Pmm.initBuddy (BuddySession.frameMap 6)
      (.boot BuddySession.zeroPage)).toOption).isSome = true := by
    decide +kernel
  obtain ⟨p, hp⟩ := Option.isSome_iff_exists.mp hboot
  have hinit := BuddySession.eq_ok_of_toOption hp
  obtain ⟨free, hinitial, hcount, hfree⟩ := sixFrames_initial hinit
  refine ⟨p, free, fun vmFlags => ⟨?_, ?_, ?_, ?_, ?_⟩⟩
  · exact listed_of_session (BuddySession.inv_of_initial hinitial)
      (sixFrames_distinct hinit) rfl
  · rw [hfree]
    decide
  · intro i hi
    rw [hfree, Multiset.mem_coe, List.mem_range] at hi
    exact (hinitial.recorded.frame i (by omega)).aligned
  · exact tablesDistinct_of_one onePageTable_tableOf
  · exact reached_of_one (by decide) onePageTable_tableOf

theorem onePageTable_unmapped (p : Pmm) (vmFlags : Uint) :
    (onePageTable p vmFlags).entryOf 0xE0008000 = 0 := by
  unfold entryOf
  split <;> rfl

/-- A fault in a writable region with a page table. -/
theorem writable_fault_served : ∃ p free,
    (onePageTable p PTE_W).Ready free [] ∧
      FaultServed (onePageTable p PTE_W) free 0 0xE0008000 := by
  obtain ⟨p, free, hready⟩ := onePageTable_ready
  refine ⟨p, free, hready PTE_W, (fault_served_iff (hready PTE_W)
    onePageTable_regions ?_ (List.mem_singleton.mpr rfl) ?_
    (onePageTable_unmapped p PTE_W)).mpr ⟨?_, ?_, ?_, ?_⟩⟩
  · intro k hk
    exact List.mem_singleton.mpr (Option.some.inj hk).symm
  · change 0xE0000000 ≤ 0xE0008000 ∧ 0xE0008000 < 0xE0100000
    decide
  · rw [onePageTable_tableOf]
    decide
  · change PTE_W &&& PTE_W ≠ 0
    decide
  · rintro ⟨hnone, _⟩
    cases hnone
  · intro b hb hend
    obtain rfl := List.mem_singleton.mp hb
    change (0xE0100000 : Uint) = 0xE0008000 at hend
    exact absurd hend (by decide)

/-- A fault in a read-only region leaves the page absent. -/
theorem read_only_fault_not_served :
    ¬ ∀ (vm : Vm) (free : Table ℕ) (clock l : List ℕ) (a : ℕ) (va : Uint),
      vm.Ready free clock → vm.mm.Regions l →
      (∀ k, vm.mm.mmapCache = some k → k ∈ l) → a ∈ l →
      Covers vm.mm.start vm.mm.stop va.toNat a → vm.entryOf va = 0 →
      FaultServed vm free a va := by
  intro hall
  obtain ⟨p, free, hready⟩ := onePageTable_ready
  have hcache : ∀ k, (onePageTable p PTE_U).mm.mmapCache = some k → k ∈ [0] :=
    fun k hk => List.mem_singleton.mpr (Option.some.inj hk).symm
  have hcovers : Covers (onePageTable p PTE_U).mm.start
      (onePageTable p PTE_U).mm.stop (0xE0008000 : Uint).toNat 0 := by
    change 0xE0000000 ≤ 0xE0008000 ∧ 0xE0008000 < 0xE0100000
    decide
  obtain ⟨_, vm', hrun, hpresent, hwritable, _⟩ := hall _ free [] [0] 0 0xE0008000
    (hready PTE_U) onePageTable_regions hcache (List.mem_singleton.mpr rfl)
    hcovers (onePageTable_unmapped p PTE_U)
  have htable : (onePageTable p PTE_U).tableOf 0xE0008000 ≠ 0 := by
    rw [onePageTable_tableOf]
    decide
  obtain ⟨r, mm, hfind, _⟩ := onePageTable_regions.findVma_finds hcache
    (List.mem_singleton.mpr rfl) hcovers
  obtain ⟨_, _, _, hw⟩ := writable_of_present (hready PTE_U).tables
    ((hready PTE_U).reached _) htable (onePageTable_unmapped p PTE_U) hfind hrun
    hpresent
  have hflags : PTE_U &&& PTE_W ≠ 0 := hwritable.mp hw
  exact absurd hflags (by decide)

end Vm

end OS32
