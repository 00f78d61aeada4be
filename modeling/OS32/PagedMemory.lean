import OS32.PageFault
import OS32.SlabPages
import OS32.SwapData

/-!
# Memory behind page faults

The pages of a region get their frames one by one, when a fault comes.  To the
code that runs there this makes no difference: as long as nothing is swapped
out, a load finds what was stored last at its address.
-/

namespace OS32

open Transition BuddyTable Swap

namespace PagedMemory

open Vm

/-- The page of `a` is in memory. -/
def Present (vm : Vm) (a : Uint) : Prop := vm.entryOf a &&& PTE_P ≠ 0

def pageFrame (vm : Vm) (a : Uint) : Uint := vm.entryOf a &&& PAGE_MASK

/-- Where the kernel finds the word that the CPU accesses at `a`. -/
def wordAddr (vm : Vm) (a : Uint) : Uint :=
  pageFrame vm a + PAGE_OFFSET + (a &&& 0xFFF)

inductive Act where
  /-- A page fault that `do_pgfault` handles. -/
  | fault (va : Uint)
  | alloc (n : Uint)
  /-- The kernel maps a page of its own. -/
  | map (flags p v : Uint)
  | unmap (v : Uint)
  | load (a w : Uint)
  | store (a w : Uint)

/-- `own` are the addresses of the code that runs behind the page faults. -/
inductive Step (own : Uint → Prop) (vm : Vm) : Act → Vm → Prop
  | fault {va : Uint} {vm' : Vm} (hown : own va) (hmissing : ¬ Present vm va)
      (hrun : vm.doPgfault va = .ok vm') : Step own vm (.fault va) vm'
  | alloc {n : Uint} {pg : PagePtr} {vm' : Vm}
      (hrun : vm.allocPages n = .ok (pg, vm')) : Step own vm (.alloc n) vm'
  | map {flags p v : Uint} {pg : PagePtr} {vm' : Vm} (hown : ¬ own v)
      (hrun : vm.map flags p v = .ok (pg, vm')) : Step own vm (.map flags p v) vm'
  | unmap (v : Uint) : Step own vm (.unmap v) (vm.unmap v)
  | load {a : Uint} (hown : own a) (hword : a.toNat % 4 = 0)
      (hpresent : Present vm a) :
      Step own vm (.load a (vm.mem (wordAddr vm a))) vm
  | store {a : Uint} (hown : own a) (hword : a.toNat % 4 = 0)
      (hpresent : Present vm a) (hwritable : vm.entryOf a &&& PTE_W ≠ 0)
      (w : Uint) :
      Step own vm (.store a w) (vm.store (wordAddr vm a) w)

/-- What a load at `a` depends on. -/
def touches (a : Uint) : Act → Bool
  | .store b _ => b = a
  | .unmap v => SamePage v a
  | _ => false

/-! ## Words in frames -/

variable {own : Uint → Prop} {vm vm' : Vm} {free free' : Table ℕ}
  {clock block : List ℕ} {a b : Uint}

/-- A word of a page is a word of one frame only. -/
theorem frameWord_inj {f g o p : Uint} (hf : Aligned f) (hg : Aligned g)
    (ho : o.toNat < 4096) (hp : p.toNat < 4096) :
    f + PAGE_OFFSET + o = g + PAGE_OFFSET + p ↔ f = g ∧ o = p := by
  unfold Aligned at hf hg
  constructor
  · intro heq
    have hsum : f + o = g + p := by
      unfold PAGE_OFFSET at heq
      bv_omega
    have hnat := congrArg BitVec.toNat hsum
    rw [BitVec.toNat_add, BitVec.toNat_add] at hnat
    have h1 := f.isLt
    have h2 := g.isLt
    rw [← BitVec.toNat_inj, ← BitVec.toNat_inj]
    omega
  · rintro ⟨rfl, rfl⟩
    rfl

theorem present_congr (hentry : vm'.entryOf a = vm.entryOf a) :
    Present vm' a ↔ Present vm a := by
  unfold Present
  rw [hentry]

theorem pageFrame_congr (hentry : vm'.entryOf a = vm.entryOf a) :
    pageFrame vm' a = pageFrame vm a := by
  unfold pageFrame
  rw [hentry]

theorem toNat_offset (a : Uint) : (a &&& 0xFFF).toNat = a.toNat % 4096 := by
  rw [BitVec.toNat_and]
  exact Nat.and_two_pow_sub_one_eq_mod a.toNat 12

theorem offset_lt (a : Uint) : (a &&& 0xFFF).toNat < 4096 := by
  rw [toNat_offset]
  omega

theorem pageFrame_aligned (vm : Vm) (a : Uint) : Aligned (pageFrame vm a) :=
  aligned_and_pageMask _

theorem pteOffset_lt (a : Uint) : (4 * pteIdx a).toNat < 4096 := by
  rw [toNat_pteOffset]
  omega

/-- The words of a page are not those of a page table in another frame. -/
theorem wordAddr_ne_pteAddr {table : Uint} (htable : Aligned table)
    (hne : table ≠ pageFrame vm a) (v : Uint) :
    wordAddr vm a ≠ pteAddr table v := by
  intro heq
  exact hne ((frameWord_inj (pageFrame_aligned vm a) htable (offset_lt a)
    (pteOffset_lt v)).mp heq).1.symm

/-- Clearing another frame leaves the words of a page alone. -/
theorem wordAddr_sub {table : Uint} (htable : Aligned table)
    (hne : table ≠ pageFrame vm a) :
    ¬ wordAddr vm a - (table + PAGE_OFFSET) < PGSIZE := by
  have haligned := pageFrame_aligned vm a
  have hoffset := offset_lt a
  unfold wordAddr
  generalize pageFrame vm a = f at *
  generalize a &&& 0xFFF = o at *
  unfold Aligned at haligned htable
  have hsub : f + PAGE_OFFSET + o - (table + PAGE_OFFSET) = f - table + o := by
    bv_omega
  rw [hsub, BitVec.lt_def, PGSIZE, BitVec.toNat_add, BitVec.toNat_sub]
  rw [ne_eq, ← BitVec.toNat_inj] at hne
  have h1 := f.isLt
  have h2 := table.isLt
  change ¬ _ < 4096
  omega

/-- Two addresses of own pages with the same word are the same. -/
theorem eq_of_samePage (hpage : SamePage a b)
    (hoffset : a &&& 0xFFF = b &&& 0xFFF) : a = b := by
  have hnat := congrArg BitVec.toNat hpage
  have hnat' := congrArg BitVec.toNat hoffset
  rw [toNat_and_pageMask, toNat_and_pageMask] at hnat
  rw [toNat_offset, toNat_offset] at hnat'
  rw [← BitVec.toNat_inj]
  omega

/-! ## What own pages rely on -/

/-- The frames of own pages hold no page table, are not free and belong to one
page each; `getpte` finds all page tables, those to come too. -/
structure Backed (own : Uint → Prop) (vm : Vm) (free : Table ℕ) : Prop where
  reached : ∀ b, vm.tableOf b + PAGE_OFFSET ≠ 0
  low : ∀ i ∈ frames 17 free, vm.pmm.startAddr (some i) + PAGE_OFFSET ≠ 0
  table : ∀ a, own a → Present vm a → ∀ b, vm.tableOf b ≠ pageFrame vm a
  free : ∀ a, own a → Present vm a → ∀ i ∈ frames 17 free,
    vm.pmm.startAddr (some i) ≠ pageFrame vm a
  apart : ∀ a b, own a → own b → Present vm a → Present vm b →
    pageFrame vm a = pageFrame vm b → SamePage a b

/-- The own pages that were in memory are there, with the same entries and the
same words. -/
structure Carries (own : Uint → Prop) (vm vm' : Vm) : Prop where
  entry : ∀ a, own a → Present vm a → vm'.entryOf a = vm.entryOf a
  word : ∀ a, own a → Present vm a →
    vm'.mem (wordAddr vm a) = vm.mem (wordAddr vm a)

theorem Carries.present (hkept : Carries own vm vm') (ha : own a)
    (hpresent : Present vm a) : Present vm' a :=
  (present_congr (hkept.entry a ha hpresent)).mpr hpresent

theorem Carries.wordAddr_eq (hkept : Carries own vm vm') (ha : own a)
    (hpresent : Present vm a) : wordAddr vm' a = wordAddr vm a := by
  unfold wordAddr
  rw [pageFrame_congr (hkept.entry a ha hpresent)]

theorem Carries.refl (own : Uint → Prop) (vm : Vm) : Carries own vm vm :=
  ⟨fun _ _ _ => rfl, fun _ _ _ => rfl⟩

theorem Carries.trans {vm₁ : Vm} (hfirst : Carries own vm vm₁)
    (hsecond : Carries own vm₁ vm') : Carries own vm vm' := by
  constructor
  · intro a ha hpresent
    rw [hsecond.entry a ha (hfirst.present ha hpresent),
      hfirst.entry a ha hpresent]
  · intro a ha hpresent
    have hword := hsecond.word a ha (hfirst.present ha hpresent)
    rw [hfirst.wordAddr_eq ha hpresent] at hword
    rw [hword, hfirst.word a ha hpresent]

theorem Carries.congr (own : Uint → Prop) (hpgd : vm'.pgd = vm.pgd)
    (hmem : vm'.mem = vm.mem) : Carries own vm vm' :=
  ⟨fun a _ _ => entryOf_eq hpgd hmem a, fun _ _ _ => by rw [hmem]⟩

/-- No own page has joined and no frame has become free. -/
theorem Backed.carried (hvm : Backed own vm free)
    (hentry : ∀ a, own a → Present vm a → vm'.entryOf a = vm.entryOf a)
    (hold : ∀ a, own a → Present vm' a → Present vm a)
    (hreached : ∀ b, vm'.tableOf b + PAGE_OFFSET ≠ 0)
    (htable : ∀ a, own a → Present vm a → ∀ b, vm'.tableOf b ≠ pageFrame vm a)
    (hstart : vm'.pmm.startAddr = vm.pmm.startAddr)
    (hfree : ∀ i ∈ frames 17 free', i ∈ frames 17 free) :
    Backed own vm' free' := by
  have hframe : ∀ a, own a → Present vm' a → pageFrame vm' a = pageFrame vm a :=
    fun a ha hpresent => pageFrame_congr (hentry a ha (hold a ha hpresent))
  refine ⟨hreached, fun i hi => ?_, fun a ha hpresent b => ?_,
    fun a ha hpresent i hi => ?_, fun a b ha hb hpa hpb heq => ?_⟩
  · rw [hstart]
    exact hvm.low i (hfree i hi)
  · rw [hframe a ha hpresent]
    exact htable a ha (hold a ha hpresent) b
  · rw [hframe a ha hpresent, hstart]
    exact hvm.free a ha (hold a ha hpresent) i (hfree i hi)
  · rw [hframe a ha hpa, hframe b hb hpb] at heq
    exact hvm.apart a b ha hb (hold a ha hpa) (hold b hb hpb) heq

theorem Backed.congr (hvm : Backed own vm free) (hpgd : vm'.pgd = vm.pgd)
    (hmem : vm'.mem = vm.mem) (hstart : vm'.pmm.startAddr = vm.pmm.startAddr)
    (hfree : ∀ i ∈ frames 17 free', i ∈ frames 17 free) :
    Backed own vm' free' := by
  have hentry := entryOf_eq hpgd hmem
  refine hvm.carried (fun a _ _ => hentry a)
    (fun a _ hpresent => (present_congr (hentry a)).mp hpresent)
    (fun b => ?_) (fun a ha hpresent b => ?_) hstart hfree
  · rw [tableOf, hpgd]
    exact hvm.reached b
  · rw [tableOf, hpgd]
    exact hvm.table a ha hpresent b

/-- Nothing is in two places: the lists of the allocator are sound, page tables
do not overlap, and a free frame is neither a page table nor another free frame. -/
structure Unshared (vm : Vm) (free : Table ℕ) (clock block : List ℕ) : Prop where
  listed : Listed vm free clock block
  tables : TablesDistinct vm
  fresh : ∀ i ∈ frames 17 free, FreshTable vm (vm.pmm.startAddr (some i))
  distinct : ∀ i ∈ frames 17 free, ∀ j ∈ frames 17 free,
    vm.pmm.startAddr (some i) = vm.pmm.startAddr (some j) → i = j

theorem Unshared.congr (hvm : Unshared vm free clock block)
    (hpgd : vm'.pgd = vm.pgd) (hlinks : vm'.pmm.links = vm.pmm.links)
    (hlist : vm'.pmm.pageBlkList = vm.pmm.pageBlkList)
    (hnum : vm'.pmm.blkNum = vm.pmm.blkNum)
    (hstart : vm'.pmm.startAddr = vm.pmm.startAddr)
    (hclock : vm'.clockPoint = vm.clockPoint) :
    Unshared vm' free clock block := by
  refine ⟨hvm.listed.congr hlinks hlist hnum hstart hclock,
    (KeepsTables.of_pgd hpgd.symm).distinct hvm.tables, fun i hi => ?_, ?_⟩
  · rw [hstart]
    exact (hvm.fresh i hi).of_pgd hpgd
  · rw [hstart]
    exact hvm.distinct

theorem Unshared.entered (hvm : Unshared vm free clock block) (pg : PagePtr)
    (entry v table : Uint) :
    Unshared (vm.entered pg entry v table) free clock block :=
  hvm.congr rfl rfl rfl rfl rfl rfl

/-! ## Frames in hand -/

/-- A frame that has been allocated and is not in use yet. -/
structure InHand (own : Uint → Prop) (vm : Vm) (free : Table ℕ) (i : ℕ) :
    Prop where
  fresh : FreshTable vm (vm.pmm.startAddr (some i))
  low : vm.pmm.startAddr (some i) + PAGE_OFFSET ≠ 0
  free : ∀ j ∈ frames 17 free,
    vm.pmm.startAddr (some j) ≠ vm.pmm.startAddr (some i)
  page : ∀ a, own a → Present vm a →
    vm.pmm.startAddr (some i) ≠ pageFrame vm a

theorem InHand.congr {i : ℕ} (hi : InHand own vm free i)
    (hpgd : vm'.pgd = vm.pgd) (hmem : vm'.mem = vm.mem)
    (hstart : vm'.pmm.startAddr = vm.pmm.startAddr)
    (hfree : ∀ j ∈ frames 17 free', j ∈ frames 17 free) :
    InHand own vm' free' i := by
  have hentry := entryOf_eq hpgd hmem
  refine ⟨?_, ?_, fun j hj => ?_, fun a ha hpresent => ?_⟩
  · rw [hstart]
    exact hi.fresh.of_pgd hpgd
  · rw [hstart]
    exact hi.low
  · rw [hstart]
    exact hi.free j (hfree j hj)
  · rw [hstart, pageFrame_congr (hentry a)]
    exact hi.page a ha ((present_congr (hentry a)).mp hpresent)

/-- `alloc_pages` takes a frame off the free lists. -/
theorem take (hvm : Unshared vm free clock block) (hown : Backed own vm free)
    {n : Uint} {q : PagePtr} (halloc : vm.allocPages n = .ok (q, vm')) :
    ∃ i rest free', q = some i ∧ Unshared vm' free' clock block ∧
      (block = [] → Unshared vm' free' clock (i :: rest)) ∧
      Backed own vm' free' ∧ InHand own vm' free' i ∧ Carries own vm vm' ∧
      vm'.pgd = vm.pgd ∧ vm'.mem = vm.mem ∧
      vm'.pmm.startAddr = vm.pmm.startAddr ∧ i ∈ frames 17 free ∧
      ∀ j ∈ frames 17 free', j ∈ frames 17 free := by
  obtain ⟨t, rfl, hmembers⟩ := allocPages_cases halloc
  obtain ⟨free', new, hlisted, hhead, hne, _, hframes, hnew⟩ :=
    hvm.listed.alloc halloc
  obtain ⟨i, rest, rfl⟩ := List.exists_cons_of_ne_nil hne
  have hstart : (vm.setPmm t).pmm.startAddr = vm.pmm.startAddr :=
    Pmm.startAddr_eq hmembers
  obtain ⟨hblock, hsub⟩ := mem_of_frames_eq hframes
  have hi : i ∈ frames 17 free := hblock i List.mem_cons_self
  have hgone : ∀ j ∈ frames 17 free',
      vm.pmm.startAddr (some j) ≠ vm.pmm.startAddr (some i) := by
    intro j hj hsame
    obtain rfl := hvm.distinct j (hsub j hj) i hi hsame
    have hnodup := hvm.listed.represents.nodup
    rw [hframes, Multiset.nodup_add] at hnodup
    exact Multiset.disjoint_left.mp hnodup.2.2
      (show j ∈ ((j :: rest : List ℕ) : Multiset ℕ) from List.mem_cons_self) hj
  have hfresh : ∀ j ∈ frames 17 free,
      FreshTable (vm.setPmm t) ((vm.setPmm t).pmm.startAddr (some j)) := by
    intro j hj
    rw [hstart]
    exact (hvm.fresh j hj).of_pgd rfl
  have hdistinct : ∀ j ∈ frames 17 free', ∀ k ∈ frames 17 free',
      (vm.setPmm t).pmm.startAddr (some j) =
        (vm.setPmm t).pmm.startAddr (some k) → j = k := by
    intro j hj k hk hsame
    rw [hstart] at hsame
    exact hvm.distinct j (hsub j hj) k (hsub k hk) hsame
  have hmap : ∀ blk, Listed (vm.setPmm t) free' clock blk →
      Unshared (vm.setPmm t) free' clock blk := fun blk hblk =>
    ⟨hblk, hvm.tables, fun j hj => hfresh j (hsub j hj), hdistinct⟩
  refine ⟨i, rest, free', hhead, hmap _ hlisted, fun hblock => hmap _ (hnew hblock),
    hown.congr rfl rfl hstart hsub, ⟨hfresh i hi, ?_, ?_, ?_⟩,
    .congr own rfl rfl, rfl, rfl, hstart, hi, hsub⟩
  · rw [hstart]
    exact hown.low i hi
  · intro j hj
    rw [hstart]
    exact hgone j hj
  · intro a ha hpresent
    rw [hstart]
    exact hown.free a ha hpresent i hi

theorem InHand.tableOf_claim {i : ℕ} (hi : InHand own vm free i) (v b : Uint) :
    (vm.claimTable (some i) v).tableOf b =
      if pgdIdx b = pgdIdx v then vm.pmm.startAddr (some i) else vm.tableOf b :=
  withTable_tableOf hi.fresh b

theorem InHand.entryOf_claim {i : ℕ} {v : Uint} (hi : InHand own vm free i)
    (hmissing : vm.tableOf v = 0) (b : Uint) :
    (vm.claimTable (some i) v).entryOf b = vm.entryOf b :=
  withTable_entryOf hmissing hi.fresh b

/-- A frame in hand becomes a page table. -/
theorem claim {i : ℕ} {v : Uint} (hvm : Unshared vm free clock block)
    (hown : Backed own vm free) (hi : InHand own vm free i)
    (hmissing : vm.tableOf v = 0) :
    Unshared (vm.claimTable (some i) v) free clock block ∧
      Backed own (vm.claimTable (some i) v) free ∧
      Carries own vm (vm.claimTable (some i) v) := by
  have htableOf := hi.tableOf_claim v
  have hentry := hi.entryOf_claim hmissing
  have hkept : Carries own vm (vm.claimTable (some i) v) := by
    refine ⟨fun a _ _ => hentry a, fun a ha hpresent => if_neg ?_⟩
    exact wordAddr_sub hi.fresh.aligned (hi.page a ha hpresent)
  refine ⟨⟨hvm.listed.claimTable (some i) v,
    withTable_tablesDistinct hvm.tables hi.fresh, fun j hj => ?_, hvm.distinct⟩,
    hown.carried hkept.entry
      (fun a _ hpresent => (present_congr (hentry a)).mp hpresent) (fun b => ?_)
      (fun a ha hpresent b => ?_) rfl (fun _ hj => hj), hkept⟩
  · have hold := hvm.fresh j hj
    refine ⟨hold.aligned, hold.ne_zero, fun b => ?_⟩
    rw [htableOf]
    split
    · exact (hi.free j hj).symm
    · exact hold.unused b
  · rw [htableOf]
    split
    · exact hi.low
    · exact hown.reached b
  · rw [htableOf]
    split
    · exact hi.page a ha hpresent
    · exact hown.table a ha hpresent b

/-- Another frame in hand stays in hand. -/
theorem InHand.claim {i j : ℕ} {v : Uint} (hi : InHand own vm free i)
    (hj : InHand own vm free j)
    (hne : vm.pmm.startAddr (some j) ≠ vm.pmm.startAddr (some i))
    (hmissing : vm.tableOf v = 0) :
    InHand own (vm.claimTable (some j) v) free i := by
  have htableOf := hj.tableOf_claim v
  have hentry := hj.entryOf_claim hmissing
  refine ⟨⟨hi.fresh.aligned, hi.fresh.ne_zero, fun b => ?_⟩, hi.low, hi.free,
    fun a ha hpresent => ?_⟩
  · rw [htableOf]
    split
    · exact hne
    · exact hi.fresh.unused b
  · rw [pageFrame_congr (hentry a)]
    exact hi.page a ha ((present_congr (hentry a)).mp hpresent)

/-! ## `map` -/

/-- Before it writes the entry, `map` has made sure of the page table. -/
structure Prepared (own : Uint → Prop) (vm : Vm) (free : Table ℕ) (v : Uint)
    (vm₁ : Vm) (free₁ : Table ℕ) : Prop where
  backed : Backed own vm₁ free₁
  carries : Carries own vm vm₁
  entry : ∀ b, vm₁.entryOf b = vm.entryOf b
  table : vm₁.tableOf v ≠ 0
  startAddr : vm₁.pmm.startAddr = vm.pmm.startAddr
  inHand : ∀ i, InHand own vm free i → InHand own vm₁ free₁ i

theorem map_prepared (hvm : Unshared vm free clock block)
    (hown : Backed own vm free) {flags p v : Uint} {pg : PagePtr}
    (hrun : vm.map flags p v = .ok (pg, vm')) :
    pg = some (findPageIndex vm.pmm p) ∧ ∃ vm₁ free₁,
      Unshared vm₁ free₁ clock block ∧ Prepared own vm free v vm₁ free₁ ∧
      vm' = vm₁.entered pg (p &&& PAGE_MASK ||| flags) v (vm₁.tableOf v) := by
  obtain ⟨hpg, hcase⟩ := map_cases hrun
  refine ⟨hpg, ?_⟩
  rcases hcase with ⟨htable, hentered⟩ | ⟨hmissing, q, vm₁, halloc, hentered⟩
  · exact ⟨vm, free, hvm, ⟨hown, .refl own vm, fun _ => rfl, htable, rfl,
      fun _ hi => hi⟩, hentered⟩
  · obtain ⟨j, rest, free₁, rfl, hvm₁, _, hown₁, hj, hkept, hpgd, hmem, hstart,
      hfree, hsub⟩ := take hvm hown halloc
    have hmissing₁ : vm₁.tableOf v = 0 := by
      rw [tableOf, hpgd]
      exact hmissing
    obtain ⟨hvm₂, hown₂, hkept₂⟩ := claim hvm₁ hown₁ hj hmissing₁
    have htable := (hj.tableOf_claim v v).trans (if_pos rfl)
    refine ⟨vm₁.claimTable (some j) v, free₁, hvm₂, ⟨hown₂, hkept.trans hkept₂,
      fun b => (hj.entryOf_claim hmissing₁ b).trans (entryOf_eq hpgd hmem b), ?_,
      hstart,
      fun i hi => ?_⟩, ?_⟩
    · rw [htable]
      exact hj.fresh.ne_zero
    · refine (hi.congr hpgd hmem hstart hsub).claim hj ?_ hmissing₁
      rw [hstart]
      exact hi.free j hfree
    · rw [hentered, htable]

theorem store_of_ne {x y : Uint} (hne : y ≠ x) (w : Uint) :
    (vm.store x w).mem y = vm.mem y := by
  simp [Vm.store, hne]

theorem entered_mem (vm : Vm) (pg : PagePtr) (entry v table : Uint) :
    (vm.entered pg entry v table).mem = (vm.store (pteAddr table v) entry).mem :=
  rfl

/-- The entry of a page that is not in memory is written. -/
theorem entered_carries (pg : PagePtr) (entry : Uint) {v : Uint}
    (htables : TablesDistinct vm) (htable : vm.tableOf v ≠ 0)
    (hown : Backed own vm free)
    (hother : ∀ a, own a → Present vm a → ¬ SamePage a v) :
    Carries own vm (vm.entered pg entry v (vm.tableOf v)) := by
  constructor
  · intro a ha hpresent
    rw [entered_entryOf htables htable, if_neg (hother a ha hpresent)]
  · intro a ha hpresent
    rw [entered_mem]
    exact store_of_ne (wordAddr_ne_pteAddr (vm.tableOf_aligned v)
      (hown.table a ha hpresent v) v) entry

/-- An own page gets the frame in hand. -/
theorem Backed.enter (hown : Backed own vm free) (pg : PagePtr)
    {entry v : Uint} {i : ℕ} (htables : TablesDistinct vm)
    (htable : vm.tableOf v ≠ 0) (hi : InHand own vm free i)
    (hentry : entry &&& PAGE_MASK = vm.pmm.startAddr (some i)) :
    Backed own (vm.entered pg entry v (vm.tableOf v)) free := by
  have hold : ∀ a, vm.entryOf a =
      (vm.entered pg entry v (vm.tableOf v)).entryOf a ∨
        pageFrame (vm.entered pg entry v (vm.tableOf v)) a =
          vm.pmm.startAddr (some i) ∧ SamePage a v := by
    intro a
    rw [pageFrame, entered_entryOf htables htable]
    by_cases hpage : SamePage a v
    · rw [if_pos hpage]
      exact .inr ⟨hentry, hpage⟩
    · rw [if_neg hpage]
      exact .inl rfl
  generalize hvm' : vm.entered pg entry v (vm.tableOf v) = vm' at hold
  have hsame : ∀ b, vm'.tableOf b = vm.tableOf b := fun b => by
    rw [← hvm']
    exact entered_tableOf _ _ _ _ _ _
  have hstart : vm'.pmm.startAddr = vm.pmm.startAddr := by
    rw [← hvm']
    rfl
  have hback : ∀ a, vm.entryOf a = vm'.entryOf a → Present vm' a →
      Present vm a ∧ pageFrame vm' a = pageFrame vm a :=
    fun a hsame hpresent =>
      ⟨(present_congr hsame).mpr hpresent, pageFrame_congr hsame.symm⟩
  refine ⟨fun b => ?_, ?_, fun a ha hpresent b => ?_,
    fun a ha hpresent j hj => ?_, fun a b ha hb hpa hpb heq => ?_⟩
  · rw [hsame]
    exact hown.reached b
  · rw [hstart]
    exact hown.low
  · rw [hsame]
    rcases hold a with hkept | ⟨hframe, _⟩
    · obtain ⟨hpresent', hframe⟩ := hback a hkept hpresent
      rw [hframe]
      exact hown.table a ha hpresent' b
    · rw [hframe]
      exact hi.fresh.unused b
  · rw [hstart]
    rcases hold a with hkept | ⟨hframe, _⟩
    · obtain ⟨hpresent', hframe⟩ := hback a hkept hpresent
      rw [hframe]
      exact hown.free a ha hpresent' j hj
    · rw [hframe]
      exact hi.free j hj
  · rcases hold a with hkeptA | ⟨hframeA, hpageA⟩ <;>
      rcases hold b with hkeptB | ⟨hframeB, hpageB⟩
    · obtain ⟨hpa', hframeA⟩ := hback a hkeptA hpa
      obtain ⟨hpb', hframeB⟩ := hback b hkeptB hpb
      rw [hframeA, hframeB] at heq
      exact hown.apart a b ha hb hpa' hpb' heq
    · obtain ⟨hpa', hframeA⟩ := hback a hkeptA hpa
      rw [hframeA, hframeB] at heq
      exact absurd heq.symm (hi.page a ha hpa')
    · obtain ⟨hpb', hframeB'⟩ := hback b hkeptB hpb
      rw [hframeA, hframeB'] at heq
      exact absurd heq (hi.page b hb hpb')
    · exact hpageA.trans hpageB.symm

/-! ## What one act keeps -/

theorem Unshared.mapSwappable (hvm : Unshared vm free clock block)
    (hne : block ≠ []) (hrun : vm.mapSwappable block.head? = .ok vm') :
    Unshared vm' free (clock ++ block) [] ∧ vm'.pgd = vm.pgd ∧
      vm'.mem = vm.mem ∧ vm'.pmm.startAddr = vm.pmm.startAddr := by
  have hlisted := hvm.listed.mapSwappable hne hrun
  have hsame : vm'.pgd = vm.pgd ∧ vm'.mem = vm.mem ∧
      vm'.pmm.startAddr = vm.pmm.startAddr := by
    rcases mapSwappable_cases hrun with ⟨_, rfl⟩ | ⟨_, _, _, rfl⟩
    · exact ⟨rfl, rfl, rfl⟩
    · exact ⟨rfl, rfl, rfl⟩
  obtain ⟨hpgd, hmem, hstart⟩ := hsame
  refine ⟨⟨hlisted, (KeepsTables.of_pgd hpgd.symm).distinct hvm.tables,
    fun i hi => ?_, ?_⟩, hpgd, hmem, hstart⟩
  · rw [hstart]
    exact (hvm.fresh i hi).of_pgd hpgd
  · rw [hstart]
    exact hvm.distinct

/-- `map` puts the frame in hand behind a page that is not in memory. -/
theorem mapped {i : ℕ} {rest : List ℕ} {flags v : Uint} {p : PagePtr}
    (hvm : Unshared vm free clock (i :: rest)) (hown : Backed own vm free)
    (hi : InHand own vm free i) (hflags : flags.toNat < 4096)
    (hmissing : ∀ a, own a → Present vm a → ¬ SamePage a v)
    (hmap : vm.map flags (vm.pmm.startAddr (some i)) v = .ok (p, vm')) :
    p = some i ∧ ∃ free', Unshared vm' free' clock (i :: rest) ∧
      Backed own vm' free' ∧ Carries own vm vm' := by
  obtain ⟨rfl, vm₂, free₂, hvm₂, hprepared, rfl⟩ := map_prepared hvm hown hmap
  have hhead := hvm.listed.found_head (List.cons_ne_nil i rest)
  rw [List.head?_cons] at hhead
  have hentry : (vm.pmm.startAddr (some i) &&& PAGE_MASK ||| flags) &&& PAGE_MASK =
      vm₂.pmm.startAddr (some i) := by
    rw [hi.fresh.aligned.and_pageMask, hi.fresh.aligned.entry_frame hflags,
      hprepared.startAddr]
  rw [hhead]
  refine ⟨rfl, free₂, hvm₂.entered _ _ _ _, hprepared.backed.enter (some i)
    hvm₂.tables hprepared.table (hprepared.inHand i hi) hentry,
    hprepared.carries.trans (entered_carries (some i) _ hvm₂.tables
      hprepared.table hprepared.backed fun a ha hpresent => ?_)⟩
  exact hmissing a ha ((present_congr (hprepared.entry a)).mp hpresent)

/-- The block of the frame joins the clock list. -/
theorem joined {i : ℕ} {rest : List ℕ} (hvm : Unshared vm free clock (i :: rest))
    (hown : Backed own vm free) (hlist : vm.mapSwappable (some i) = .ok vm') :
    ∃ free' clock', Unshared vm' free' clock' [] ∧ Backed own vm' free' ∧
      Carries own vm vm' := by
  obtain ⟨hvm', hpgd, hmem, hstart⟩ :=
    Unshared.mapSwappable hvm (List.cons_ne_nil i rest) hlist
  exact ⟨free, _, hvm', hown.congr hpgd hmem hstart fun _ hj => hj,
    .congr own hpgd hmem⟩

theorem fault_carries (hvm : Unshared vm free clock []) (hown : Backed own vm free)
    {va : Uint} (hmissing : ¬ Present vm va) (hrun : vm.doPgfault va = .ok vm') :
    ∃ free' clock', Unshared vm' free' clock' [] ∧ Backed own vm' free' ∧
      Carries own vm vm' := by
  obtain ⟨vma, mm, _, hcase⟩ := doPgfault_cases hrun
  have hmm : Unshared { vm with mm := mm } free clock [] :=
    hvm.congr rfl rfl rfl rfl rfl rfl
  have hownmm : Backed own { vm with mm := mm } free :=
    hown.congr rfl rfl rfl fun _ hj => hj
  have hkeptmm : Carries own vm { vm with mm := mm } := .congr own rfl rfl
  rcases hcase with rfl | ⟨_, pg, vm₁, p, vm₂, halloc, hmap, hlist⟩ |
    ⟨_, p, vm₁, _, _, hin, hlist⟩
  · exact ⟨free, clock, hmm, hownmm, hkeptmm⟩
  · obtain ⟨i, rest, free₁, rfl, _, hvm₁, hown₁, hi, hkept₁, hpgd, hmem, _⟩ :=
      take hmm hownmm halloc
    have hother : ∀ a, own a → Present vm₁ a → ¬ SamePage a va := by
      intro a _ hpresent hpage
      unfold Present at hpresent
      rw [entryOf_eq hpgd hmem, entryOf_congr hpage] at hpresent
      exact hmissing hpresent
    obtain ⟨rfl, free₂, hvm₂, hown₂, hkept₂⟩ :=
      mapped (hvm₁ rfl) hown₁ hi (permOf_small _) hother hmap
    obtain ⟨free', clock', hvm', hown', hkept'⟩ := joined hvm₂ hown₂ hlist
    exact ⟨free', clock', hvm', hown',
      hkeptmm.trans (hkept₁.trans (hkept₂.trans hkept'))⟩
  · obtain ⟨_, pg, vm₂, vm₃, vm₄, halloc, _, htable, hmap, rfl⟩ :=
      swapIn_cases hin
    obtain ⟨i, rest, free₁, rfl, _, hvm₂, hown₂, hi, hkept₂, hpgd, hmem, _⟩ :=
      take hmm hownmm halloc
    obtain ⟨_, rfl⟩ | ⟨hflag, _⟩ := ensureTable_cases htable
    · have hother : ∀ a, own a → Present vm₃ a → ¬ SamePage a (roundDown va) := by
        intro a _ hpresent hpage
        unfold Present at hpresent
        rw [entryOf_eq hpgd hmem, entryOf_congr (hpage.trans
          (SwapData.samePage_roundDown va))] at hpresent
        exact hmissing hpresent
      obtain ⟨rfl, free₃, hvm₃, hown₃, hkept₃⟩ :=
        mapped (hvm₂ rfl) hown₂ hi (permOf_small _) hother hmap
      have hio : ∀ io, Unshared (vm₄.addIo io) free₃ clock (i :: rest) :=
        fun _ => hvm₃.congr rfl rfl rfl rfl rfl rfl
      have hkeptio : ∀ io, Carries own vm₄ (vm₄.addIo io) :=
        fun _ => .congr own rfl rfl
      obtain ⟨free', clock', hvm', hown', hkept'⟩ := joined (hio _)
        (hown₃.congr rfl rfl rfl fun _ hj => hj) hlist
      exact ⟨free', clock', hvm', hown', hkeptmm.trans (hkept₂.trans
        (hkept₃.trans ((hkeptio _).trans hkept')))⟩
    · have hreached := (getpte_flag_iff _ _).mpr (hown₂.reached (roundDown va))
      rw [hflag] at hreached
      cases hreached

/-- The kernel maps a page elsewhere. -/
theorem map_carries (hsame : ∀ a b, SamePage a b → own a → own b)
    (hvm : Unshared vm free clock []) (hown : Backed own vm free)
    {flags p v : Uint} {pg : PagePtr} (hv : ¬ own v)
    (hrun : vm.map flags p v = .ok (pg, vm')) :
    ∃ free' clock', Unshared vm' free' clock' [] ∧ Backed own vm' free' ∧
      Carries own vm vm' := by
  obtain ⟨_, vm₁, free₁, hvm₁, hprepared, rfl⟩ := map_prepared hvm hown hrun
  have hother : ∀ a, own a → ¬ SamePage a v := fun a ha hpage =>
    hv (hsame a v hpage ha)
  have hentered := entered_carries pg (p &&& PAGE_MASK ||| flags) hvm₁.tables
    hprepared.table hprepared.backed fun a ha _ => hother a ha
  have htableOf := entered_tableOf vm₁ pg (p &&& PAGE_MASK ||| flags) v
    (vm₁.tableOf v)
  refine ⟨free₁, clock, hvm₁.entered _ _ _ _, hprepared.backed.carried
    hentered.entry (fun a ha hpresent => ?_) (fun b => ?_) (fun a ha hpresent b => ?_) rfl
      fun _ hj => hj, hprepared.carries.trans hentered⟩
  · refine (present_congr ?_).mp hpresent
    rw [entered_entryOf hvm₁.tables hprepared.table, if_neg (hother a ha)]
  · rw [htableOf]
    exact hprepared.backed.reached b
  · rw [htableOf]
    exact hprepared.backed.table a ha hpresent b

theorem Backed.mono {own' : Uint → Prop} (hown : Backed own vm free)
    (hsub : ∀ a, own' a → Present vm a → own a) : Backed own' vm free :=
  ⟨hown.reached, hown.low,
    fun a ha hpresent => hown.table a (hsub a ha hpresent) hpresent,
    fun a ha hpresent => hown.free a (hsub a ha hpresent) hpresent,
    fun a b ha hb hpa hpb => hown.apart a b (hsub a ha hpa) (hsub b hb hpb) hpa
      hpb⟩

/-- An entry has been cleared. -/
theorem cleared (hvm : Unshared vm free clock []) (hown : Backed own vm free)
    {v : Uint} (htable : vm.tableOf v ≠ 0) {t : Pmm}
    (hlinks : t.links = vm.pmm.links) (hlist : t.pageBlkList = vm.pmm.pageBlkList)
    (hnum : t.blkNum = vm.pmm.blkNum) (hstart : t.startAddr = vm.pmm.startAddr) :
    let vm' := (vm.store (pteAddr (vm.tableOf v) v) 0).setPmm t
    Unshared vm' free clock [] ∧ Backed own vm' free ∧
      Carries (fun a => own a ∧ ¬ SamePage v a) vm vm' := by
  intro vm'
  have hentry : ∀ a, vm'.entryOf a = if SamePage a v then 0 else vm.entryOf a :=
    fun a => (entryOf_setPmm _ t a).trans (entryOf_store hvm.tables htable 0 a)
  have hmem : vm'.mem = (vm.store (pteAddr (vm.tableOf v) v) 0).mem := rfl
  have hgone : ∀ a, Present vm' a → ¬ SamePage a v := by
    intro a hpresent hpage
    unfold Present at hpresent
    rw [hentry, if_pos hpage] at hpresent
    exact hpresent (BitVec.zero_and)
  have hrest : Backed (fun a => own a ∧ ¬ SamePage v a) vm free :=
    hown.mono fun a ha _ => ha.1
  have hkept : Carries (fun a => own a ∧ ¬ SamePage v a) vm vm' := by
    refine ⟨fun a ha _ => ?_, fun a ha hpresent => ?_⟩
    · rw [hentry, if_neg fun hpage => ha.2 hpage.symm]
    · rw [hmem]
      exact store_of_ne (wordAddr_ne_pteAddr (vm.tableOf_aligned v)
        (hown.table a ha.1 hpresent v) v) 0
  have hold : ∀ a, own a ∧ ¬ SamePage v a → Present vm' a → Present vm a := by
    intro a ha
    refine (present_congr ?_).mp
    rw [hentry, if_neg fun hpage => ha.2 hpage.symm]
  have hbacked := hrest.carried hkept.entry hold hown.reached (fun a ha hpresent =>
    hown.table a ha.1 hpresent) hstart fun _ hj => hj
  exact ⟨hvm.congr rfl hlinks hlist hnum hstart rfl,
    hbacked.mono fun a ha hpresent =>
      ⟨ha, fun hpage => hgone a hpresent hpage.symm⟩, hkept⟩

/-- `unmap` leaves the other pages alone. -/
theorem unmap_carries (hvm : Unshared vm free clock []) (hown : Backed own vm free)
    (v : Uint) :
    Unshared (vm.unmap v) free clock [] ∧ Backed own (vm.unmap v) free ∧
      Carries (fun a => own a ∧ ¬ SamePage v a) vm (vm.unmap v) := by
  by_cases htable : vm.tableOf v = 0
  · rw [Vm.unmap, if_pos htable]
    exact ⟨hvm, hown, .refl _ _⟩
  · rw [RefCount.unmap_eq htable]
    dsimp only
    obtain ⟨w, hdrop⟩ := dropRef_eq vm.pmm
      (findPageIndex vm.pmm (vm.entryOf v &&& PAGE_MASK))
    rw [hdrop]
    exact cleared hvm hown htable rfl rfl rfl rfl

/-- A store changes no entry, and no own word but its own. -/
theorem store_keeps (hvm : Unshared vm free clock []) (hown : Backed own vm free)
    (ha : own a) (hpresent : Present vm a) (w : Uint) :
    Unshared (vm.store (wordAddr vm a) w) free clock [] ∧
      Backed own (vm.store (wordAddr vm a) w) free ∧
      (∀ b, (vm.store (wordAddr vm a) w).entryOf b = vm.entryOf b) ∧
      ∀ b, own b → Present vm b → b ≠ a →
        (vm.store (wordAddr vm a) w).mem (wordAddr vm b) =
          vm.mem (wordAddr vm b) := by
  have hentry : ∀ b, (vm.store (wordAddr vm a) w).entryOf b = vm.entryOf b := by
    intro b
    have hsame : (vm.store (wordAddr vm a) w).tableOf b = vm.tableOf b := rfl
    unfold entryOf
    rw [hsame]
    split
    · rfl
    · exact store_of_ne (wordAddr_ne_pteAddr (vm.tableOf_aligned b)
        (hown.table a ha hpresent b) b).symm w
  have hword : ∀ b, own b → Present vm b → b ≠ a →
      (vm.store (wordAddr vm a) w).mem (wordAddr vm b) =
        vm.mem (wordAddr vm b) := by
    intro b hb hpb hne
    refine store_of_ne (fun heq => hne ?_) w
    obtain ⟨hframe, hoffset⟩ := (frameWord_inj (pageFrame_aligned vm b)
      (pageFrame_aligned vm a) (offset_lt b) (offset_lt a)).mp heq
    exact eq_of_samePage (hown.apart b a hb ha hpb hpresent hframe) hoffset
  have hbacked : Backed own (vm.store (wordAddr vm a) w) free :=
    hown.carried (fun b _ _ => hentry b)
      (fun b _ hpb => (present_congr (hentry b)).mp hpb) hown.reached hown.table
      rfl fun _ hj => hj
  exact ⟨hvm.congr rfl rfl rfl rfl rfl rfl, hbacked, hentry, hword⟩

/-! ## The flat memory -/

/-- What was stored last at an own address is there. -/
def Recorded (own : Uint → Prop) (log : List Act) (vm : Vm) : Prop :=
  ∀ a w, WriteLog.last (touches a) log = some (.store a w) →
    own a ∧ a.toNat % 4 = 0 ∧ Present vm a ∧ vm.mem (wordAddr vm a) = w

theorem touches_store {w : Uint} : touches a (.store b w) = true ↔ b = a :=
  decide_eq_true_iff

theorem touches_unmap {v : Uint} : touches a (.unmap v) = true ↔ SamePage v a :=
  decide_eq_true_iff

variable {log : List Act}

theorem Recorded.carried {own' : Uint → Prop} (hlog : Recorded own log vm)
    (hkept : Carries own' vm vm') {act : Act}
    (hsame : ∀ a w, WriteLog.last (touches a) (log ++ [act]) =
      some (.store a w) → touches a act = false ∧ (own a → own' a)) :
    Recorded own (log ++ [act]) vm' := by
  intro a w hlast
  obtain ⟨hother, hsub⟩ := hsame a w hlast
  rw [WriteLog.last_concat, hother] at hlast
  obtain ⟨ha, hword, hpresent, hmem⟩ := hlog a w hlast
  refine ⟨ha, hword, hkept.present (hsub ha) hpresent, ?_⟩
  rw [hkept.wordAddr_eq (hsub ha) hpresent, hkept.word a (hsub ha) hpresent, hmem]

/-- The entry of a page and the words of a page are where they were. -/
structure Inv (own : Uint → Prop) (log : List Act) (vm : Vm) : Prop where
  backed : ∃ free clock, Unshared vm free clock [] ∧ Backed own vm free
  recorded : Recorded own log vm

theorem Inv.afterStep (hsame : ∀ a b, SamePage a b → own a → own b)
    (hvm : Inv own log vm) {act : Act} (hstep : Step own vm act vm') :
    Inv own (log ++ [act]) vm' := by
  obtain ⟨free, clock, hmap, hown⟩ := hvm.backed
  cases hstep with
  | fault hva hmissing hrun =>
      obtain ⟨free', clock', hmap', hown', hkept⟩ :=
        fault_carries hmap hown hmissing hrun
      exact ⟨⟨free', clock', hmap', hown'⟩,
        hvm.recorded.carried hkept fun _ _ _ => ⟨rfl, id⟩⟩
  | alloc hrun =>
      obtain ⟨i, rest, free', rfl, hmap', _, hown', _, hkept, _⟩ :=
        take hmap hown hrun
      exact ⟨⟨free', clock, hmap', hown'⟩,
        hvm.recorded.carried hkept fun _ _ _ => ⟨rfl, id⟩⟩
  | map hv hrun =>
      obtain ⟨free', clock', hmap', hown', hkept⟩ :=
        map_carries hsame hmap hown hv hrun
      exact ⟨⟨free', clock', hmap', hown'⟩,
        hvm.recorded.carried hkept fun _ _ _ => ⟨rfl, id⟩⟩
  | unmap v =>
      obtain ⟨hmap', hown', hkept⟩ := unmap_carries hmap hown v
      refine ⟨⟨free, clock, hmap', hown'⟩,
        hvm.recorded.carried hkept fun a w hlast => ?_⟩
      have hpage : ¬ SamePage v a := by
        intro hpage
        rw [WriteLog.last_concat, if_pos (touches_unmap.mpr hpage)] at hlast
        cases hlast
      exact ⟨decide_eq_false hpage, fun ha => ⟨ha, hpage⟩⟩
  | load ha hword hpresent =>
      exact ⟨⟨free, clock, hmap, hown⟩,
        hvm.recorded.carried (.refl own vm) fun _ _ _ => ⟨rfl, id⟩⟩
  | store ha hword hpresent hwritable w =>
      rename_i a
      obtain ⟨hmap', hown', hentry, hwords⟩ :=
        store_keeps hmap hown ha hpresent w
      refine ⟨⟨free, clock, hmap', hown'⟩, fun b v hlast => ?_⟩
      have haddr : ∀ b, wordAddr (vm.store (wordAddr vm a) w) b =
          wordAddr vm b := fun b => by
        rw [wordAddr, pageFrame_congr (hentry b), wordAddr]
      rw [WriteLog.last_concat] at hlast
      rw [haddr, present_congr (hentry b)]
      by_cases hb : b = a
      · subst hb
        rw [if_pos (touches_store.mpr rfl)] at hlast
        obtain ⟨_, rfl⟩ := Act.store.inj (Option.some.inj hlast)
        refine ⟨ha, hword, hpresent, ?_⟩
        simp [Vm.store]
      · rw [if_neg fun h => hb (touches_store.mp h).symm] at hlast
        obtain ⟨hown, hword, hpresent, hmem⟩ := hvm.recorded b v hlast
        exact ⟨hown, hword, hpresent, (hwords b hown hpresent hb).trans hmem⟩

theorem Inv.run (hsame : ∀ a b, SamePage a b → own a → own b)
    (hvm : Inv own [] vm) (hrun : Run (Step own) vm log vm') :
    Inv own log vm' := by
  induction hrun with
  | nil => exact hvm
  | snoc _ hlast ih => exact ih.afterStep hsame hlast

/-- After boot no own page is in memory. -/
theorem inv_of_boot {info : BootInfo} {low : Page} {p : Pmm}
    (hinit : Pmm.initBuddy info (.boot low) = .ok p) (hmany : 2 ≤ p.phyPageNum)
    {clients : List BuddySession.Call} {held : List PagePtr}
    (hclients : Run BuddySession.Step ⟨p, []⟩ clients ⟨vm.pmm, held⟩)
    (hdistinct : DistinctFrames vm.pmm) (htables : TablesDistinct vm)
    (hreached : ∀ a, (vm.getpte a).2 = true)
    (hunused : ∀ i < vm.pmm.phyPageNum, ¬ RefCount.IsTable vm i)
    (hclock : vm.clockPoint = none) : Inv (fun a => vm.entryOf a = 0) [] vm := by
  obtain ⟨free₀, hinitial⟩ := Pmm.initBuddy_initial hinit
  obtain ⟨free, blocks, hs⟩ := BuddySession.inv_of_run hclients
    ⟨free₀, [], BuddySession.inv_of_initial hinitial⟩
  have hsound := RefCount.sound_of_boot hinit hclients hdistinct htables hreached
  have hnum : vm.pmm.phyPageNum = p.phyPageNum :=
    hclients.invariant (fun s => s.pmm.phyPageNum = p.phyPageNum)
      (fun _ _ _ hs hstep => (RefCount.session_frames hstep).2.trans hs) rfl
  have hlt : ∀ i ∈ frames 17 free, i < vm.pmm.phyPageNum := by
    intro i hi
    have hmem : i ∈ frames 17 free + BuddySession.blockFrames blocks :=
      Multiset.mem_add.mpr (Or.inl hi)
    rw [hs.frames_eq, Pmm.placed, if_neg (by omega), Multiset.mem_coe,
      List.mem_range] at hmem
    omega
  have hframe : ∀ i ∈ frames 17 free, Pmm.FrameAddr (vm.pmm.startAddr (some i)) :=
    fun i hi => hsound.frame i (hlt i hi)
  have hmap : Unshared vm free [] [] := by
    refine ⟨listed_of_session hs hdistinct hclock, htables, fun i hi => ?_,
      fun i hi j _ hsame => ?_⟩
    · exact ⟨(hframe i hi).aligned, RefCount.frame_ne_zero (hframe i hi),
        fun a ha => hunused i (hlt i hi) ⟨a, ha⟩⟩
    · exact hdistinct i j hsame (RefCount.frame_ne_zero (hframe i hi))
  have habsent : ∀ a, vm.entryOf a = 0 → ¬ Present vm a := by
    intro a ha hpresent
    rw [Present, ha] at hpresent
    exact hpresent (BitVec.zero_and)
  refine ⟨⟨free, [], hmap, ⟨fun b => (getpte_flag_iff vm b).mp (hreached b),
    fun i hi => ?_, fun a ha hpresent => absurd hpresent (habsent a ha),
    fun a ha hpresent => absurd hpresent (habsent a ha),
    fun a b ha _ hpresent => absurd hpresent (habsent a ha)⟩⟩, fun a w hlast => ?_⟩
  · have hhigh := (hframe i hi).high
    generalize vm.pmm.startAddr (some i) = frame at hhigh
    unfold PAGE_OFFSET
    bv_omega
  · cases hlast

/-- The next state after a fault or a store. -/
def next (vm : Vm) : Act → Option Vm
  | .fault va =>
      if vm.entryOf va &&& PTE_P = 0 then (vm.doPgfault va).toOption else none
  | .store a w =>
      if a.toNat % 4 = 0 ∧ vm.entryOf a &&& PTE_P ≠ 0 ∧
        vm.entryOf a &&& PTE_W ≠ 0 then some (vm.store (wordAddr vm a) w)
      else none
  | _ => none

theorem step_of_next {act : Act} (hnext : next vm act = some vm') :
    Step (fun _ => True) vm act vm' := by
  cases act with
  | fault va =>
      dsimp only [next] at hnext
      split at hnext
      next habsent =>
        exact .fault trivial (fun h => h habsent)
          (BuddySession.eq_ok_of_toOption hnext)
      next => cases hnext
  | store a w =>
      dsimp only [next] at hnext
      split at hnext
      next hfits =>
        obtain rfl := Option.some.inj hnext
        exact .store trivial hfits.1 hfits.2.1 hfits.2.2 w
      next => cases hnext
  | alloc | map | unmap | load => cases hnext

theorem Step.mono {own' : Uint → Prop} (hsub : ∀ a, own' a ↔ own a) {act : Act}
    (hstep : Step own vm act vm') : Step own' vm act vm' := by
  have hsame : own' = own := funext fun a => propext (hsub a)
  rw [hsame]
  exact hstep

end PagedMemory
end OS32
