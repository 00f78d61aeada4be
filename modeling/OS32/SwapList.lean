import OS32.BuddyAllocSize
import OS32.VmSteps

/-!
# The clock list and the free lists

Runs of page faults and `swap_out` calls.  A page fault hands the frame it maps,
with the rest of its block, to the clock list.  As long as no victim is freed
this list ends and stays apart from the free lists: `free_buddy` takes the
victim's `next` and `prev` for its own while `clock_point` still points there.
-/

namespace OS32

open NullList BuddyTable Transition

namespace Swap

inductive Call where
  | fault (va : Uint)
  | swapOut (n : ℕ)

def call (vm : Vm) : Call → Except Fault Vm
  | .fault va => vm.doPgfault va
  | .swapOut n => (vm.swapOut n).map Prod.snd

/-- A call that returns. -/
def Step (vm : Vm) (c : Call) (vm' : Vm) : Prop := call vm c = .ok vm'

/-- The list from `clock_point` ends, names no frame twice and names no frame
of a free list. -/
def Separate (vm : Vm) : Prop :=
  ∃ l, vm.pmm.pagesFrom vm.clockPoint = .ok l ∧ l.Nodup ∧
    ∀ k < 17, ∃ pages,
      vm.pmm.pagesFrom (vm.pmm.pageBlkList k) = .ok pages ∧ l.Disjoint pages

/-- `swap_out` does not get as far as freeing its victim, or `free_buddy`
refuses: a reference to the victim is left, or one to a page behind it. -/
def Keeps (vm : Vm) : Call → Prop
  | .fault _ => True
  | .swapOut n =>
      n = 0 ∨ ∀ page, Vm.Victim vm.pmm vm.clockPoint page →
        (vm.getpte (vm.pmm.va (some page))).2 = false ∨
          1 < vm.pmm.refNum (some page) ∨
          vm.pmm.checkFreePages (vm.pmm.links.next (some page)) = .ok false

/-! ## The invariant -/

/-- A list of frames away from the free lists. -/
structure Apart (s : Pmm) (free : Table ℕ) (p : PagePtr) (l : List ℕ) :
    Prop where
  chain : ∃ before, s.links.Chain before p l
  off : ∀ a ∈ l, a ∉ frames 17 free
  bound : ∀ a ∈ l, a < MAX_PG_NUM

/-- `l` is the clock list and `blk` the block a page fault has in hand. -/
structure Listed (vm : Vm) (free : Table ℕ) (l blk : List ℕ) : Prop where
  represents : vm.pmm.Represents free
  clock : Apart vm.pmm free vm.clockPoint l
  block : Apart vm.pmm free blk.head? blk
  disjoint : ∀ a ∈ l, a ∉ blk
  found : ∀ a, a ∈ frames 17 free ∨ a ∈ blk →
    Vm.findPageIndex vm.pmm (vm.pmm.startAddr (some a)) = a

variable {vm vm' : Vm} {free : Table ℕ} {l blk : List ℕ}

theorem apart_nil (s : Pmm) (free : Table ℕ) : Apart s free none [] :=
  ⟨⟨none, rfl⟩, by simp, by simp⟩

theorem Apart.pagesFrom_eq {s : Pmm} {p : PagePtr} (hl : Apart s free p l) :
    s.pagesFrom p = .ok l :=
  Pmm.pagesFrom_eq hl.chain.choose_spec hl.bound

theorem Apart.nodup {s : Pmm} {p : PagePtr} (hl : Apart s free p l) :
    l.Nodup :=
  hl.chain.choose_spec.nodup

/-- Taking a block off the table leaves other lists alone. -/
theorem Apart.alloc {s t : Pmm} {p : PagePtr} (hl : Apart s free p l) {k : ℕ}
    (hk : k < 17) {free' : Table ℕ} (halloc : s.Allocated free k blk free' t) :
    Apart t free' p l := by
  obtain ⟨before, hchain⟩ := hl.chain
  constructor
  · exact ⟨before, halloc.same.links.chain hl.off hchain⟩
  · intro a ha hfree
    apply hl.off a ha
    rw [halloc.takes.frames_eq hk]
    exact Multiset.mem_add.mpr (Or.inr hfree)
  · exact hl.bound

theorem Listed.separate (hs : Listed vm free l blk) : Separate vm := by
  refine ⟨l, hs.clock.pagesFrom_eq, hs.clock.nodup, fun k hk => ?_⟩
  have hmem : ∀ a ∈ free k, a ∈ frames 17 free := fun a ha =>
    mem_frames.mpr ⟨k, hk, ha⟩
  refine ⟨free k, Pmm.pagesFrom_eq (hs.represents.chain k hk)
    (fun a ha => hs.represents.bound a (hmem a ha)), ?_⟩
  exact fun a ha hfree => hs.clock.off a ha (hmem a hfree)

/-- Writing counts, flags, addresses, page tables and the disk. -/
theorem Listed.congr (hs : Listed vm free l blk)
    (hlinks : vm'.pmm.links = vm.pmm.links)
    (hlist : vm'.pmm.pageBlkList = vm.pmm.pageBlkList)
    (hnum : vm'.pmm.blkNum = vm.pmm.blkNum)
    (hstart : vm'.pmm.startAddr = vm.pmm.startAddr)
    (hclock : vm'.clockPoint = vm.clockPoint) : Listed vm' free l blk := by
  have hindex : ∀ addr,
      Vm.findPageIndex vm'.pmm addr = Vm.findPageIndex vm.pmm addr := by
    intro addr
    exact Vm.findPageIndex_congr hstart addr
  constructor
  · constructor
    · rw [hlinks, hlist]
      exact hs.represents.chain
    · rw [hnum]
      exact hs.represents.count
    · exact hs.represents.nodup
    · exact hs.represents.bound
  · rw [hclock]
    exact ⟨by rw [hlinks]; exact hs.clock.chain, hs.clock.off, hs.clock.bound⟩
  · exact ⟨by rw [hlinks]; exact hs.block.chain, hs.block.off, hs.block.bound⟩
  · exact hs.disjoint
  · intro a ha
    rw [hindex, hstart]
    exact hs.found a ha

/-- `map` finds the head of the block by its address. -/
theorem Listed.found_head (hs : Listed vm free l blk) (hne : blk ≠ []) :
    some (Vm.findPageIndex vm.pmm (vm.pmm.startAddr blk.head?)) =
      blk.head? := by
  obtain ⟨x, rest, rfl⟩ := List.exists_cons_of_ne_nil hne
  exact congrArg some (hs.found x (Or.inr (by simp)))

/-! ## Page faults -/

theorem mem_of_frames_eq {free' : Table ℕ} {new : List ℕ}
    (hframes : frames 17 free = (new : Multiset ℕ) + frames 17 free') :
    (∀ i ∈ new, i ∈ frames 17 free) ∧
      ∀ i ∈ frames 17 free', i ∈ frames 17 free := by
  rw [hframes]
  exact ⟨fun _ hi => Multiset.mem_add.mpr (.inl hi),
    fun _ hi => Multiset.mem_add.mpr (.inr hi)⟩

/-- `alloc_pages` leaves the lists alone, and what it takes off the table is a
list of its own. -/
theorem Listed.alloc (hs : Listed vm free l blk) {n : Uint} {p : PagePtr}
    (hrun : vm.allocPages n = .ok (p, vm')) :
    ∃ free' new, Listed vm' free' l blk ∧ p = new.head? ∧ new ≠ [] ∧
      2 ^ Pmm.requestOrder (Pmm.requestPages (n <<< 2)) ≤ new.length ∧
      frames 17 free = (new : Multiset ℕ) + frames 17 free' ∧
      (blk = [] → Listed vm' free' l new) := by
  obtain ⟨⟨q, t⟩, halloc, hret⟩ := bind_ok_iff.mp hrun
  cases hret
  have hok := BuddySession.allocPages_ok_iff.mp halloc
  have hk : Pmm.requestOrder (Pmm.requestPages (n <<< 2)) < 17 := by
    by_contra hlarge
    rw [Pmm.allocBuddy_badIndex rfl (Nat.not_lt.mp hlarge)] at hok
    cases hok
  rcases hs.represents.allocBuddy_order rfl hk with
    ⟨hnone, _⟩ | ⟨new, free', u, hsome, hallocated⟩
  · rw [hnone] at hok
    cases hok
  · rw [hsome] at hok
    cases hok
    have hframes := hallocated.takes.frames_eq hk
    have hstart := hallocated.same.startAddr
    have hnodup := hs.represents.nodup
    rw [hframes] at hnodup
    have hapart : ∀ a ∈ new, a ∉ frames 17 free' := fun a ha =>
      Multiset.disjoint_left.mp (Multiset.nodup_add.mp hnodup).2.2 ha
    obtain ⟨hnew, hsub⟩ := mem_of_frames_eq hframes
    have hfound : ∀ a ∈ frames 17 free,
        Vm.findPageIndex t (t.startAddr (some a)) = a := by
      intro a ha
      rw [Vm.findPageIndex_congr hstart, hstart]
      exact hs.found a (Or.inl ha)
    refine ⟨free', new, ⟨hallocated.represents, hs.clock.alloc hk hallocated,
      hs.block.alloc hk hallocated, hs.disjoint, ?_⟩, rfl,
      hallocated.takes.block_ne_nil, hallocated.takes.pow_le_length, hframes,
      fun _ => ⟨hallocated.represents,
      hs.clock.alloc hk hallocated, ?_, ?_, ?_⟩⟩
    · rintro a (ha | ha)
      · exact hfound a (hsub a ha)
      · change Vm.findPageIndex t (t.startAddr (some a)) = a
        rw [Vm.findPageIndex_congr hstart, hstart]
        exact hs.found a (Or.inr ha)
    · exact ⟨⟨none, hallocated.chain⟩, hapart,
        fun a ha => hs.represents.bound a (hnew a ha)⟩
    · exact fun a ha hab => hs.clock.off a ha (hnew a hab)
    · rintro a (ha | ha)
      · exact hfound a (hsub a ha)
      · exact hfound a (hnew a ha)

theorem Listed.claimTable (hs : Listed vm free l blk) (pg : PagePtr)
    (v : Uint) : Listed (vm.claimTable pg v) free l blk :=
  hs.congr rfl rfl rfl rfl rfl

theorem Listed.entered (hs : Listed vm free l blk) (pg : PagePtr)
    (entry v table : Uint) :
    Listed (vm.entered pg entry v table) free l blk :=
  hs.congr rfl rfl rfl rfl rfl

theorem Listed.map (hs : Listed vm free l blk) {flags p v : Uint}
    {pg : PagePtr} (hrun : vm.map flags p v = .ok (pg, vm')) :
    pg = some (Vm.findPageIndex vm.pmm p) ∧ ∃ free', Listed vm' free' l blk := by
  obtain ⟨hpg, hcase⟩ := Vm.map_cases hrun
  refine ⟨hpg, ?_⟩
  rcases hcase with ⟨_, hvm⟩ | ⟨_, q, vm₁, halloc, hvm⟩
  · subst hvm
    exact ⟨free, hs.entered pg _ _ _⟩
  · subst hvm
    obtain ⟨free', _, hs', _⟩ := hs.alloc halloc
    exact ⟨free', (hs'.claimTable q v).entered pg _ _ _⟩

theorem lastPtr_eq_of_ne_nil (before : PagePtr) (hl : l ≠ []) :
    ∃ l₁ y, l = l₁ ++ [y] ∧ Links.lastPtr before l = some y := by
  refine ⟨l.dropLast, l.getLast hl, (List.dropLast_append_getLast hl).symm, ?_⟩
  rw [Links.lastPtr, List.getLast?_eq_some_getLast hl]
  rfl

/-- The block in hand is appended to the clock list. -/
theorem Listed.mapSwappable (hs : Listed vm free l blk) (hne : blk ≠ [])
    (hrun : vm.mapSwappable blk.head? = .ok vm') :
    Listed vm' free (l ++ blk) [] := by
  obtain ⟨before, hclock⟩ := hs.clock.chain
  obtain ⟨before', hblock⟩ := hs.block.chain
  have hoff : ∀ a ∈ l ++ blk, a ∉ frames 17 free := by
    intro a ha
    rcases List.mem_append.mp ha with ha | ha
    · exact hs.clock.off a ha
    · exact hs.block.off a ha
  have hbound : ∀ a ∈ l ++ blk, a < MAX_PG_NUM := by
    intro a ha
    rcases List.mem_append.mp ha with ha | ha
    · exact hs.clock.bound a ha
    · exact hs.block.bound a ha
  have hfree : ∀ t : Pmm, t.startAddr = vm.pmm.startAddr →
      ∀ a, a ∈ frames 17 free ∨ a ∈ ([] : List ℕ) →
        Vm.findPageIndex t (t.startAddr (some a)) = a := by
    intro t hstart a ha
    rw [Vm.findPageIndex_congr hstart, hstart]
    exact hs.found a (Or.inl (by simpa using ha))
  rcases Vm.mapSwappable_cases hrun with
    ⟨hnone, rfl⟩ | ⟨hsome, last, hlast, rfl⟩
  · obtain rfl : l = [] := by
      cases l with
      | nil => rfl
      | cons a l => simp [hnone] at hclock
    exact ⟨hs.represents.withFlags _, ⟨⟨before', hblock⟩, hoff, hbound⟩,
      apart_nil _ _, by simp, hfree _ rfl⟩
  · have hl : l ≠ [] := by
      rintro rfl
      exact hsome hclock
    obtain ⟨x, l₂, rfl⟩ := List.exists_cons_of_ne_nil hne
    obtain ⟨l₁, y, hsplit, hy⟩ := lastPtr_eq_of_ne_nil before hl
    have hend : vm.pmm.lastPage vm.clockPoint = .ok (some y) := by
      rw [← hy]
      exact Pmm.lastPage_eq hclock hl hs.clock.bound
    obtain rfl : some y = last := Except.ok.inj (hend.symm.trans hlast)
    have hjoin : (vm.pmm.links.join (some y) (some x)).Chain before
        vm.clockPoint (l ++ x :: l₂) := by
      rw [hsplit] at hclock ⊢
      refine hclock.join hblock fun a ha => ?_
      rw [← hsplit] at ha
      exact hs.disjoint a ha
    -- the two nodes whose links are written are on the lists, not in the table
    have hagree : Links.AgreeOff {a | a ∈ l ++ x :: l₂} vm.pmm.links
        (vm.pmm.links.join (some y) (some x)) := by
      refine Links.agreeOff_join _ ?_ ?_
      · rintro a heq
        obtain rfl : y = a := Option.some.inj heq
        simp [hsplit]
      · rintro a heq
        obtain rfl : x = a := Option.some.inj heq
        simp
    refine ⟨⟨fun k hk => ?_, hs.represents.count, hs.represents.nodup,
      hs.represents.bound⟩, ⟨⟨before, hjoin⟩, hoff, hbound⟩, apart_nil _ _,
      by simp, hfree _ rfl⟩
    refine hagree.chain (fun a ha hmem => ?_) (hs.represents.chain k hk)
    exact hoff a hmem (mem_frames.mpr ⟨k, hk, ha⟩)

theorem Listed.swapIn (hs : Listed vm free l []) {va flags : Uint} {r : ℕ}
    {p : PagePtr} (hrun : vm.swapIn va flags = .ok (r, p, vm')) :
    ∃ free' new, p = new.head? ∧ new ≠ [] ∧ Listed vm' free' l new := by
  obtain ⟨_, pg, vm₁, vm₂, vm₃, halloc, _, htable, hmap, rfl⟩ :=
    Vm.swapIn_cases hrun
  obtain ⟨free₁, new, _, rfl, hne, _, _, hnew⟩ :=
    hs.alloc halloc
  have hs₁ := hnew rfl
  have hhead := hs₁.found_head hne
  have hstep : ∃ free₂, Listed vm₂ free₂ l new ∧
      vm₂.pmm.startAddr = vm₁.pmm.startAddr := by
    rcases Vm.ensureTable_cases htable with ⟨_, rfl⟩ | ⟨_, q, vm₄, hq, rfl⟩
    · exact ⟨free₁, hs₁, rfl⟩
    · obtain ⟨free₂, _, hs₂, _⟩ := hs₁.alloc hq
      obtain ⟨t, rfl, hmembers⟩ := Vm.allocPages_cases hq
      refine ⟨free₂, hs₂.claimTable q _, ?_⟩
      rw [Vm.claimTable_startAddr]
      exact Pmm.startAddr_eq hmembers
  obtain ⟨free₂, hs₂, hstart⟩ := hstep
  obtain ⟨rfl, free₃, hs₃⟩ := hs₂.map hmap
  refine ⟨free₃, new, ?_, hne, hs₃.congr rfl rfl rfl rfl rfl⟩
  rw [Vm.findPageIndex_congr hstart]
  exact hhead

theorem Listed.doPgfault (hs : Listed vm free l []) {va : Uint}
    (hrun : vm.doPgfault va = .ok vm') :
    ∃ free' l', Listed vm' free' l' [] := by
  obtain ⟨vma, mm, _, hcase⟩ := Vm.doPgfault_cases hrun
  have hmm : Listed { vm with mm := mm } free l [] :=
    hs.congr rfl rfl rfl rfl rfl
  rcases hcase with rfl | ⟨_, pg, vm₁, p, vm₂, halloc, hmap, hlist⟩ |
    ⟨_, p, vm₁, _, _, hin, hlist⟩
  · exact ⟨free, l, hmm⟩
  · obtain ⟨free₁, new, _, rfl, hne, _, _, hnew⟩ :=
      hmm.alloc halloc
    have hs₁ := hnew rfl
    obtain ⟨hp, free₂, hs₂⟩ := hs₁.map hmap
    rw [hs₁.found_head hne] at hp
    rw [hp] at hlist
    exact ⟨free₂, l ++ new, hs₂.mapSwappable hne hlist⟩
  · obtain ⟨free₁, new, rfl, hne, hs₁⟩ := hmm.swapIn hin
    exact ⟨free₁, l ++ new, hs₁.mapSwappable hne hlist⟩

/-! ## `swap_out` -/

/-- The victim is the first page of the list with a flag. -/
theorem victim_chain {s : Pmm} {p : PagePtr} {page : ℕ}
    (hvictim : Vm.Victim s p page) {before : PagePtr}
    (hchain : s.links.Chain before p l) :
    ∃ before' skipped rest, l = skipped ++ page :: rest ∧
      s.links.Chain before' (some page) (page :: rest) ∧
      (∀ a ∈ skipped, s.flags (some a) = 0) ∧ s.flags (some page) ≠ 0 := by
  induction hvictim generalizing before l with
  | @here a hask =>
      obtain ⟨rest, rfl⟩ : ∃ rest, l = a :: rest := by
        cases l with
        | nil => cases hchain
        | cons b rest =>
            obtain rfl : a = b := Option.some.inj hchain.1
            exact ⟨rest, rfl⟩
      exact ⟨before, [], rest, rfl, hchain, by simp, Vm.askIsZero_iff.mp hask⟩
  | @next a page hskip _ ih =>
      cases l with
      | nil => cases hchain
      | cons b rest =>
          obtain ⟨hhead, _, hrest⟩ := Links.chain_cons.mp hchain
          obtain rfl : a = b := Option.some.inj hhead
          obtain ⟨before', skipped, later, rfl, hlater, hzero, hpage⟩ :=
            ih hrest
          refine ⟨before', a :: skipped, later, rfl, hlater, ?_, hpage⟩
          intro c hc
          rcases List.mem_cons.mp hc with rfl | hc
          · by_contra hne
            rw [Vm.askIsZero_iff.mpr hne] at hskip
            cases hskip
          · exact hzero c hc

/-- Choosing a victim drops the pages in front of it from the list. -/
theorem Listed.turned (hs : Listed vm free l []) {page : ℕ}
    (hvictim : Vm.Victim vm.pmm vm.clockPoint page) :
    ∃ rest, Listed (vm.turned page) free (page :: rest) [] := by
  obtain ⟨before, hchain⟩ := hs.clock.chain
  obtain ⟨before', skipped, rest, rfl, hpage, _⟩ := victim_chain hvictim hchain
  refine ⟨rest, hs.represents.withFlags _, ⟨⟨before', hpage⟩, ?_, ?_⟩,
    apart_nil _ _, by simp, ?_⟩
  · exact fun a ha => hs.clock.off a (List.mem_append_right _ ha)
  · exact fun a ha => hs.clock.bound a (List.mem_append_right _ ha)
  · intro a ha
    have hstart : (vm.turned page).pmm.startAddr = vm.pmm.startAddr := rfl
    rw [Vm.findPageIndex_congr hstart, hstart]
    exact hs.found a ha

theorem checkFreePages_setFlags (s : Pmm) (p : PagePtr) (v : Uint)
    (q : PagePtr) : (s.setFlags p v).checkFreePages q = s.checkFreePages q := by
  unfold Pmm.checkFreePages
  generalize walkBound = fuel
  induction fuel generalizing q with
  | zero => rfl
  | succ fuel ih =>
      cases q with
      | none => rfl
      | some i => exact if_congr Iff.rfl rfl (ih _)

theorem dropRef_refNum_of_one_lt {s : Pmm} {page : ℕ}
    (hrefs : 1 < s.refNum (some page)) :
    (Vm.dropRef s page).refNum (some page) ≠ 0 := by
  unfold Vm.dropRef
  rw [if_pos (by bv_omega)]
  simp only [Pmm.setRefNum, Function.update_self]
  bv_omega

theorem dropRef_refNum_of_ne {s : Pmm} {page a : ℕ} (hne : a ≠ page) :
    (Vm.dropRef s page).refNum (some a) = s.refNum (some a) := by
  unfold Vm.dropRef
  split
  · simp [Pmm.setRefNum, hne]
  · rfl

/-- With a reference left on the list from the victim on, `free_buddy` does
nothing. -/
theorem freeBuddy_dropRef {s : Pmm} {page : ℕ} {rest : List ℕ}
    (hl : Apart s free (some page) (page :: rest))
    (hrefs : 1 < s.refNum (some page) ∨
      s.checkFreePages (s.links.next (some page)) = .ok false) :
    (Vm.dropRef s page).freeBuddy (some page) = .ok (Vm.dropRef s page) := by
  obtain ⟨before, hchain⟩ := hl.chain
  obtain ⟨_, _, hrest⟩ := Links.chain_cons.mp hchain
  have hleft : ∃ a ∈ page :: rest, (Vm.dropRef s page).refNum (some a) ≠ 0 := by
    rcases hrefs with hmany | hcheck
    · exact ⟨page, by simp, dropRef_refNum_of_one_lt hmany⟩
    · rw [Pmm.checkFreePages_eq hrest
        fun a ha => hl.bound a (List.mem_cons_of_mem _ ha)] at hcheck
      obtain ⟨a, ha, hne⟩ : ∃ a ∈ rest, s.refNum (some a) ≠ 0 := by
        simpa using hcheck
      refine ⟨a, List.mem_cons_of_mem _ ha, ?_⟩
      rw [dropRef_refNum_of_ne]
      · exact hne
      · rintro rfl
        exact (List.nodup_cons.mp hchain.nodup).1 ha
  apply Pmm.freeBuddy_refused
  obtain ⟨v, hdrop⟩ := Vm.dropRef_eq s page
  have hchain' : (Vm.dropRef s page).links.Chain before (some page)
      (page :: rest) := by
    rw [hdrop]
    exact hchain
  rw [Pmm.checkFreePages_eq hchain' hl.bound, decide_eq_false]
  intro hzero
  obtain ⟨a, ha, hne⟩ := hleft
  exact hne (hzero a ha)

theorem Listed.swapOut (hs : Listed vm free l []) {n r : ℕ}
    (hkeeps : Keeps vm (.swapOut n)) (hrun : vm.swapOut n = .ok (r, vm')) :
    ∃ l', Listed vm' free l' [] := by
  rcases Vm.swapOut_cases hrun with ⟨_, rfl⟩ | ⟨hn, page, hvictim, hcase⟩
  · exact ⟨l, hs⟩
  · obtain ⟨rest, hturned⟩ := hs.turned hvictim
    rcases hcase with ⟨_, rfl⟩ | ⟨hflag, pte, _, _, hevict⟩
    · exact ⟨page :: rest, hturned⟩
    · refine ⟨page :: rest, ?_⟩
      have hrefs : 1 < (vm.turned page).pmm.refNum (some page) ∨
          (vm.turned page).pmm.checkFreePages
            ((vm.turned page).pmm.links.next (some page)) = .ok false := by
        unfold Vm.turned
        rw [checkFreePages_setFlags]
        rcases hkeeps.resolve_left hn page hvictim with hnone | hrefs
        · rw [hflag] at hnone
          cases hnone
        · exact hrefs
      obtain ⟨t, hfree, rfl⟩ := Vm.evict_cases hevict
      have hkept := freeBuddy_dropRef hturned.clock hrefs
      obtain rfl := Except.ok.inj (hkept.symm.trans hfree)
      obtain ⟨v, hdrop⟩ := Vm.dropRef_eq (vm.turned page).pmm page
      rw [hdrop]
      exact hturned.congr rfl rfl rfl rfl rfl

/-! ## Runs -/

theorem Listed.step (hs : Listed vm free l []) {c : Call}
    (hstep : Step vm c vm') (hkeeps : Keeps vm c) :
    ∃ free' l', Listed vm' free' l' [] := by
  cases c with
  | fault va => exact hs.doPgfault hstep
  | swapOut n =>
      obtain ⟨⟨r, vm₁⟩, hrun, rfl⟩ := map_ok_iff.mp hstep
      exact ⟨free, hs.swapOut hkeeps hrun⟩

/-- No two pages have the same start address. -/
def DistinctFrames (s : Pmm) : Prop :=
  ∀ a b, s.startAddr (some a) = s.startAddr (some b) →
    s.startAddr (some a) ≠ 0 → a = b

theorem listed_of_session {total : ℕ} {held : List PagePtr}
    {blocks : List (List ℕ)}
    (hs : BuddySession.Inv total ⟨vm.pmm, held⟩ free blocks)
    (hdistinct : DistinctFrames vm.pmm) (hclock : vm.clockPoint = none) :
    Listed vm free [] [] := by
  refine ⟨hs.represents, by rw [hclock]; exact apart_nil _ _, apart_nil _ _,
    by simp, ?_⟩
  intro a ha
  have hfree : a ∈ frames 17 free := by simpa using ha
  have htotal : a < total := by
    have hmem : a ∈ frames 17 free + BuddySession.blockFrames blocks :=
      Multiset.mem_add.mpr (Or.inl hfree)
    rw [hs.frames_eq] at hmem
    simpa using hmem
  refine Vm.findPageIndex_eq (hs.represents.bound a hfree) rfl ?_
  intro m hm hsame
  have hmany : 1 < total := by omega
  have hne := (hs.matchable hmany a htotal).1
  have hzero : vm.pmm.startAddr (some m) ≠ 0 := by
    rw [hsame]
    exact hne
  exact hm.ne (hdistinct m a hsame hzero)

/-- In every run whose `swap_out` calls all leave their victim allocated, the
clock list ends, names no frame twice and names no free frame. -/
theorem clock_list_separate {info : BootInfo} {low : Page} {p : Pmm}
    (hinit : Pmm.initBuddy info (.boot low) = .ok p)
    {clients : List BuddySession.Call} {held : List PagePtr}
    (hclients : Run BuddySession.Step ⟨p, []⟩ clients ⟨vm.pmm, held⟩)
    (hdistinct : DistinctFrames vm.pmm) (hclock : vm.clockPoint = none)
    {calls : List Call}
    (hrun : Run (fun vm c vm' => Step vm c vm' ∧ Keeps vm c) vm calls vm') :
    Separate vm' := by
  obtain ⟨free₀, hinitial⟩ := Pmm.initBuddy_initial hinit
  obtain ⟨free, blocks, hs⟩ := BuddySession.inv_of_run hclients
    ⟨free₀, [], BuddySession.inv_of_initial hinitial⟩
  have hlisted : ∃ free l, Listed vm' free l [] := by
    refine hrun.invariant (fun vm => ∃ free l, Listed vm free l []) ?_
      ⟨free, [], listed_of_session hs hdistinct hclock⟩
    rintro vm c vm' ⟨free, l, hl⟩ ⟨hstep, hkeeps⟩
    exact hl.step hstep hkeeps
  obtain ⟨free', l, hl⟩ := hlisted
  exact hl.separate

/-! ## Executing a run -/

/-- An address space with one writable area and a page table for it. -/
def start (p : Pmm) : Vm :=
  { Vm.bare p with
    pgd := fun k =>
      if k = pgdIdx 0xE0000000 then 0x4000 ||| PTE_P ||| PTE_W else 0
    mm :=
      { vmaList := some 0
        mmapCache := none
        vma := fun i =>
          if i = some 0 then ⟨none, 0xE0000000, 0xE0FFFFFF, PTE_W⟩
          else ⟨none, 0, 0, 0⟩ } }

theorem start_tableOf (p : Pmm) (b : Uint) :
    (start p).tableOf b = if pgdIdx b = pgdIdx 0xE0000000 then 0x4000 else 0 := by
  unfold start Vm.tableOf
  dsimp only
  split <;> decide

theorem start_tablesDistinct (p : Pmm) : Vm.TablesDistinct (start p) :=
  Vm.tablesDistinct_of_one (start_tableOf p)

theorem start_reached (p : Pmm) : ∀ b, ((start p).getpte b).2 = true :=
  Vm.reached_of_one (by decide) (start_tableOf p)

/-- The next state, if the call returns. -/
def next (vm : Vm) (c : Call) : Option Vm := (call vm c).toOption

theorem step_of_next {c : Call} (hnext : next vm c = some vm') :
    Step vm c vm' :=
  BuddySession.eq_ok_of_toOption hnext

/-- `clock_point` is a victim in front of a page that is still referenced. -/
def keepsFirst (vm : Vm) : Bool :=
  match vm.clockPoint with
  | none => false
  | some page =>
      Vm.askIsZero (vm.pmm.flags (some page)) ∧
        vm.pmm.checkFreePages (vm.pmm.links.next (some page)) = .ok false

def keepingNext (vm : Vm) (c : Call) : Option Vm :=
  match c with
  | .fault _ => next vm c
  | .swapOut _ => if keepsFirst vm then next vm c else none

theorem keepingStep_of_next {c : Call} (hnext : keepingNext vm c = some vm') :
    Step vm c vm' ∧ Keeps vm c := by
  cases c with
  | fault va => exact ⟨step_of_next hnext, trivial⟩
  | swapOut n =>
      unfold keepingNext at hnext
      dsimp only at hnext
      split at hnext
      next hfirst =>
        refine ⟨step_of_next hnext, Or.inr fun page hvictim => ?_⟩
        unfold keepsFirst at hfirst
        cases hpoint : vm.clockPoint with
        | none => simp [hpoint] at hfirst
        | some first =>
            rw [hpoint] at hfirst hvictim
            obtain ⟨hask, hcheck⟩ := of_decide_eq_true hfirst
            obtain rfl := hvictim.unique (.here hask)
            exact Or.inr (Or.inr hcheck)
      next => cases hnext

theorem sixFrames_initial {p : Pmm}
    (hinit : Pmm.initBuddy (BuddySession.frameMap 6)
      (.boot BuddySession.zeroPage) = .ok p) :
    ∃ free, p.Initial free ∧ p.phyPageNum = 6 ∧
      frames 17 free = (List.range 6 : Multiset ℕ) := by
  have hlook : (Pmm.initBuddy (BuddySession.frameMap 6)
      (.boot BuddySession.zeroPage)).toOption.map Pmm.phyPageNum = some 6 := by
    decide +kernel
  rw [hinit] at hlook
  have hcount : p.phyPageNum = 6 := Option.some.inj hlook
  obtain ⟨free, hinitial⟩ := Pmm.initBuddy_initial hinit
  refine ⟨free, hinitial, hcount, ?_⟩
  rw [hinitial.frames_eq, hcount]
  rfl

theorem sixFrames_distinct {p : Pmm}
    (hinit : Pmm.initBuddy (BuddySession.frameMap 6)
      (.boot BuddySession.zeroPage) = .ok p) : DistinctFrames p := by
  have hlook : (Pmm.initBuddy (BuddySession.frameMap 6)
      (.boot BuddySession.zeroPage)).toOption.map (fun p =>
        decide (∀ a ∈ List.range 6, ∀ b ∈ List.range 6,
          p.startAddr (some a) = p.startAddr (some b) → a = b)) =
      some true := by decide +kernel
  rw [hinit] at hlook
  have hdecide := of_decide_eq_true (Option.some.inj hlook)
  obtain ⟨free, hinitial, hcount, _⟩ := sixFrames_initial hinit
  have hlow : ∀ c, p.startAddr (some c) ≠ 0 → c ∈ List.range 6 := by
    intro c hc
    by_contra hhigh
    rw [List.mem_range] at hhigh
    exact hc (hinitial.recorded.unused c (by omega))
  intro a b hsame hne
  have hne' : p.startAddr (some b) ≠ 0 := by
    rw [← hsame]
    exact hne
  exact hdecide a (hlow a hne) b (hlow b hne') hsame

/-- Two pages are mapped and the first of them is written out; its frame stays
allocated because the second one follows it on the list. -/
theorem clock_list_two_pages :
    ∃ p vm, Pmm.initBuddy (BuddySession.frameMap 6)
        (.boot BuddySession.zeroPage) = .ok p ∧
      Run Step (start p) [.fault 0xE0008700, .fault 0xE0009000, .swapOut 1]
        vm ∧
      vm.clockPoint = some 5 ∧ Separate vm := by
  have htrace : BuddySession.traceFrom start keepingNext 6
      [.fault 0xE0008700, .fault 0xE0009000, .swapOut 1]
      (fun vm => vm.clockPoint) = some 5 := by decide +kernel
  obtain ⟨p, vm, hinit, hrun, hlook⟩ := BuddySession.run_of_traceFrom htrace
    fun _ _ _ => keepingStep_of_next
  refine ⟨p, vm, hinit, hrun.mono fun _ _ _ h => h.1, hlook, ?_⟩
  exact clock_list_separate hinit (.nil) (sixFrames_distinct hinit) rfl hrun

theorem mem_of_pagesFrom {s : Pmm} {a : ℕ} {pages : List ℕ}
    (hpages : s.pagesFrom (some a) = .ok pages) : a ∈ pages := by
  unfold Pmm.pagesFrom at hpages
  split at hpages
  next found hnodes =>
    obtain rfl := Except.ok.inj hpages
    exact Links.mem_of_nodes hnodes
  next => cases hpages

/-- One page is mapped and swapped out: `clock_point` is in a free block. -/
theorem clock_point_on_free_list :
    ∃ p vm, Pmm.initBuddy (BuddySession.frameMap 6)
        (.boot BuddySession.zeroPage) = .ok p ∧
      Run Step (start p) [.fault 0xE0008700, .swapOut 1] vm ∧
      ¬ Separate vm := by
  have htrace : BuddySession.traceFrom start next 6
      [.fault 0xE0008700, .swapOut 1] (fun vm => some (vm.clockPoint,
        (vm.pmm.pagesFrom (vm.pmm.pageBlkList 1)).toOption)) =
      some (some 5, some [4, 5]) := by decide +kernel
  obtain ⟨p, vm, hinit, hrun, hlook⟩ := BuddySession.run_of_traceFrom htrace
    fun _ _ _ => step_of_next
  obtain ⟨hclock, hblock⟩ := Prod.mk.inj (Option.some.inj hlook)
  refine ⟨p, vm, hinit, hrun, ?_⟩
  rintro ⟨l, hl, _, hfree⟩
  obtain ⟨pages, hpages, hdisjoint⟩ := hfree 1 (by norm_num)
  rw [hclock] at hl
  rw [BuddySession.eq_ok_of_toOption hblock] at hpages
  obtain rfl := Except.ok.inj hpages
  exact hdisjoint (mem_of_pagesFrom hl) (by simp)

end Swap
end OS32
