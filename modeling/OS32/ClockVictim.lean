import OS32.BuddyStale
import OS32.SwapList

/-!
# The victim of the clock

`_clock_swap_out_victim` takes the first page with a flag, as `==` binds tighter
than `^`, and moves `clock_point` past the pages in front of it.  `swap_out`
then hands the victim to `free_buddy` with its links, so the pages queued behind
it are taken for the rest of its block.
-/

namespace OS32

open NullList BuddyTable Links

namespace Vm

variable {vm vm' : Vm} {l : List ℕ} {before : PagePtr} {page a : ℕ}

/-! ## Which page is chosen -/

/-- The victim is the first page of the list `l` with `PAGE_A` clear, if there
is one.  Its `PAGE_A` is set, and the other pages stay on the list. -/
structure ChoosesVictim (vm : Vm) (l : List ℕ) : Prop where
  first : (∃ a ∈ l, vm.pmm.flags (some a) &&& PAGE_A = 0) →
    ∃ skipped page rest vm' pages, l = skipped ++ page :: rest ∧
      (∀ a ∈ skipped, vm.pmm.flags (some a) &&& PAGE_A ≠ 0) ∧
      vm.pmm.flags (some page) &&& PAGE_A = 0 ∧
      vm.swapOutVictim = .ok (page, vm') ∧
      vm'.pmm.flags (some page) = vm.pmm.flags (some page) ||| PAGE_A ∧
      vm'.pmm.pagesFrom vm'.clockPoint = .ok pages ∧
      ∀ a ∈ l, a ≠ page → a ∈ pages
  clear : ∀ page vm', vm.swapOutVictim = .ok (page, vm') →
    vm.pmm.flags (some page) &&& PAGE_A = 0

/-- A page with a flag at `clock_point` is chosen. -/
theorem swapOutVictim_head (hpoint : vm.clockPoint = some page)
    (hflags : vm.pmm.flags (some page) ≠ 0) :
    vm.swapOutVictim = .ok (page, vm.turned page) := by
  unfold swapOutVictim
  change swapOutVictimFrom (4294967295 + 1) vm = _
  unfold swapOutVictimFrom
  rw [hpoint]
  dsimp only
  rw [if_pos (askIsZero_iff.mpr hflags), turned, ← hpoint]
  rfl

theorem turned_flags (vm : Vm) (page : ℕ) :
    (vm.turned page).pmm.flags (some page) =
      vm.pmm.flags (some page) ||| PAGE_A :=
  Function.update_self ..

/-- The victim is chosen as it should be just if the first page has a flag and
`PAGE_A` is not among its flags. -/
theorem choosesVictim_iff (hchain : vm.pmm.links.Chain before vm.clockPoint l)
    (hbound : ∀ a ∈ l, a < MAX_PG_NUM) :
    vm.ChoosesVictim l ↔ ∀ a ∈ l.head?,
      vm.pmm.flags (some a) ≠ 0 ∧ vm.pmm.flags (some a) &&& PAGE_A = 0 := by
  cases l with
  | nil =>
      constructor
      · intro _ a ha
        cases ha
      · intro _
        refine ⟨?_, ?_⟩
        · rintro ⟨a, ha, _⟩
          cases ha
        · intro page vm' hrun
          obtain ⟨hvictim, _⟩ := swapOutVictimFrom_cases hrun
          rw [show vm.clockPoint = none from hchain] at hvictim
          cases hvictim
  | cons b rest =>
      have hpoint : vm.clockPoint = some b := hchain.1
      simp only [List.head?_cons, Option.mem_some_iff, forall_eq']
      constructor
      · intro hchooses
        have hflags : vm.pmm.flags (some b) ≠ 0 := by
          intro hzero
          obtain ⟨skipped, page, rest', vm', _, hsplit, hset, _, hrun, _⟩ :=
            hchooses.first ⟨b, List.mem_cons_self, by rw [hzero]; rfl⟩
          obtain ⟨hvictim, _⟩ := swapOutVictimFrom_cases hrun
          obtain ⟨_, _, _, _, _, _, hpage⟩ := Swap.victim_chain hvictim hchain
          cases skipped with
          | nil =>
              obtain ⟨rfl, _⟩ := List.cons.inj hsplit
              exact hpage hzero
          | cons c skipped =>
              obtain ⟨rfl, _⟩ := List.cons.inj hsplit
              apply hset b List.mem_cons_self
              rw [hzero]
              rfl
        exact ⟨hflags, hchooses.clear b _ (swapOutVictim_head hpoint hflags)⟩
      · rintro ⟨hflags, hclear⟩
        have hrun := swapOutVictim_head hpoint hflags
        refine ⟨fun _ => ⟨[], b, rest, _, b :: rest, rfl, nofun, hclear, hrun,
          turned_flags vm b, ?_, fun a ha _ => ha⟩, ?_⟩
        · rw [show (vm.turned b).clockPoint = vm.clockPoint from hpoint.symm]
          exact Pmm.pagesFrom_eq hchain hbound
        · intro page vm' hrun'
          obtain ⟨rfl, _⟩ := Prod.mk.inj (Except.ok.inj (hrun'.symm.trans hrun))
          exact hclear

/-- Pages 0 and 1 are in use and on the clock list. -/
def twoListed : Vm :=
  let pmm := Pmm.boot BuddySession.zeroPage
  let pmm := (pmm.setFlags (some 0) PHY_BUSY).setFlags (some 1) PHY_BUSY
  { bare (pmm.setLinks (pmm.links.join (some 0) (some 1))) with
    clockPoint := some 0 }

theorem twoListed_chain :
    twoListed.pmm.links.Chain none twoListed.clockPoint [0, 1] :=
  ⟨rfl, rfl, rfl, rfl, rfl⟩

theorem twoListed_bound : ∀ a ∈ [0, 1], a < MAX_PG_NUM := by decide

/-- The first of two pages is chosen. -/
theorem choosesVictim_twoListed : twoListed.ChoosesVictim [0, 1] :=
  (choosesVictim_iff twoListed_chain twoListed_bound).mpr (by decide)

/-- It is chosen a second time, with its `PAGE_A` set. -/
theorem victim_chosen_again : ¬ ∀ (vm : Vm) (l : List ℕ),
    vm.pmm.links.Chain none vm.clockPoint l → (∀ a ∈ l, a < MAX_PG_NUM) →
      vm.ChoosesVictim l := by
  intro hall
  have hrun : twoListed.swapOutVictim = .ok (0, twoListed.turned 0) :=
    swapOutVictim_head rfl (by decide)
  have hchain : (twoListed.turned 0).pmm.links.Chain none
      (twoListed.turned 0).clockPoint [0, 1] := twoListed_chain
  have hagain := hall _ _ hchain twoListed_bound
  have hclear := hagain.clear 0 _ (swapOutVictim_head rfl (by decide))
  exact absurd hclear (by decide)

end Vm

/-! ## Freeing the last page of the list -/

/-- `free_buddy` takes a page with nothing behind it for a block of one page,
whatever its `prev` is. -/
theorem Pmm.Represents.freeBuddy_last {s : Pmm} {free : Table ℕ} {page : ℕ}
    {before : PagePtr} (hs : s.Represents free)
    (hchain : s.links.Chain before (some page) [page])
    (hoff : page ∉ frames 17 free) (hbound : page < MAX_PG_NUM)
    (hcard : (frames 17 free).card + 1 < 2 ^ 17)
    (hmatch : ∀ a, a ∈ frames 17 free ∨ a = page → s.Matchable a)
    (hzero : s.refNum (some page) = 0) :
    ∃ t free', s.freeBuddy (some page) = .ok t ∧
      frames 17 free' = page ::ₘ frames 17 free ∧
      (∀ k < 17, t.pagesFrom (t.pageBlkList k) = .ok (free' k)) ∧
      SameOff (mergeFrames free [page]) s t := by
  have hloose : Loose (s.stale (some page) none) free 0 [page] := by
    have hmem : ∀ a ∈ frames 17 free + (([page] : List ℕ) : Multiset ℕ),
        a ∈ frames 17 free ∨ a = page := by
      intro a ha
      simpa using ha
    refine ⟨Chain.setPrev_head hchain none, rfl, ?_, ?_, ?_, ?_⟩
    · refine Multiset.nodup_add.mpr ⟨hs.nodup, by simp, ?_⟩
      rw [Multiset.coe_singleton, Multiset.disjoint_singleton]
      exact hoff
    · intro a ha
      rcases hmem a ha with ha | rfl
      · exact hs.bound a ha
      · exact hbound
    · rw [Multiset.card_add, Multiset.coe_card]
      exact hcard
    · exact fun _ a ha => hmatch a (hmem a ha)
  have hs' : (s.stale (some page) none).Represents free := by
    refine hs.stale fun a ha heq => hoff ?_
    rwa [← Option.some.inj heq]
  obtain ⟨t, free', hfree, hputs, hlists, hsame⟩ :=
    hs'.freeBuddy_stale (by norm_num) hloose
      (fun a ha => by rw [List.mem_singleton.mp ha]; exact hzero)
      (s.links.prev (some page))
  have hback : (s.stale (some page) none).stale (some page)
      (s.links.prev (some page)) = s := by
    rw [stale_stale, stale_self]
  rw [List.head?_cons, hback] at hfree
  refine ⟨t, free', hfree, ?_, hlists, ?_⟩
  · rw [hputs.frames_eq (by norm_num) hloose.length hloose.card,
      Multiset.coe_singleton, add_comm, Multiset.singleton_add]
  · have hstale : SameOff (mergeFrames free [page]) s
        (s.stale (some page) none) := by
      refine .of_links (agreeOff_setPrev _ none ?_) rfl rfl rfl rfl rfl
      intro a ha
      obtain rfl := Option.some.inj ha
      exact mem_mergeFrames.mpr (Or.inr List.mem_cons_self)
    exact hstale.trans hsame

namespace Swap

variable {vm vm' : Vm} {p : Pmm} {free : Table ℕ} {l : List ℕ} {page a : ℕ}

/-! ## What `swap_out` is to do -/

/-- `page->va` is mapped to the frame of the page. -/
def Mapped (vm : Vm) (page : ℕ) : Prop :=
  vm.entryOf (vm.pmm.va (some page)) &&& PTE_P ≠ 0 ∧
    vm.entryOf (vm.pmm.va (some page)) &&& PAGE_MASK =
      vm.pmm.startAddr (some page)

/-- The clock list `l` has mapped pages with one reference each, apart from the
free lists; the frames are those that `init_buddy` has recorded in `p`. -/
structure Swappable (vm : Vm) (p : Pmm) (free : Table ℕ) (l : List ℕ) :
    Prop where
  boot : ∃ info low, Pmm.initBuddy info (.boot low) = .ok p
  recorded : ∀ a, a ∈ frames 17 free ∨ a ∈ l →
    a < p.phyPageNum ∧ vm.pmm.startAddr (some a) = p.startAddr (some a)
  represents : vm.pmm.Represents free
  clock : Apart vm.pmm free vm.clockPoint l
  refNum : ∀ a ∈ l, vm.pmm.refNum (some a) = 1
  mapped : ∀ a ∈ l, Mapped vm a
  distinct : ∀ a ∈ l, ∀ b ∈ l,
    vm.pmm.startAddr (some a) = vm.pmm.startAddr (some b) → a = b

/-- The entry of the victim has lost `PTE_P`, its frame is on the free lists
with no reference, and nothing has happened to the other pages of `l`. -/
structure ReleasesVictim (vm vm' : Vm) (free : Table ℕ) (l : List ℕ)
    (page : ℕ) : Prop where
  pgd_eq : vm'.pgd = vm.pgd
  entry : vm'.entryOf (vm.pmm.va (some page)) =
    vm.entryOf (vm.pmm.va (some page)) &&& ~~~PTE_P
  mem_eq : ∀ addr, addr ≠ Vm.pteAddr (vm.tableOf (vm.pmm.va (some page)))
    (vm.pmm.va (some page)) → vm'.mem addr = vm.mem addr
  freed : ∃ free', frames 17 free' = page ::ₘ frames 17 free ∧
    ∀ k < 17, vm'.pmm.pagesFrom (vm'.pmm.pageBlkList k) = .ok (free' k)
  refNum : vm'.pmm.refNum (some page) = 0
  allocated : ∀ a ∈ l, a ≠ page → ∀ k < 17, ∀ pages,
    vm'.pmm.pagesFrom (vm'.pmm.pageBlkList k) = .ok pages → a ∉ pages
  mapped : ∀ a ∈ l, a ≠ page → Mapped vm' a
  flags_eq : ∀ a ∈ l, a ≠ page →
    vm'.pmm.flags (some a) = vm.pmm.flags (some a)
  refNum_eq : ∀ a ∈ l, a ≠ page →
    vm'.pmm.refNum (some a) = vm.pmm.refNum (some a)

/-! ## What `swap_out` does -/

theorem swapOut_one (hrun : vm.swapOut 1 = .ok (1, vm')) :
    ∃ page pte, Vm.Victim vm.pmm vm.clockPoint page ∧
      (vm.getpte (vm.pmm.va (some page))).2 = true ∧
      (vm.turned page).evict page (vm.getpte (vm.pmm.va (some page))).1 pte
        (vm.pmm.va (some page)) = .ok vm' := by
  obtain ⟨page, pte, hpage, _, _, ⟨_, hrest⟩ | ⟨hflag, _, hevict⟩⟩ :=
    Vm.swapOut_turn hrun
  · cases hrest
  · exact ⟨page, pte, hpage, hflag, hevict⟩

/-- The state of the allocator when `swap_out` calls `free_buddy`. -/
def dropped (vm : Vm) (page : ℕ) : Pmm := Vm.dropRef (vm.turned page).pmm page

theorem Swappable.dropped_eq (hs : Swappable vm p free l) (hpage : page ∈ l) :
    dropped vm page = (vm.turned page).pmm.setRefNum (some page) 0 := by
  have hone : (vm.turned page).pmm.refNum (some page) = 1 := hs.refNum page hpage
  unfold dropped Vm.dropRef
  rw [hone, if_pos (by decide)]
  rfl

theorem Swappable.tableOf_ne (hs : Swappable vm p free l) (ha : a ∈ l) :
    vm.tableOf (vm.pmm.va (some a)) ≠ 0 := by
  intro hzero
  apply (hs.mapped a ha).1
  unfold Vm.entryOf
  rw [if_pos hzero]
  rfl

theorem Swappable.entryOf_eq (hs : Swappable vm p free l) (ha : a ∈ l) :
    vm.entryOf (vm.pmm.va (some a)) =
      vm.mem (Vm.pteAddr (vm.tableOf (vm.pmm.va (some a)))
        (vm.pmm.va (some a))) := by
  unfold Vm.entryOf
  rw [if_neg (hs.tableOf_ne ha)]

/-- The entries of two pages of the list are at different places. -/
theorem Swappable.pteAddr_ne (hs : Swappable vm p free l) (ha : a ∈ l)
    (hpage : page ∈ l) (hne : a ≠ page) :
    Vm.pteAddr (vm.tableOf (vm.pmm.va (some a))) (vm.pmm.va (some a)) ≠
      Vm.pteAddr (vm.tableOf (vm.pmm.va (some page)))
        (vm.pmm.va (some page)) := by
  intro heq
  apply hne
  apply hs.distinct a ha page hpage
  rw [← (hs.mapped a ha).2, ← (hs.mapped page hpage).2, hs.entryOf_eq ha,
    hs.entryOf_eq hpage, heq]

/-- The clock list from the victim on. -/
theorem Swappable.apart_victim (hs : Swappable vm p free l) {rest : List ℕ}
    {before : PagePtr}
    (hchain : vm.pmm.links.Chain before (some page) (page :: rest))
    (hmem : ∀ a ∈ page :: rest, a ∈ l) :
    Apart (vm.turned page).pmm free (some page) (page :: rest) :=
  ⟨⟨before, hchain⟩, fun a ha => hs.clock.off a (hmem a ha),
    fun a ha => hs.clock.bound a (hmem a ha)⟩

/-- With a page behind the victim nothing is freed. -/
theorem Swappable.keeps (hs : Swappable vm p free l) {b : ℕ} {rest : List ℕ}
    {before : PagePtr}
    (hchain : vm.pmm.links.Chain before (some page) (page :: b :: rest))
    (hmem : ∀ a ∈ page :: b :: rest, a ∈ l) :
    (dropped vm page).freeBuddy (some page) = .ok (dropped vm page) := by
  have hapart := hs.apart_victim hchain hmem
  refine freeBuddy_dropRef hapart (Or.inr ?_)
  obtain ⟨_, _, hrest⟩ := chain_cons.mp hchain
  have hbehind : (vm.turned page).pmm.links.Chain (some page)
      (vm.pmm.links.next (some page)) (b :: rest) := hrest
  change (vm.turned page).pmm.checkFreePages (vm.pmm.links.next (some page)) = _
  rw [Pmm.checkFreePages_eq hbehind
    fun a ha => hapart.bound a (List.mem_cons_of_mem _ ha), decide_eq_false]
  intro hzero
  have hb := hzero b List.mem_cons_self
  rw [show (vm.turned page).pmm.refNum (some b) = 1 from
    hs.refNum b (hmem b (by simp))] at hb
  exact absurd hb (by decide)

/-- The last page of the list is freed. -/
theorem Swappable.frees (hs : Swappable vm p free l) {before : PagePtr}
    (hchain : vm.pmm.links.Chain before (some page) [page]) (hpage : page ∈ l) :
    ∃ t free', (dropped vm page).freeBuddy (some page) = .ok t ∧
      frames 17 free' = page ::ₘ frames 17 free ∧
      (∀ k < 17, t.pagesFrom (t.pageBlkList k) = .ok (free' k)) ∧
      Pmm.SameOff (Pmm.mergeFrames free [page]) (dropped vm page) t := by
  rw [hs.dropped_eq hpage]
  obtain ⟨info, low, hinit⟩ := hs.boot
  obtain ⟨_, hinitial⟩ := Pmm.initBuddy_initial hinit
  have hoff := hs.clock.off page hpage
  refine Pmm.Represents.freeBuddy_last
    (s := (vm.turned page).pmm.setRefNum (some page) 0) ?_ hchain hoff
    (hs.clock.bound page hpage) ?_ ?_ (Function.update_self ..)
  · exact ⟨hs.represents.chain, hs.represents.count, hs.represents.nodup,
      hs.represents.bound⟩
  · have hnodup : (page ::ₘ frames 17 free).Nodup :=
      Multiset.nodup_cons.mpr ⟨hoff, hs.represents.nodup⟩
    have hle : page ::ₘ frames 17 free ≤
        (List.range p.phyPageNum : Multiset ℕ) := by
      refine (Multiset.le_iff_subset hnodup).mpr fun a ha => ?_
      have hbelow : a < p.phyPageNum := by
        rcases Multiset.mem_cons.mp ha with rfl | ha
        · exact (hs.recorded a (Or.inr hpage)).1
        · exact (hs.recorded a (Or.inl ha)).1
      simpa using hbelow
    have hcard := Multiset.card_le_card hle
    rw [Multiset.card_cons, Multiset.coe_card, List.length_range] at hcard
    exact hcard.trans_lt hinitial.lt
  · intro a ha
    have hmem : a ∈ frames 17 free ∨ a ∈ l := by
      rcases ha with ha | rfl
      · exact Or.inl ha
      · exact Or.inr hpage
    obtain ⟨hbelow, hstart⟩ := hs.recorded a hmem
    have hne := BuddySession.frameAddr_ne (hinitial.recorded.frame a hbelow)
    rw [← hstart] at hne
    exact hne

/-- What is left to say once the last page of the list has been freed. -/
theorem Swappable.releases (hs : Swappable vm p free l) {t : Pmm}
    {free' : Table ℕ} (hpage : page ∈ l)
    (hframes : frames 17 free' = page ::ₘ frames 17 free)
    (hlists : ∀ k < 17, t.pagesFrom (t.pageBlkList k) = .ok (free' k))
    (hsame : Pmm.SameOff (Pmm.mergeFrames free [page]) (dropped vm page) t)
    (hmem : vm'.mem = Function.update vm.mem
      (Vm.pteAddr (vm.tableOf (vm.pmm.va (some page))) (vm.pmm.va (some page)))
      (vm.entryOf (vm.pmm.va (some page)) &&& ~~~PTE_P))
    (hpgd : vm'.pgd = vm.pgd) (hpmm : vm'.pmm = t) :
    ReleasesVictim vm vm' free l page := by
  have hdropped := hs.dropped_eq hpage
  have hrefs : vm'.pmm.refNum =
      Function.update vm.pmm.refNum (some page) 0 := by
    rw [hpmm, hsame.refNum, hdropped]
    rfl
  have hva : vm'.pmm.va = vm.pmm.va := by
    rw [hpmm, hsame.va, hdropped]
    rfl
  have hstart : vm'.pmm.startAddr = vm.pmm.startAddr := by
    rw [hpmm, hsame.startAddr, hdropped]
    rfl
  have htable : ∀ va, vm'.tableOf va = vm.tableOf va := by
    intro va
    unfold Vm.tableOf
    rw [hpgd]
  have hother : ∀ a, a ≠ page → some a ≠ some page :=
    fun a hne heq => hne (Option.some.inj heq)
  have hentry : ∀ a ∈ l, vm'.entryOf (vm.pmm.va (some a)) =
      vm'.mem (Vm.pteAddr (vm.tableOf (vm.pmm.va (some a)))
        (vm.pmm.va (some a))) := by
    intro a ha
    unfold Vm.entryOf
    rw [htable, if_neg (hs.tableOf_ne ha)]
  refine ⟨hpgd, ?_, ?_, ⟨free', hframes, ?_⟩, ?_, ?_, ?_, ?_, ?_⟩
  · rw [hentry page hpage, hmem, Function.update_self]
  · intro addr hne
    rw [hmem, Function.update_of_ne hne]
  · rw [hpmm]
    exact hlists
  · rw [hrefs, Function.update_self]
  · intro a ha hne k hk pages hpages hin
    rw [hpmm, hlists k hk] at hpages
    obtain rfl := Except.ok.inj hpages
    have hfree : a ∈ frames 17 free' := mem_frames.mpr ⟨k, hk, hin⟩
    rw [hframes] at hfree
    rcases Multiset.mem_cons.mp hfree with heq | hfree
    · exact hne heq
    · exact hs.clock.off a ha hfree
  · intro a ha hne
    have hkept : vm'.entryOf (vm.pmm.va (some a)) =
        vm.entryOf (vm.pmm.va (some a)) := by
      rw [hentry a ha, hs.entryOf_eq ha, hmem,
        Function.update_of_ne (hs.pteAddr_ne ha hpage hne)]
    unfold Mapped
    rw [hva, hstart, hkept]
    exact hs.mapped a ha
  · intro a ha hne
    have hout : a ∉ Pmm.mergeFrames free [page] := by
      intro hin
      rcases Pmm.mem_mergeFrames.mp hin with hfree | heq
      · exact hs.clock.off a ha hfree
      · exact hne (List.mem_singleton.mp heq)
    rw [hpmm, hsame.flags a hout, hdropped]
    exact Function.update_of_ne (hother a hne) ..
  · intro a _ hne
    rw [hrefs, Function.update_of_ne (hother a hne)]

/-- A victim that was released had no page behind it. -/
theorem flags_of_releases (hs : Swappable vm p free l)
    (hrun : vm.swapOut 1 = .ok (1, vm')) {page : ℕ}
    (hvictim : Vm.Victim vm.pmm vm.clockPoint page)
    (hreleases : ReleasesVictim vm vm' free l page) :
    ∀ a ∈ l.dropLast, vm.pmm.flags (some a) = 0 := by
  obtain ⟨page', pte, hvictim', _, hevict⟩ := swapOut_one hrun
  obtain rfl := hvictim.unique hvictim'
  obtain ⟨t, hfree, hvm⟩ := Vm.evict_cases hevict
  change (dropped vm page).freeBuddy (some page) = .ok t at hfree
  obtain ⟨before, hclock⟩ := hs.clock.chain
  obtain ⟨before', skipped, rest, rfl, hchain, hskipped, _⟩ :=
    victim_chain hvictim hclock
  have hpage : page ∈ skipped ++ page :: rest := by simp
  have hmem : ∀ a ∈ page :: rest, a ∈ skipped ++ page :: rest :=
    fun a ha => List.mem_append_right _ ha
  cases rest with
  | nil =>
      rw [List.dropLast_concat]
      exact hskipped
  | cons b rest =>
      exfalso
      obtain rfl := Except.ok.inj (hfree.symm.trans (hs.keeps hchain hmem))
      obtain ⟨free', hframes, hlists⟩ := hreleases.freed
      have hin : page ∈ frames 17 free' := by
        rw [hframes]
        exact Multiset.mem_cons_self ..
      obtain ⟨k, hk, hin⟩ := mem_frames.mp hin
      have hkept : vm'.pmm.pagesFrom (vm'.pmm.pageBlkList k) =
          .ok (free k) := by
        rw [hvm]
        change (dropped vm page).pagesFrom _ = _
        rw [hs.dropped_eq hpage]
        exact Pmm.pagesFrom_eq (hs.represents.chain k hk) fun a ha =>
          hs.represents.bound a (mem_frames.mpr ⟨k, hk, ha⟩)
      rw [hlists k hk] at hkept
      obtain hsame := Except.ok.inj hkept
      rw [hsame] at hin
      exact hs.clock.off page hpage (mem_frames.mpr ⟨k, hk, hin⟩)

/-- `swap_out` releases its victim and nothing else just if the victim is the
last page of the list: the pages in front of it have no flags at all. -/
theorem releasesVictim_iff (hs : Swappable vm p free l)
    (hrun : vm.swapOut 1 = .ok (1, vm')) :
    (∃ page, Vm.Victim vm.pmm vm.clockPoint page ∧
      ReleasesVictim vm vm' free l page) ↔
      ∀ a ∈ l.dropLast, vm.pmm.flags (some a) = 0 := by
  constructor
  · rintro ⟨page, hvictim, hreleases⟩
    exact flags_of_releases hs hrun hvictim hreleases
  intro hzero
  obtain ⟨page, pte, hvictim, hflag, hevict⟩ := swapOut_one hrun
  obtain ⟨t, hfree, hvm⟩ := Vm.evict_cases hevict
  change (dropped vm page).freeBuddy (some page) = .ok t at hfree
  obtain ⟨before, hclock⟩ := hs.clock.chain
  obtain ⟨before', skipped, rest, rfl, hchain, _, hflags⟩ :=
    victim_chain hvictim hclock
  have hpage : page ∈ skipped ++ page :: rest := by simp
  cases rest with
  | nil =>
      obtain ⟨u, free', hu, hframes, hlists, hsame⟩ := hs.frees hchain hpage
      obtain rfl := Except.ok.inj (hfree.symm.trans hu)
      refine ⟨page, hvictim, hs.releases hpage hframes hlists hsame ?_ ?_ ?_⟩
      · rw [hvm, Vm.getpte_addr hflag, hs.entryOf_eq hpage]
        rfl
      · rw [hvm]
        rfl
      · rw [hvm]
        rfl
  | cons b rest =>
      refine absurd (hzero page ?_) hflags
      rw [List.dropLast_append_cons]
      simp

/-! ## With all memory in use -/

/-- The links of pages 0 and 1 of a list. -/
def twoLinks : Links ℕ :=
  Links.join ⟨fun _ => none, fun _ => none⟩ (some 0) (some 1)

/-- No frame is free, pages 0 and 1 are mapped and on the clock list, and page 0
has these flags. -/
def fullMemory (q : Pmm) (flags : Uint) : Vm where
  pmm :=
    { q with
      refNum := fun _ => 1
      flags := fun p => if p = some 0 then flags else PHY_BUSY
      va := fun p => if p = some 0 then 0xE0008000 else 0xE0009000
      links := twoLinks
      pageBlkList := fun _ => none
      blkNum := fun _ => 0 }
  pgd := fun _ => 0x5003
  mem := fun addr => if addr = 0xC0005020 then 0x100007 else 0x101007
  clockPoint := some 0
  swapInitOk := true
  mm := ⟨none, none, fun _ => ⟨none, 0, 0, 0⟩⟩
  io := []

theorem fullMemory_represents (q : Pmm) (flags : Uint) :
    (fullMemory q flags).pmm.Represents (fun _ => []) := by
  have hnone : frames 17 (fun _ => ([] : List ℕ)) = 0 := by simp [frames]
  refine ⟨fun _ _ => rfl, fun _ _ => by simp [fullMemory], ?_, ?_⟩
  · rw [hnone]
    exact Multiset.nodup_zero
  · rw [hnone]
    simp

theorem sixFrames_startAddr {q : Pmm}
    (hinit : Pmm.initBuddy (BuddySession.frameMap 6)
      (.boot BuddySession.zeroPage) = .ok q) :
    q.startAddr (some 0) = 0x100000 ∧ q.startAddr (some 1) = 0x101000 := by
  have hlook : (Pmm.initBuddy (BuddySession.frameMap 6)
      (.boot BuddySession.zeroPage)).toOption.map (fun q =>
        (q.startAddr (some 0), q.startAddr (some 1))) =
      some (0x100000, 0x101000) := by decide +kernel
  rw [hinit] at hlook
  exact Prod.mk.inj (Option.some.inj hlook)

theorem fullMemory_swappable {q : Pmm}
    (hinit : Pmm.initBuddy (BuddySession.frameMap 6)
      (.boot BuddySession.zeroPage) = .ok q) (flags : Uint) :
    Swappable (fullMemory q flags) q (fun _ => []) [0, 1] := by
  have hnone : frames 17 (fun _ => ([] : List ℕ)) = 0 := by simp [frames]
  obtain ⟨_, _, hcount, _⟩ := sixFrames_initial hinit
  obtain ⟨hzero, hone⟩ := sixFrames_startAddr hinit
  have hl : ∀ a ∈ [0, 1], a = 0 ∨ a = 1 := by simp
  have hstart : (fullMemory q flags).pmm.startAddr = q.startAddr := rfl
  refine ⟨⟨_, _, hinit⟩, ?_, fullMemory_represents q flags,
    ⟨⟨none, rfl, rfl, rfl, rfl, rfl⟩, ?_, ?_⟩, fun _ _ => rfl, ?_, ?_⟩
  · rintro a (ha | ha)
    · rw [hnone] at ha
      cases ha
    · refine ⟨?_, rfl⟩
      rw [hcount]
      rcases hl a ha with rfl | rfl <;> norm_num
  · intro a _
    rw [hnone]
    exact Multiset.notMem_zero a
  · intro a ha
    rcases hl a ha with rfl | rfl <;> decide
  · intro a ha
    have hfirst : (fullMemory q flags).entryOf 0xE0008000 = 0x100007 := by
      simp [Vm.entryOf, Vm.tableOf, Vm.pteAddr, fullMemory, pteIdx, PAGE_MASK,
        PAGE_OFFSET]
    have hsecond : (fullMemory q flags).entryOf 0xE0009000 = 0x101007 := by
      simp [Vm.entryOf, Vm.tableOf, Vm.pteAddr, fullMemory, pteIdx, PAGE_MASK,
        PAGE_OFFSET]
    rcases hl a ha with rfl | rfl
    · change (fullMemory q flags).entryOf 0xE0008000 &&& PTE_P ≠ 0 ∧
        (fullMemory q flags).entryOf 0xE0008000 &&& PAGE_MASK = _
      rw [hstart, hzero, hfirst]
      decide
    · change (fullMemory q flags).entryOf 0xE0009000 &&& PTE_P ≠ 0 ∧
        (fullMemory q flags).entryOf 0xE0009000 &&& PAGE_MASK = _
      rw [hstart, hone, hsecond]
      decide
  · intro a ha b hb
    rw [hstart]
    rcases hl a ha with rfl | rfl <;> rcases hl b hb with rfl | rfl <;>
      simp [hzero, hone]

/-- Boot six frames, fill the memory and call `swap_out`. -/
def swapOutFull (flags : Uint) : Option ℕ :=
  (Pmm.initBuddy (BuddySession.frameMap 6)
    (.boot BuddySession.zeroPage)).toOption.bind fun q =>
      ((fullMemory q flags).swapOut 1).toOption.map Prod.fst

theorem fullMemory_swapOut {flags : Uint} (hout : swapOutFull flags = some 1) :
    ∃ q vm', Pmm.initBuddy (BuddySession.frameMap 6)
        (.boot BuddySession.zeroPage) = .ok q ∧
      (fullMemory q flags).swapOut 1 = .ok (1, vm') := by
  obtain ⟨q, hinit, hret⟩ := Option.bind_eq_some_iff.mp hout
  obtain ⟨⟨r, vm'⟩, hret, rfl⟩ := Option.map_eq_some_iff.mp hret
  exact ⟨q, vm', BuddySession.eq_ok_of_toOption hinit,
    BuddySession.eq_ok_of_toOption hret⟩

/-- Page 0 has no flags, and the last page on the list is written out. -/
theorem last_page_released : ∃ q vm',
    Swappable (fullMemory q 0) q (fun _ => []) [0, 1] ∧
      (fullMemory q 0).swapOut 1 = .ok (1, vm') ∧
      ∃ page, ReleasesVictim (fullMemory q 0) vm' (fun _ => []) [0, 1] page := by
  obtain ⟨q, vm', hinit, hswap⟩ :=
    fullMemory_swapOut (show swapOutFull 0 = some 1 by decide +kernel)
  have hs := fullMemory_swappable hinit 0
  have hflags : ∀ a ∈ [0, 1].dropLast,
      (fullMemory q 0).pmm.flags (some a) = 0 := by
    intro a ha
    obtain rfl : a = 0 := by simpa using ha
    rfl
  obtain ⟨page, _, hreleases⟩ := (releasesVictim_iff hs hswap).mpr hflags
  exact ⟨q, vm', hs, hswap, page, hreleases⟩

/-- The first of two pages is written out and stays allocated. -/
theorem first_of_two_not_released : ¬ ∀ (vm vm' : Vm) (p : Pmm)
    (free : Table ℕ) (l : List ℕ), Swappable vm p free l →
      vm.swapOut 1 = .ok (1, vm') → ∃ page,
        Vm.Victim vm.pmm vm.clockPoint page ∧
          ReleasesVictim vm vm' free l page := by
  intro hall
  obtain ⟨q, vm', hinit, hswap⟩ :=
    fullMemory_swapOut (show swapOutFull PHY_BUSY = some 1 by decide +kernel)
  have hs := fullMemory_swappable hinit PHY_BUSY
  obtain ⟨page, hvictim, hreleases⟩ := hall _ _ _ _ _ hs hswap
  have hzero := flags_of_releases hs hswap hvictim hreleases 0
    List.mem_cons_self
  have hbusy : (fullMemory q PHY_BUSY).pmm.flags (some 0) = PHY_BUSY := rfl
  rw [hbusy] at hzero
  exact absurd hzero (by decide)

end Swap

end OS32
