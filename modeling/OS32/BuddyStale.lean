import OS32.BuddyFreeRefinement

/-!
# Freeing a block whose head has a predecessor

`free_buddy` never reads `prev` of the block it is handed, so a stale pointer
there stays or is overwritten, and the free lists are the same by their `next`
pointers.
-/

namespace OS32

open NullList BuddyTable Links

namespace Pmm

variable {s t : Pmm} {free : Table ℕ} {k : ℕ} {blk : List ℕ} {p q r : PagePtr}

/-- `p->prev` is `q` instead. -/
def stale (s : Pmm) (p q : PagePtr) : Pmm := s.setLinks (s.links.setPrev p q)

theorem stale_self (s : Pmm) (p : PagePtr) : s.stale p (s.links.prev p) = s := by
  simp [stale, setLinks, setPrev]

theorem stale_stale (s : Pmm) (p q r : PagePtr) :
    (s.stale p q).stale p r = s.stale p r := by
  simp [stale, setLinks, setPrev]

theorem tail_setPrev (m : Links ℕ) (p q r : PagePtr) (fuel : ℕ) :
    (m.setPrev p q).tail fuel r = m.tail fuel r := by
  induction fuel generalizing r with
  | zero => rfl
  | succ fuel ih =>
      unfold tail
      rw [setPrev_next]
      cases m.next r with
      | none => rfl
      | some a => exact ih _

theorem nodes_setPrev (m : Links ℕ) (p q r : PagePtr) (fuel : ℕ) :
    (m.setPrev p q).nodes fuel r = m.nodes fuel r := by
  induction fuel generalizing r with
  | zero => rfl
  | succ fuel ih =>
      cases r with
      | none => rfl
      | some a =>
          unfold nodes
          rw [setPrev_next, ih]

theorem stale_lastPage (s : Pmm) (p q r : PagePtr) :
    (s.stale p q).lastPage r = s.lastPage r := by
  unfold lastPage
  rw [show (s.stale p q).links.tail walkBound r = s.links.tail walkBound r from
    tail_setPrev s.links p q r walkBound]

theorem stale_pagesFrom (s : Pmm) (p q r : PagePtr) :
    (s.stale p q).pagesFrom r = s.pagesFrom r := by
  unfold pagesFrom
  rw [show (s.stale p q).links.nodes walkBound r = s.links.nodes walkBound r from
    nodes_setPrev s.links p q r walkBound]

/-- A stale pointer in a frame of `S`, and what does not touch `S` otherwise. -/
theorem sameOff_stale {S : Set ℕ} (hp : ∀ a, p = some a → a ∈ S) (q : PagePtr)
    {j : ℕ} {n : ℤ} :
    SameOff S s (((s.stale p q).setPageBlkList j p).addBlkNum j n) :=
  .of_links (agreeOff_setPrev _ q hp) rfl rfl rfl rfl rfl

theorem Represents.stale (hs : s.Represents free)
    (hp : ∀ a ∈ frames 17 free, some a ≠ p) : (s.stale p q).Represents free := by
  refine ⟨fun j hj => ?_, hs.count, hs.nodup, hs.bound⟩
  refine (hs.chain j hj).setPrev q ?_
  intro a ha
  exact hp a (mem_frames.mpr ⟨j, hj, ha⟩)

theorem cutBefore_setPrev (m : Links ℕ) (hr : r ≠ p) :
    (m.setPrev p q).cutBefore r = (m.cutBefore r).setPrev p q := by
  simp only [Links.cutBefore, setPrev, setNext]
  rw [Function.update_of_ne hr, Function.update_comm hr.symm]

theorem dropFirst_stale (s : Pmm) (k : ℕ) (hr : r ≠ p) :
    (s.stale p q).dropFirst k r = (s.dropFirst k r).stale p q := by
  unfold dropFirst
  by_cases hnone : r = none
  · simp [hnone]
    rfl
  · have hcut := cutBefore_setPrev (q := q) s.links hr
    simp only [ne_eq, hnone, not_false_eq_true, if_true]
    unfold Pmm.cutBefore
    rw [show (s.stale p q).links.cutBefore r = _ from hcut]
    rfl

/-- Joining something to `p` overwrites its predecessor. -/
theorem join_stale (s : Pmm) (p q r : PagePtr) :
    (s.stale p q).setLinks ((s.stale p q).links.join r p) =
      s.setLinks (s.links.join r p) := by
  simp [stale, setLinks, join, setPrev, setNext]

theorem join_stale_of_ne (s : Pmm) {x : PagePtr} (hx : x ≠ p) :
    (s.stale p q).setLinks ((s.stale p q).links.join r x) =
      (s.setLinks (s.links.join r x)).stale p q := by
  simp only [stale, setLinks, join, setPrev, setNext]
  rw [Function.update_comm hx.symm]

/-- `BlendBlk` overwrites the stale pointer or leaves it at the head of the
block. -/
theorem blendBlk_stale {buddyBlk res : PagePtr} {idx : ℕ} (hne : buddyBlk ≠ p)
    (hblend : s.blendBlk buddyBlk p idx = .ok (res, t)) (q : PagePtr) :
    ∃ q', (s.stale p q).blendBlk buddyBlk p idx = .ok (res, t.stale res q') := by
  unfold blendBlk at hblend ⊢
  by_cases hnull : ¬ (buddyBlk ≠ none ∧ p ≠ none)
  · rw [if_pos hnull] at hblend
    cases hblend
  · rw [if_neg hnull] at hblend ⊢
    have hlow : (s.stale p q).buddyIsLow buddyBlk idx =
        s.buddyIsLow buddyBlk idx := rfl
    rw [hlow]
    cases hcase : s.buddyIsLow buddyBlk idx with
    | true =>
        rw [hcase] at hblend
        obtain ⟨last, hlast, hret⟩ := bind_ok_iff.mp hblend
        obtain ⟨rfl, rfl⟩ := Prod.mk.inj (Except.ok.inj hret)
        change s.lastPage buddyBlk = .ok last at hlast
        refine ⟨(s.links.join last p).prev buddyBlk, ?_⟩
        change ((s.stale p q).lastPage buddyBlk).bind _ = _
        rw [stale_lastPage, hlast]
        change Except.ok (buddyBlk, (s.stale p q).setLinks _) = _
        rw [join_stale]
        exact congrArg (fun u => Except.ok (buddyBlk, u))
          (stale_self (s.setLinks (s.links.join last p)) buddyBlk).symm
    | false =>
        rw [hcase] at hblend
        obtain ⟨last, hlast, hret⟩ := bind_ok_iff.mp hblend
        obtain ⟨rfl, rfl⟩ := Prod.mk.inj (Except.ok.inj hret)
        change s.lastPage p = .ok last at hlast
        refine ⟨q, ?_⟩
        change ((s.stale p q).lastPage p).bind _ = _
        rw [stale_lastPage, hlast]
        exact congrArg (fun u => Except.ok (p, u)) (join_stale_of_ne s hne)

theorem Loose.head_ne (hblk : Loose s free k blk) {a : ℕ}
    (ha : a ∈ frames 17 free) : some a ≠ blk.head? := by
  intro heq
  have hmem : a ∈ blk := List.mem_of_mem_head? heq.symm
  exact Multiset.disjoint_left.mp (Multiset.nodup_add.mp hblk.nodup).2.2 ha
    hmem

/-- The list of an order does not start with the head of a loose block. -/
theorem Loose.head?_ne (hblk : Loose s free k blk) {l : List ℕ}
    (hl : ∀ a ∈ l, a ∈ frames 17 free) : l.head? ≠ blk.head? := by
  cases l with
  | nil =>
      intro heq
      exact hblk.block_ne_nil (List.head?_eq_none_iff.mp heq.symm)
  | cons a l => exact hblk.head_ne (hl a List.mem_cons_self)

/-- The merge loop on a block with a stale pointer at its head. -/
theorem Represents.mergeLoop_stale (hs : s.Represents free) (hk : k < 17)
    (hblk : Loose s free k blk) {fuel : ℕ} (hfuel : 17 ≤ fuel + k)
    (q : PagePtr) :
    ∃ t free₁ blk₁ k₁ q₁, (s.stale blk.head? q).mergeLoop fuel blk.head? k =
        .ok (blk₁.head?, k₁, t.stale blk₁.head? q₁) ∧ k₁ < 17 ∧
      t.Represents free₁ ∧ free₁ k₁ = [] ∧ Loose t free₁ k₁ blk₁ ∧
      Puts s.first k blk free (Function.update free₁ k₁ blk₁) ∧
      SameOff (mergeFrames free blk) s t := by
  induction fuel generalizing s free k blk q with
  | zero => omega
  | succ fuel ih =>
      have hstale : (s.stale blk.head? q).Represents free :=
        hs.stale fun a ha => hblk.head_ne ha
      by_cases hfree : free k = []
      · refine ⟨s, free, blk, k, q, ?_, hk, hs, hfree, hblk, .rest hfree,
          .refl _ _⟩
        unfold Pmm.mergeLoop
        rw [hstale.findBuddy_nil hk hfree]
        rfl
      · obtain ⟨buddy, rest, hparts, hbuddy⟩ := hs.exists_block hk hfree
        have hmem : ∀ a ∈ buddy ++ rest, a ∈ frames 17 free := fun a ha =>
          mem_frames.mpr ⟨k, hk, hparts ▸ ha⟩
        have hfind := hstale.findBuddy_cons hk hparts hbuddy
          (fun a ha => hblk.matchable_of_ne_nil hk hfree a (Multiset.mem_add.mpr
            (Or.inl (hmem a (List.mem_append_left _ ha))))) blk.head?
        have hbuddyne := hblk.head?_ne fun a ha =>
          hmem a (List.mem_append_left _ ha)
        have hrestne := hblk.head?_ne fun a ha =>
          hmem a (List.mem_append_right _ ha)
        rw [dropFirst_stale s k hrestne] at hfind
        have hsome : buddy.head? ≠ none := by
          rw [ne_eq, List.head?_eq_none_iff]
          exact ne_nil_of_length_eq_pow hbuddy
        have hnext := merge_order_lt hk hblk.length hparts hbuddy hblk.card
        obtain ⟨u, hblend, hu, hloose, hsame⟩ :=
          hs.merge_step hk hblk hparts hbuddy
        obtain ⟨q', hblend'⟩ := blendBlk_stale hbuddyne hblend q
        obtain ⟨t, free₁, blk₁, k₁, q₁, hloop, hk₁, ht, hempty, hloose₁,
          hputs, hsame₁⟩ := ih hu hnext hloose (by omega) q'
        rw [mergeFrames, frames_merge hk s.first blk hparts] at hsame₁
        rw [first_congr hsame.startAddr] at hputs
        refine ⟨t, free₁, blk₁, k₁, q₁, ?_, hk₁, ht, hempty, hloose₁,
          .merge hparts hbuddy hputs, hsame.trans hsame₁⟩
        simp only [Pmm.mergeLoop, hfind, bind, Except.bind, hsome, if_false,
          hblend']
        exact hloop

/-- `free_buddy` on a block with a stale pointer at its head: the free lists
gain the block, as far as `next` leads. -/
theorem Represents.freeBuddy_stale (hs : s.Represents free) (hk : k < 17)
    (hblk : Loose s free k blk)
    (hzero : ∀ a ∈ blk, s.refNum (some a) = 0) (q : PagePtr) :
    ∃ t free', (s.stale blk.head? q).freeBuddy blk.head? = .ok t ∧
      Puts s.first k blk free free' ∧
      (∀ j < 17, t.pagesFrom (t.pageBlkList j) = .ok (free' j)) ∧
      SameOff (mergeFrames free blk) s t := by
  have hbound : ∀ a ∈ blk, a < MAX_PG_NUM := fun a ha =>
    hblk.bound a (Multiset.mem_add.mpr (Or.inr ha))
  have hlists : ∀ {u : Pmm} {f : Table ℕ}, u.Represents f → ∀ p q' : PagePtr,
      ∀ j < 17, (u.stale p q').pagesFrom (u.pageBlkList j) = .ok (f j) := by
    intro u f hu p q' j hj
    rw [stale_pagesFrom]
    exact pagesFrom_eq (hu.chain j hj)
      fun a ha => hu.bound a (mem_frames.mpr ⟨j, hj, ha⟩)
  have hchain : (s.stale blk.head? q).links.Chain q blk.head? blk := by
    obtain ⟨a, l, rfl⟩ := List.exists_cons_of_ne_nil hblk.block_ne_nil
    exact Chain.setPrev_head hblk.chain q
  have hcheck : (s.stale blk.head? q).checkFreePages blk.head? = .ok true := by
    rw [checkFreePages_eq hchain hbound]
    exact congrArg Except.ok (decide_eq_true hzero)
  have hpages := pagesFrom_eq hchain hbound
  obtain ⟨flags, hfold, hoff⟩ :=
    foldl_setFlags_eq (fun _ => PHY_FREE) blk (s.stale blk.head? q)
  have hflags : SameOff (mergeFrames free blk) s { s with flags := flags } := by
    refine ⟨.refl _ _, fun a ha => hoff a fun hab => ha ?_, rfl, rfl, rfl, rfl⟩
    exact mem_mergeFrames.mpr (Or.inr hab)
  have hs' := hs.withFlags flags
  have hblk' : Loose { s with flags := flags } free k blk :=
    ⟨hblk.chain, hblk.length, hblk.nodup, hblk.bound, hblk.card, hblk.matchable⟩
  have hsame : { s.stale blk.head? q with flags := flags } =
      Pmm.stale { s with flags := flags } blk.head? q := rfl
  have hcount : (Pmm.stale { s with flags := flags } blk.head? q).countPages
      blk.head? = .ok (2 ^ k) := by
    have hchain' : (Pmm.stale { s with flags := flags } blk.head? q).links.Chain
        q blk.head? blk := hchain
    rw [countPages_eq hchain' hbound, hblk.length]
  have hlog := log2_two_pow (show k < 32 by omega)
  have hindex : checkIndex k = .ok () := by simp [checkIndex, hk]
  unfold Pmm.freeBuddy
  simp only [hcheck, hpages, hfold, hsame, hcount, hlog, hindex, bind,
    Except.bind, Bool.true_eq_false, if_false]
  have hlist : (Pmm.stale { s with flags := flags } blk.head? q).pageBlkList k =
      s.pageBlkList k := rfl
  rw [hlist]
  by_cases hfree : free k = []
  · have hnone : s.pageBlkList k = none :=
      (hs.pageBlkList_eq_none hk).mpr hfree
    rw [if_pos hnone]
    refine ⟨_, _, rfl, .rest hfree, hlists (hs'.insert hk hblk' hfree) _ q, ?_⟩
    refine hflags.trans (sameOff_stale ?_ q)
    intro a ha
    exact mem_mergeFrames.mpr (Or.inr (List.mem_of_mem_head? ha))
  · have hsome : ¬ s.pageBlkList k = none :=
      mt (hs.pageBlkList_eq_none hk).mp hfree
    obtain ⟨t, free₁, blk₁, k₁, q₁, hloop, hk₁, ht, hempty, hloose, hputs,
      hsame₁⟩ := hs'.mergeLoop_stale hk hblk' (show 17 ≤ 18 + k by omega) q
    have hnone : (t.stale blk₁.head? q₁).pageBlkList k₁ = none :=
      (ht.pageBlkList_eq_none hk₁).mpr hempty
    have hindex₁ : checkIndex k₁ = .ok () := by simp [checkIndex, hk₁]
    rw [if_neg hsome]
    simp only [hloop, hindex₁, hnone, if_true]
    refine ⟨_, _, rfl, hputs, hlists (ht.insert hk₁ hloose hempty) _ q₁, ?_⟩
    refine (hflags.trans hsame₁).trans (sameOff_stale ?_ q₁)
    intro a ha
    have hmem : a ∈ frames 17 (Function.update free₁ k₁ blk₁) := by
      refine mem_frames.mpr ⟨k₁, hk₁, ?_⟩
      rw [Function.update_self]
      exact List.mem_of_mem_head? ha
    rw [hputs.frames_eq hk hblk.length hblk.card] at hmem
    exact hmem

end Pmm

end OS32
