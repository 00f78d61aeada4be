import OS32.BuddyRepresentation

/-!
# `free_buddy` refines putting a block back

The test of `FindBuddy` succeeds on the first block of a list whenever the page
in front has a start address other than 0 and 1, whatever block is being freed.
So `free_buddy` merges as long as the list of the current order is not empty,
which is `BuddyTable.Puts`.
-/

namespace OS32

open NullList BuddyTable

namespace Pmm

variable {s : Pmm} {free : Table ℕ} {k : ℕ} {blk : List ℕ}

/-! ## `check_free_pages` -/

theorem checkFreePagesFrom_eq {before p : PagePtr} {l : List ℕ}
    (hchain : s.links.Chain before p l) {fuel : ℕ} (hfuel : l.length < fuel) :
    s.checkFreePagesFrom fuel p =
      .ok (decide (∀ a ∈ l, s.refNum (some a) = 0)) := by
  induction l generalizing before p fuel with
  | nil =>
      cases fuel with
      | zero => simp at hfuel
      | succ fuel => rw [Links.chain_nil.mp hchain]; simp [checkFreePagesFrom]
  | cons a l ih =>
      obtain ⟨rfl, _, hrest⟩ := hchain
      cases fuel with
      | zero => simp at hfuel
      | succ fuel =>
          rw [checkFreePagesFrom]
          have hzero : 0 < s.refNum (some a) ↔ ¬ s.refNum (some a) = 0 := by
            rw [BitVec.lt_def, ← BitVec.toNat_inj]
            simp [Nat.pos_iff_ne_zero]
          by_cases href : s.refNum (some a) = 0
          · rw [if_neg (by simpa [hzero] using href),
              ih hrest (by simpa using hfuel)]
            simp [href]
          · rw [if_pos (hzero.mpr href), eq_comm, Except.ok.injEq,
              decide_eq_false_iff_not]
            exact fun hall => href (hall a (by simp))

/-- `check_free_pages` passes a block exactly when none of its pages is
referenced. -/
theorem checkFreePages_eq {before p : PagePtr} {l : List ℕ}
    (hchain : s.links.Chain before p l)
    (hbound : ∀ a ∈ l, a < MAX_PG_NUM) :
    s.checkFreePages p =
      .ok (decide (∀ a ∈ l, s.refNum (some a) = 0)) :=
  checkFreePagesFrom_eq hchain
    ((length_le_of_bound hchain.nodup hbound).trans_lt (by decide))

/-! ## `FindBuddy` -/

/-- A start address for which the test of `FindBuddy` succeeds against any
block. -/
def Matchable (s : Pmm) (a : ℕ) : Prop :=
  s.startAddr (some a) ≠ 0 ∧ s.startAddr (some a) ≠ 1

theorem Matchable.isBuddy {a : ℕ} (ha : s.Matchable a) (idx : ℕ)
    (pgBlk : PagePtr) : s.isBuddy idx (some a) pgBlk = true := by
  unfold Pmm.isBuddy
  simp only [decide_eq_true_eq]
  split
  · intro hzero
    exact ha.2 ((BitVec.xor_left_inj _).mp
      (hzero.trans BitVec.xor_self.symm))
  · simpa using ha.1

theorem Represents.findBuddy_nil (hs : s.Represents free) (hk : k < 17)
    (hfree : free k = []) (pgBlk : PagePtr) :
    s.findBuddy pgBlk k = .ok (none, s) := by
  have hcount := hs.count k hk
  rw [hfree] at hcount
  have hturns : (s.blkNum k * pow2 k).toNat = 0 := by
    rw [pow2_eq]
    push_cast
    rw [← hcount]
    rfl
  simp only [findBuddy, checkIndex, hk, if_true, bind, Except.bind, hturns]
  rfl

/-- The first block of a list is always found. -/
theorem Represents.findBuddy_cons (hs : s.Represents free) (hk : k < 17)
    {buddy rest : List ℕ} (hfree : free k = buddy ++ rest)
    (hbuddy : buddy.length = 2 ^ k)
    (hmatch : ∀ a ∈ buddy, s.Matchable a) (pgBlk : PagePtr) :
    s.findBuddy pgBlk k = .ok (buddy.head?, s.dropFirst k rest.head?) := by
  obtain ⟨a, l, rfl⟩ :=
    List.exists_cons_of_ne_nil (ne_nil_of_length_eq_pow hbuddy)
  have hhead : s.pageBlkList k = some a := by
    rw [(hs.chain k hk).head?, hfree]
    rfl
  have hcount := hs.count k hk
  obtain ⟨turns, hturns⟩ : ∃ turns,
      (s.blkNum k * pow2 k).toNat = turns + 1 := by
    refine ⟨(l ++ rest).length, ?_⟩
    rw [pow2_eq]
    push_cast
    rw [← hcount, hfree]
    exact Int.toNat_natCast _
  have htest : s.isBuddy k (some a) pgBlk = true :=
    (hmatch a (by simp)).isBuddy k pgBlk
  have hunlink := unlinkBlk_head_eq s k
  rw [hs.advance_eq hk hfree hbuddy, hhead] at hunlink
  simp only [findBuddy, checkIndex, hk, if_true, bind, Except.bind, hturns,
    hhead, findBuddyFrom, Nat.zero_mod, htest, and_self, hunlink]
  rfl

/-! ## `BlendBlk` -/

/-- The half `BlendBlk` puts first, as a rule on blocks. -/
def first (s : Pmm) (idx : ℕ) (buddy : List ℕ) : Bool :=
  s.buddyIsLow buddy.head? idx

theorem first_congr {s t : Pmm} (h : t.startAddr = s.startAddr) :
    t.first = s.first := by
  funext idx buddy
  simp [first, buddyIsLow, h]

theorem join_spec {links : Links ℕ} {l₁ l₂ : List ℕ} (h₁ : l₁ ≠ [])
    (h₂ : l₂ ≠ []) (hfirst : links.Chain none l₁.head? l₁)
    (hsecond : links.Chain none l₂.head? l₂)
    (hdisjoint : ∀ a ∈ l₁, a ∉ l₂) :
    let links' := links.join (Links.lastPtr none l₁) l₂.head?
    links'.Chain none (l₁ ++ l₂).head? (l₁ ++ l₂) ∧
      Links.AgreeOff {a | a ∈ l₁ ++ l₂} links links' := by
  intro links'
  obtain ⟨l, y, rfl⟩ : ∃ l y, l₁ = l ++ [y] :=
    ⟨_, _, (List.dropLast_append_getLast h₁).symm⟩
  obtain ⟨x, r, rfl⟩ := List.exists_cons_of_ne_nil h₂
  simp only [links', Links.lastPtr_concat, List.head?_cons]
  constructor
  · rw [List.head?_append_of_ne_nil _ h₁]
    exact hfirst.join hsecond hdisjoint
  · apply Links.agreeOff_join <;>
    · rintro a ha
      obtain rfl := Option.some.inj ha
      simp

theorem blendBlk_eq {buddy : List ℕ} (hbuddyne : buddy ≠ [])
    (hblkne : blk ≠ []) (hbuddy : s.links.Chain none buddy.head? buddy)
    (hblk : s.links.Chain none blk.head? blk)
    (hbuddybound : ∀ a ∈ buddy, a < MAX_PG_NUM)
    (hblkbound : ∀ a ∈ blk, a < MAX_PG_NUM)
    (hdisjoint : ∀ a ∈ buddy, a ∉ blk) :
    ∃ t, s.blendBlk buddy.head? blk.head? (k + 1) =
        .ok ((blend s.first k buddy blk).head?, t) ∧
      t.links.Chain none (blend s.first k buddy blk).head?
        (blend s.first k buddy blk) ∧
      SameOff {a | a ∈ buddy ++ blk} s t ∧
      t.pageBlkList = s.pageBlkList ∧ t.blkNum = s.blkNum := by
  have hbuddysome : buddy.head? ≠ none := by
    simpa [List.head?_eq_none_iff] using hbuddyne
  have hblksome : blk.head? ≠ none := by
    simpa [List.head?_eq_none_iff] using hblkne
  unfold blendBlk
  simp only [hbuddysome, hblksome, ne_eq, not_false_eq_true, and_self,
    not_true_eq_false, if_false, bind, Except.bind]
  by_cases hlow : s.buddyIsLow buddy.head? (k + 1) = true
  · have hfirst : blend s.first k buddy blk = buddy ++ blk := by
      simp [blend, first, hlow]
    obtain ⟨hchain, hagree⟩ :=
      join_spec hbuddyne hblkne hbuddy hblk hdisjoint
    rw [if_pos hlow, lastPage_eq hbuddy hbuddyne hbuddybound, hfirst,
      List.head?_append_of_ne_nil _ hbuddyne]
    rw [List.head?_append_of_ne_nil _ hbuddyne] at hchain
    exact ⟨_, rfl, hchain, .of_links hagree rfl rfl rfl rfl rfl, rfl, rfl⟩
  · have hfirst : blend s.first k buddy blk = blk ++ buddy := by
      simp [blend, first, hlow]
    obtain ⟨hchain, hagree⟩ := join_spec hblkne hbuddyne hblk hbuddy
      (fun a ha hab => hdisjoint a hab ha)
    rw [if_neg hlow, lastPage_eq hblk hblkne hblkbound, hfirst,
      List.head?_append_of_ne_nil _ hblkne]
    rw [List.head?_append_of_ne_nil _ hblkne] at hchain
    refine ⟨_, rfl, hchain, ?_, rfl, rfl⟩
    refine .of_links (hagree.mono fun a ha => ?_) rfl rfl rfl rfl rfl
    simpa [or_comm] using ha

/-! ## The merge loop -/

/-- What `free_buddy` may assume of the block it is handed, and keeps of the
block it is merging: it is linked by itself and disjoint from the table. -/
structure Loose (s : Pmm) (free : Table ℕ) (k : ℕ) (blk : List ℕ) : Prop where
  chain : s.links.Chain none blk.head? blk
  length : blk.length = 2 ^ k
  nodup : (frames 17 free + (blk : Multiset ℕ)).Nodup
  bound : ∀ a ∈ frames 17 free + (blk : Multiset ℕ), a < MAX_PG_NUM
  card : (frames 17 free + (blk : Multiset ℕ)).card < 2 ^ 17
  matchable : 1 < (frames 17 free + (blk : Multiset ℕ)).card →
    ∀ a ∈ frames 17 free + (blk : Multiset ℕ), s.Matchable a

/-- A block that meets another one has a page in front of every test. -/
theorem Loose.matchable_of_ne_nil (hblk : Loose s free k blk) (hk : k < 17)
    (hfree : free k ≠ []) :
    ∀ a ∈ frames 17 free + (blk : Multiset ℕ), s.Matchable a := by
  apply hblk.matchable
  have hle := Multiset.card_le_card (coe_le_frames hk free)
  have hlength : 0 < (free k).length := List.length_pos_iff.mpr hfree
  have hpow := Nat.two_pow_pos k
  rw [Multiset.card_add, Multiset.coe_card, hblk.length]
  rw [Multiset.coe_card] at hle
  omega

theorem Loose.block_ne_nil (hblk : Loose s free k blk) : blk ≠ [] :=
  ne_nil_of_length_eq_pow hblk.length

/-- The frames a merge may touch. -/
def mergeFrames (free : Table ℕ) (blk : List ℕ) : Set ℕ :=
  {a | a ∈ frames 17 free + (blk : Multiset ℕ)}

theorem mem_mergeFrames {a : ℕ} :
    a ∈ mergeFrames free blk ↔ a ∈ frames 17 free ∨ a ∈ blk := by
  simp [mergeFrames]

/-- Putting a loose block on an empty list. -/
theorem Represents.insert (hs : s.Represents free) (hk : k < 17)
    (hblk : Loose s free k blk) (hfree : free k = []) :
    ((s.setPageBlkList k blk.head?).addBlkNum k 1).Represents
      (Function.update free k blk) := by
  have hfill := frames_fill hk hfree blk
  refine ⟨?_, ?_, hfill ▸ hblk.nodup, hfill ▸ hblk.bound⟩
  · intro j hj
    by_cases hjk : j = k
    · subst hjk
      simpa using hblk.chain
    · simpa [hjk] using hs.chain j hj
  · intro j hj
    by_cases hjk : j = k
    · subst hjk
      have hcount := hs.count j hj
      rw [hfree] at hcount
      have hzero : s.blkNum j = 0 := by simpa using hcount.symm
      simp [hblk.length, hzero]
    · simpa [hjk] using hs.count j hj

/-- One turn of the merge loop: the first block of the list is taken off and
blended with the block at hand. -/
theorem Represents.merge_step (hs : s.Represents free) (hk : k < 17)
    (hblk : Loose s free k blk) {buddy rest : List ℕ}
    (hfree : free k = buddy ++ rest) (hbuddy : buddy.length = 2 ^ k) :
    ∃ t, (s.dropFirst k rest.head?).blendBlk buddy.head? blk.head? (k + 1) =
        .ok ((blend s.first k buddy blk).head?, t) ∧
      t.Represents (Function.update free k rest) ∧
      Loose t (Function.update free k rest) (k + 1)
        (blend s.first k buddy blk) ∧
      SameOff (mergeFrames free blk) s t := by
  have hframes := frames_drop hk hfree
  have hsum := frames_merge hk s.first blk hfree
  have hdrop := hs.dropFirst hk hfree hbuddy
  have hsame := hs.dropFirst_sameOff hk hfree
  have hnodup := hblk.nodup
  rw [hframes, add_assoc, Multiset.nodup_add] at hnodup
  obtain ⟨_, hrestnodup, hbuddyoff⟩ := hnodup
  have hblkoff := (Multiset.nodup_add.mp hrestnodup).2.2
  have hdisjoint : ∀ a ∈ buddy, a ∉ blk := fun a ha hab =>
    Multiset.disjoint_left.mp hbuddyoff ha
      (Multiset.mem_add.mpr (Or.inr hab))
  have hblkfree : ∀ a ∈ blk, a ∉ {a | a ∈ free k} := fun a ha hak =>
    Multiset.disjoint_left.mp (Multiset.nodup_add.mp hblk.nodup).2.2
      (mem_frames.mpr ⟨k, hk, hak⟩) ha
  have hbuddyne := ne_nil_of_length_eq_pow hbuddy
  have hbuddymem : ∀ a ∈ buddy, a ∈ frames 17 free := fun a ha =>
    mem_frames.mpr ⟨k, hk, by rw [hfree]; exact List.mem_append_left _ ha⟩
  have hbuddychain := (hs.blk_chain_dropFirst hk hfree hbuddy).1
  rw [(hs.chain k hk).head?, hfree, List.head?_append_of_ne_nil _ hbuddyne]
    at hbuddychain
  have hrule : (s.dropFirst k rest.head?).first = s.first :=
    first_congr hsame.startAddr
  obtain ⟨t, hblend, hchain, hoff, hlist, hnum⟩ :=
    blendBlk_eq (k := k) hbuddyne hblk.block_ne_nil hbuddychain
      (hsame.links.chain hblkfree hblk.chain)
      (fun a ha => hs.bound a (hbuddymem a ha))
      (fun a ha => hblk.bound a (Multiset.mem_add.mpr (Or.inr ha)))
      hdisjoint
  rw [hrule] at hblend hchain
  have hall : SameOff (mergeFrames free blk) s t := by
    refine (hsame.mono ?_).trans (hoff.mono ?_)
    · exact fun a ha =>
        mem_mergeFrames.mpr (Or.inl (mem_frames.mpr ⟨k, hk, ha⟩))
    · intro a ha
      rcases List.mem_append.mp ha with ha | ha
      · exact mem_mergeFrames.mpr (Or.inl (hbuddymem a ha))
      · exact mem_mergeFrames.mpr (Or.inr ha)
  refine ⟨t, hblend, ⟨?_, ?_, hdrop.nodup, hdrop.bound⟩,
    ⟨hchain, ?_, hsum ▸ hblk.nodup, hsum ▸ hblk.bound, hsum ▸ hblk.card, ?_⟩,
    hall⟩
  · intro j hj
    rw [hlist]
    refine hoff.links.chain ?_ (hdrop.chain j hj)
    intro a ha hab
    have hmem : a ∈ frames 17 (Function.update free k rest) :=
      mem_frames.mpr ⟨j, hj, ha⟩
    rcases List.mem_append.mp hab with hab | hab
    · exact Multiset.disjoint_left.mp hbuddyoff hab
        (Multiset.mem_add.mpr (Or.inl hmem))
    · exact Multiset.disjoint_left.mp hblkoff hmem hab
  · intro j hj
    rw [hnum]
    exact hdrop.count j hj
  · rw [blend_length, hbuddy, hblk.length, pow_succ]
    ring
  · rw [hsum]
    intro hcard a ha
    have := hblk.matchable hcard a ha
    unfold Matchable at this ⊢
    rwa [hall.startAddr]

/-- The merge loop and the insertion that follows it. -/
theorem Represents.mergeLoop (hs : s.Represents free) (hk : k < 17)
    (hblk : Loose s free k blk) {fuel : ℕ} (hfuel : 17 ≤ fuel + k) :
    ∃ t free₁ blk₁ k₁, s.mergeLoop fuel blk.head? k =
        .ok (blk₁.head?, k₁, t) ∧ k₁ < 17 ∧
      t.Represents free₁ ∧ free₁ k₁ = [] ∧ Loose t free₁ k₁ blk₁ ∧
      Puts s.first k blk free (Function.update free₁ k₁ blk₁) ∧
      SameOff (mergeFrames free blk) s t := by
  induction fuel generalizing s free k blk with
  | zero => omega
  | succ fuel ih =>
      by_cases hfree : free k = []
      · refine ⟨s, free, blk, k, ?_, hk, hs, hfree, hblk, .rest hfree,
          .refl _ _⟩
        simp only [Pmm.mergeLoop, hs.findBuddy_nil hk hfree, bind,
          Except.bind, if_true]
        rfl
      · obtain ⟨buddy, rest, hparts, hbuddy⟩ := hs.exists_block hk hfree
        have hbuddymem : ∀ a ∈ buddy, a ∈ frames 17 free := fun a ha =>
          mem_frames.mpr
            ⟨k, hk, by rw [hparts]; exact List.mem_append_left _ ha⟩
        have hfind := hs.findBuddy_cons hk hparts hbuddy
          (fun a ha => hblk.matchable_of_ne_nil hk hfree a
            (Multiset.mem_add.mpr (Or.inl (hbuddymem a ha)))) blk.head?
        have hsome : buddy.head? ≠ none := by
          rw [ne_eq, List.head?_eq_none_iff]
          exact ne_nil_of_length_eq_pow hbuddy
        have hnext := merge_order_lt hk hblk.length hparts hbuddy hblk.card
        obtain ⟨u, hblend, hu, hloose, hsame⟩ :=
          hs.merge_step hk hblk hparts hbuddy
        obtain ⟨t, free₁, blk₁, k₁, hloop, hk₁, ht, hempty, hloose₁, hputs,
          hsame₁⟩ := ih hu hnext hloose (by omega)
        rw [mergeFrames, frames_merge hk s.first blk hparts] at hsame₁
        rw [first_congr hsame.startAddr] at hputs
        refine ⟨t, free₁, blk₁, k₁, ?_, hk₁, ht, hempty, hloose₁,
          .merge hparts hbuddy hputs, hsame.trans hsame₁⟩
        simp only [Pmm.mergeLoop, hfind, bind, Except.bind, hsome, if_false,
          hblend]
        exact hloop

/-- `free_buddy` refuses a block with a referenced page. -/
theorem freeBuddy_refused {p : PagePtr} (hcheck : s.checkFreePages p = .ok false) :
    s.freeBuddy p = .ok s := by
  simp only [freeBuddy, hcheck, bind, Except.bind, if_true]
  rfl

/-- `free_buddy` puts an unreferenced loose block back. -/
theorem Represents.freeBuddy (hs : s.Represents free) (hk : k < 17)
    (hblk : Loose s free k blk)
    (hzero : ∀ a ∈ blk, s.refNum (some a) = 0) :
    ∃ t free', s.freeBuddy blk.head? = .ok t ∧
      Puts s.first k blk free free' ∧ t.Represents free' ∧
      SameOff (mergeFrames free blk) s t := by
  have hbound : ∀ a ∈ blk, a < MAX_PG_NUM := fun a ha =>
    hblk.bound a (Multiset.mem_add.mpr (Or.inr ha))
  have hcheck : s.checkFreePages blk.head? = .ok true := by
    rw [checkFreePages_eq hblk.chain hbound, decide_eq_true hzero]
  have hpages := pagesFrom_eq hblk.chain hbound
  obtain ⟨flags, hfold, hoff⟩ :=
    foldl_setFlags_eq (fun _ => PHY_FREE) blk s
  have hflags : SameOff (mergeFrames free blk) s
      { s with flags := flags } := by
    refine ⟨.refl _ _, fun a ha => hoff a fun hab => ha ?_, rfl, rfl, rfl,
      rfl⟩
    exact mem_mergeFrames.mpr (Or.inr hab)
  have hs' := hs.withFlags flags
  have hblk' : Loose { s with flags := flags } free k blk :=
    ⟨hblk.chain, hblk.length, hblk.nodup, hblk.bound, hblk.card,
      hblk.matchable⟩
  have hcount : countPages { s with flags := flags } blk.head? =
      .ok (2 ^ k) := by
    rw [countPages_eq hblk'.chain hbound, hblk.length]
  have hlog := log2_two_pow (show k < 32 by omega)
  have hindex : checkIndex k = .ok () := by simp [checkIndex, hk]
  unfold Pmm.freeBuddy
  simp only [hcheck, hpages, hfold, hcount, hlog, hindex, bind, Except.bind,
    Bool.true_eq_false, if_false]
  by_cases hfree : free k = []
  · have hnone : s.pageBlkList k = none :=
      (hs.pageBlkList_eq_none hk).mpr hfree
    rw [if_pos hnone]
    exact ⟨_, _, rfl, .rest hfree, hs'.insert hk hblk' hfree,
      hflags.trans (.of_links (.refl _ _) rfl rfl rfl rfl rfl)⟩
  · have hsome : ¬ s.pageBlkList k = none :=
      mt (hs.pageBlkList_eq_none hk).mp hfree
    obtain ⟨t, free₁, blk₁, k₁, hloop, hk₁, ht, hempty, hloose, hputs,
      hsame⟩ := hs'.mergeLoop hk hblk' (show 17 ≤ 18 + k by omega)
    have hnone : t.pageBlkList k₁ = none :=
      (ht.pageBlkList_eq_none hk₁).mpr hempty
    have hindex₁ : checkIndex k₁ = .ok () := by simp [checkIndex, hk₁]
    rw [if_neg hsome]
    simp only [hloop, hindex₁, hnone, if_true]
    exact ⟨_, _, rfl, hputs, ht.insert hk₁ hloose hempty,
      (hflags.trans hsame).trans
        (.of_links (.refl _ _) rfl rfl rfl rfl rfl)⟩

end Pmm

end OS32
