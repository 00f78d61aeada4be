import OS32.BuddyRepresentation

/-!
# `alloc_buddy` refines taking a block

On a state that represents a table of free blocks, `alloc_buddy` fails or takes
a block in the sense of `BuddyTable.Takes`.  The list below the order at which
it splits is always empty, so `SplitBlock` goes through its NULL pointer on
every call, and the loop meant to split again never turns.
-/

namespace OS32

open NullList BuddyTable

namespace Pmm

/-! ## `SplitBlock` -/

/-- The links written by the second half of `SplitBlock`, when the list of the
next lower order is empty and so `p` is NULL. -/
def halve (links : Links ℕ) (blk0 p : PagePtr) : Links ℕ :=
  ((links.setPrev blk0 none).setNext none blk0).cutBefore p

theorem prepared_chain {links : Links ℕ} {p : PagePtr} {y : ℕ}
    {l : List ℕ} (hchain : links.Chain none p (y :: l)) :
    ((links.setPrev p none).setNext none p).Chain none p (y :: l) := by
  refine Links.Chain.setNext ?_ p (by simp)
  obtain rfl : p = some y := hchain.1
  exact hchain.setPrev_head none

theorem halve_spec {links : Links ℕ} {p : PagePtr} {low high : List ℕ}
    (hchain : links.Chain none p (low ++ high)) (hlow : low ≠ [])
    (hhigh : high ≠ []) :
    (halve links p high.head?).Chain none p low ∧
      (halve links p high.head?).Chain none high.head? high ∧
      Links.AgreeOff {a | a ∈ low ++ high} links
        (halve links p high.head?) := by
  obtain ⟨x, high, rfl⟩ := List.exists_cons_of_ne_nil hhigh
  obtain ⟨y, low, rfl⟩ := List.exists_cons_of_ne_nil hlow
  have hp : p = some y := hchain.1
  have hprepared := prepared_chain hchain
  have hcut := hprepared.cutBefore (List.cons_ne_nil y low)
  refine ⟨hcut.1, hcut.2, ?_⟩
  refine Links.AgreeOff.trans ?_ hprepared.agreeOff_cutBefore
  refine (Links.agreeOff_setPrev links none ?_).trans
    (Links.agreeOff_setNext _ p (by simp))
  intro a ha
  obtain rfl : y = a := by simpa [hp] using ha
  simp

theorem halveInto_eq {s : Pmm} {nextid : ℕ} {blk0 p : PagePtr}
    (hlist : s.pageBlkList nextid = none) (hzero : s.blkNum nextid = 0)
    (hadvance : ((s.links.setPrev blk0 none).setNext none blk0).advance
      (2 ^ nextid) blk0 = p) :
    s.halveInto nextid blk0 =
      (p, ((s.setPageBlkList nextid blk0).addBlkNum nextid 1).setLinks
        (halve s.links blk0 p)) := by
  have hstay : ((-1 : ℤ)).toNat = 0 := rfl
  unfold halveInto
  simp only [hlist, hzero, mul_zero, zero_sub, hstay, Links.advance, if_true,
    setPageBlkList_links, setLinks_links, addBlkNum_links,
    Links.setNext_next_self, pow2_eq, hadvance]
  simp only [cutBefore, setLinks_links, addBlkNum_links, halve]
  simp [setLinks, addBlkNum, setPageBlkList, hzero]

section Split

variable {s : Pmm} {free : Table ℕ} {i : ℕ} {low high rest : List ℕ}

/-- The branch of `SplitBlock` on `blk_num > 1` tests whether a block stays
behind. -/
theorem Represents.one_lt_blkNum_iff (hs : s.Represents free) {k : ℕ}
    (hk : k < 17) {blk : List ℕ} (hfree : free k = blk ++ rest)
    (hlength : blk.length = 2 ^ k) :
    1 < s.blkNum k ↔ rest.head? ≠ none := by
  have hcount := hs.count k hk
  rw [hfree, List.length_append, hlength] at hcount
  push_cast at hcount
  have hrest : (rest.length : ℤ) = (s.blkNum k - 1) * 2 ^ k := by
    rw [sub_mul]
    omega
  have hpow : (0 : ℤ) < 2 ^ k := by positivity
  cases rest with
  | nil =>
      simp only [List.length_nil, Nat.cast_zero] at hrest
      have := (mul_eq_zero.mp hrest.symm).resolve_right hpow.ne'
      simp
      omega
  | cons x rest =>
      have hpositive : (0 : ℤ) < (s.blkNum k - 1) * 2 ^ k := by
        rw [← hrest]
        simp
      have := (mul_pos_iff_of_pos_right hpow).mp hpositive
      simp
      omega

/-- With an empty list below, `SplitBlock` cuts the first block off, halves it
and keeps the first half. -/
theorem Represents.splitBlock_eq (hs : s.Represents free) (hi : i < 17)
    (hpos : 0 < i) (hempty : free (i - 1) = [])
    (hfree : free i = low ++ high ++ rest)
    (hlow : low.length = 2 ^ (i - 1)) (hhigh : high.length = 2 ^ (i - 1)) :
    let t := s.dropFirst i rest.head?
    s.splitBlock i =
      (high.head?,
        ((t.setPageBlkList (i - 1) (s.pageBlkList i)).addBlkNum (i - 1) 1).setLinks
          (halve t.links (s.pageBlkList i) high.head?)) := by
  intro t
  have hne : i - 1 ≠ i := by omega
  have hlowne := ne_nil_of_length_eq_pow hlow
  have hlength : (low ++ high).length = 2 ^ i := by
    rw [List.length_append, hlow, hhigh, ← two_mul, ← pow_succ']
    congr 1
    omega
  have hadvance := hs.advance_eq hi hfree hlength
  have hmany := hs.one_lt_blkNum_iff hi hfree hlength
  have hcut : (if 1 < s.blkNum i then
        (s.setPageBlkList i rest.head?).cutBefore rest.head?
      else s.setPageBlkList i none).addBlkNum i (-1) = t := by
    by_cases h : 1 < s.blkNum i
    · simp only [t, Pmm.dropFirst, if_pos h, if_pos (hmany.mp h)]
      rfl
    · have hnone : rest.head? = none := by
        simpa using mt hmany.mpr h
      simp [t, Pmm.dropFirst, if_neg h, hnone]
  have hlist : t.pageBlkList (i - 1) = none := by
    have hchain := hs.chain (i - 1) (by omega)
    rw [hempty] at hchain
    simpa [t, hne] using hchain
  have hzero : t.blkNum (i - 1) = 0 := by
    have hcount := hs.count (i - 1) (by omega)
    rw [hempty] at hcount
    simpa [t, hne] using hcount.symm
  have hhalf : ((t.links.setPrev (s.pageBlkList i) none).setNext none
      (s.pageBlkList i)).advance (2 ^ (i - 1)) (s.pageBlkList i) =
        high.head? := by
    have hchain := (hs.blk_chain_dropFirst hi hfree hlength).1
    obtain ⟨y, low, rfl⟩ := List.exists_cons_of_ne_nil hlowne
    have hprepared := prepared_chain (l := low ++ high) hchain
    rw [← List.cons_append] at hprepared
    obtain ⟨q, hfirst, hsecond⟩ := Links.chain_append.mp hprepared
    rw [← hlow, hfirst.advance, hsecond.head?]
  unfold splitBlock
  simp only [pow2_eq, hadvance, hcut]
  exact halveInto_eq hlist hzero hhalf

/-- With an empty list below, `SplitBlock` keeps the first half of the first
block on that list and returns the second half. -/
theorem Represents.splitBlock (hs : s.Represents free) (hi : i < 17)
    (hpos : 0 < i) (hempty : free (i - 1) = [])
    (hfree : free i = low ++ high ++ rest)
    (hlow : low.length = 2 ^ (i - 1)) (hhigh : high.length = 2 ^ (i - 1)) :
    ∃ t, s.splitBlock i = (high.head?, t) ∧
      t.Represents
        (Function.update (Function.update free i rest) (i - 1) low) ∧
      t.links.Chain none high.head? high ∧
      SameOff {a | a ∈ free i} s t := by
  have hlowne := ne_nil_of_length_eq_pow hlow
  have hhighne := ne_nil_of_length_eq_pow hhigh
  have hlength : (low ++ high).length = 2 ^ i := by
    rw [List.length_append, hlow, hhigh, ← two_mul, ← pow_succ']
    congr 1
    omega
  have hdrop := hs.dropFirst hi hfree hlength
  have hsame := hs.dropFirst_sameOff hi hfree
  have hblk := (hs.blk_chain_dropFirst hi hfree hlength).1
  have hlist : (s.dropFirst i rest.head?).blkNum (i - 1) = 0 := by
    have hcount := hs.count (i - 1) (by omega)
    rw [hempty] at hcount
    simpa [show i - 1 ≠ i by omega] using hcount.symm
  obtain ⟨hlowchain, hhighchain, hagree⟩ :=
    halve_spec hblk hlowne hhighne
  have hframes := frames_drop hi hfree
  have hnodup := hs.nodup
  rw [hframes, Multiset.nodup_add] at hnodup
  have hemptied : (Function.update free i rest) (i - 1) = [] := by
    rw [Function.update_of_ne (by omega : i - 1 ≠ i), hempty]
  have hfill := frames_fill (by omega : i - 1 < 17) hemptied low
  have hle : frames 17
      (Function.update (Function.update free i rest) (i - 1) low) ≤
        frames 17 free := by
    rw [hfill, hframes, add_comm]
    exact add_le_add_left (Multiset.coe_le.mpr
      (List.sublist_append_left low high).subperm) _
  refine ⟨_, hs.splitBlock_eq hi hpos hempty hfree hlow hhigh,
    ⟨?_, ?_, Multiset.nodup_of_le hle hs.nodup,
      fun a ha => hs.bound a (Multiset.mem_of_le hle ha)⟩,
    hhighchain, ?_⟩
  · intro k hk
    by_cases hki : k = i - 1
    · subst hki
      simpa using hlowchain
    · rw [Function.update_of_ne hki]
      have hkept := hdrop.chain k hk
      have hoff : ∀ a ∈ (Function.update free i rest) k,
          a ∉ {a | a ∈ low ++ high} := by
        intro a ha hmem
        exact Multiset.disjoint_left.mp hnodup.2.2 hmem
          (mem_frames.mpr ⟨k, hk, ha⟩)
      simpa [hki] using hagree.chain hoff hkept
  · intro k hk
    by_cases hki : k = i - 1
    · subst hki
      simp [hlist, hlow]
    · simpa [hki] using hdrop.count k hk
  · refine hsame.trans (.of_links ?_ rfl rfl rfl rfl rfl)
    refine hagree.mono ?_
    intro a ha
    simp only [Set.mem_ofPred_eq] at ha ⊢
    rw [hfree]
    exact List.mem_append_left _ ha

end Split

/-! ## `alloc_buddy` -/

section Alloc

variable {s : Pmm} {free : Table ℕ}

/-- The block `SplitBlock` returns is never larger than the loop of
`alloc_buddy` tests for: that loop ends at once. -/
theorem splitMore_eq {p : PagePtr} {high : List ℕ} {i : ℕ}
    (hchain : s.links.Chain none p high)
    (hbound : ∀ a ∈ high, a < MAX_PG_NUM)
    (hhigh : high.length = 2 ^ (i - 1)) :
    splitMore i s p = .ok (p, s) := by
  have hsmall : ¬ 2 * 2 ^ i < 2 ^ (i - 1) := by
    have := Nat.pow_le_pow_right (show 0 < 2 by norm_num)
      (Nat.sub_le i 1)
    omega
  cases i with
  | zero => simp [splitMore, countPages_eq hchain hbound, hhigh, bind,
      Except.bind, pure, Except.pure]
  | succ i =>
      simp only [splitMore, countPages_eq hchain hbound, bind, Except.bind,
        pow2_eq, hhigh, if_neg hsmall]
      rfl

/-- What a successful call of `alloc_buddy` leaves behind. -/
structure Allocated (s : Pmm) (free : Table ℕ) (k : ℕ) (blk : List ℕ)
    (free' : Table ℕ) (t : Pmm) : Prop where
  takes : Takes 17 k free blk free'
  represents : t.Represents free'
  chain : t.links.Chain none blk.head? blk
  same : SameOff {a | a ∈ frames 17 free} s t

theorem Represents.takeFirst_allocated (hs : s.Represents free) {k : ℕ}
    (hk : k < 17) {blk rest : List ℕ} (hfree : free k = blk ++ rest)
    (hlength : blk.length = 2 ^ k) :
    ∃ t, s.takeFirst k = (blk.head?, t) ∧
      Allocated s free k blk (Function.update free k rest) t := by
  have hblk := ne_nil_of_length_eq_pow hlength
  have hhead : s.pageBlkList k = blk.head? := by
    rw [(hs.chain k hk).head?, hfree, List.head?_append_of_ne_nil _ hblk]
  refine ⟨s.dropFirst k rest.head?, ?_, .exact hfree hlength,
    hs.dropFirst hk hfree hlength, ?_, ?_⟩
  · rw [takeFirst_eq, hs.advance_eq hk hfree hlength, hhead]
  · rw [← hhead]
    exact (hs.blk_chain_dropFirst hk hfree hlength).1
  · exact (hs.dropFirst_sameOff hk hfree).mono
      fun a ha => mem_frames.mpr ⟨k, hk, ha⟩

theorem Represents.split_allocated (hs : s.Represents free) {k i : ℕ}
    (hki : k < i) (hi : i < 17)
    (hempty : ∀ j, k ≤ j → j < i → free j = []) (hfree : free i ≠ []) :
    ∃ blk free' t, s.splitBlock i = (blk.head?, t) ∧
      splitMore i t blk.head? = .ok (blk.head?, t) ∧
      Allocated s free k blk free' t := by
  obtain ⟨blk, rest, hblk, hlength⟩ := hs.exists_block hi hfree
  have hhalf : 2 ^ i = 2 ^ (i - 1) + 2 ^ (i - 1) := by
    rw [← two_mul, ← pow_succ']
    congr 1
    omega
  have hlow : (blk.take (2 ^ (i - 1))).length = 2 ^ (i - 1) := by
    rw [List.length_take]
    omega
  have hhigh : (blk.drop (2 ^ (i - 1))).length = 2 ^ (i - 1) := by
    rw [List.length_drop]
    omega
  have hparts : free i =
      blk.take (2 ^ (i - 1)) ++ blk.drop (2 ^ (i - 1)) ++ rest := by
    rw [List.take_append_drop, hblk]
  obtain ⟨t, hsplit, hrep, hchain, hsame⟩ := hs.splitBlock hi (by omega)
    (hempty (i - 1) (by omega) (by omega)) hparts hlow hhigh
  refine ⟨_, _, t, hsplit, splitMore_eq hchain ?_ hhigh,
    .split hki hi hempty hparts hlow hhigh, hrep, hchain, ?_⟩
  · intro a ha
    refine hs.bound a (mem_frames.mpr ⟨i, hi, ?_⟩)
    rw [hblk]
    exact List.mem_append_left _ (List.mem_of_mem_drop ha)
  · exact hsame.mono fun a ha => mem_frames.mpr ⟨i, hi, ha⟩

/-- The search finds nothing, or takes a block off the first list that has
one. -/
theorem Represents.searchFit (hs : s.Represents free) {k fuel i : ℕ}
    (hki : k ≤ i) (hi : i < 17) (hfuel : 17 ≤ fuel + i)
    (hempty : ∀ j, k ≤ j → j < i → free j = []) :
    (s.searchFit k fuel i = .ok none ∧
        ∀ j, k ≤ j → j < 17 → free j = []) ∨
      ∃ blk free' t, s.searchFit k fuel i = .ok (some (blk.head?, t)) ∧
        Allocated s free k blk free' t := by
  induction fuel generalizing i with
  | zero => omega
  | succ fuel ih =>
      have hindex : checkIndex i = .ok () := by simp [checkIndex, hi]
      have hnone := hs.pageBlkList_eq_none hi
      simp only [Pmm.searchFit, hindex, bind, Except.bind]
      by_cases hfree : free i = []
      · simp only [hnone.mpr hfree, ne_eq, not_true_eq_false, false_and,
          if_false]
        have hempty' : ∀ j, k ≤ j → j < i + 1 → free j = [] := by
          intro j hkj hj
          rcases Nat.lt_succ_iff_lt_or_eq.mp hj with hlt | rfl
          · exact hempty j hkj hlt
          · exact hfree
        by_cases hlast : i + 1 < 17
        · rw [if_pos hlast]
          exact ih (by omega) hlast (by omega) hempty'
        · rw [if_neg hlast]
          left
          exact ⟨rfl, fun j hkj hj => hempty' j hkj (by omega)⟩
      · right
        have hsome : ¬ s.pageBlkList i = none := mt hnone.mp hfree
        rcases Nat.eq_or_lt_of_le hki with rfl | hlt
        · obtain ⟨blk, rest, hblk, hlength⟩ := hs.exists_block hi hfree
          obtain ⟨t, htake, halloc⟩ :=
            hs.takeFirst_allocated hi hblk hlength
          refine ⟨blk, _, t, ?_, halloc⟩
          simp only [ne_eq, hsome, not_false_eq_true, and_self, if_true,
            htake]
          rfl
        · obtain ⟨blk, free', t, hsplit, hmore, halloc⟩ :=
            hs.split_allocated hlt hi hempty hfree
          refine ⟨blk, free', t, ?_, halloc⟩
          simp only [ne_eq, hsome, not_false_eq_true, true_and, hlt.ne,
            if_false, hlt, if_true, hsplit, hmore]
          rfl

theorem requestPages_lt (memsize : Uint) : requestPages memsize < 2 ^ 32 := by
  have := memsize.isLt
  unfold requestPages
  split <;> omega

theorem takes_block_mem {k : ℕ} (hk : k < 17) {blk : List ℕ}
    {free' : Table ℕ} (htakes : Takes 17 k free blk free') :
    ∀ a ∈ blk, a ∈ frames 17 free := by
  intro a ha
  rw [htakes.frames_eq hk]
  exact Multiset.mem_add.mpr (Or.inl ha)

/-- `alloc_buddy` fails without a trace when every list from the order of the
request on is empty, and takes a block of that order otherwise. -/
theorem Represents.allocBuddy_order (hs : s.Represents free) {memsize : Uint}
    {k : ℕ} (horder : requestOrder (requestPages memsize) = k) (hk : k < 17) :
    (s.allocBuddy memsize = .ok ⟨none, 0, s⟩ ∧
        ∀ j, k ≤ j → j < 17 → free j = []) ∨
      ∃ blk free' t, s.allocBuddy memsize = .ok ⟨blk.head?, 1, t⟩ ∧
        Allocated s free k blk free' t := by
  have hfit := hs.searchFit (le_refl k) hk (show 17 ≤ 17 + k by omega)
    (fun j hkj hj => absurd hj (by omega))
  unfold Pmm.allocBuddy
  rw [horder]
  rcases hfit with ⟨hnone, hempty⟩ | ⟨blk, free', t, hsome, halloc⟩
  · left
    refine ⟨?_, hempty⟩
    simp only [hnone]
    rfl
  · right
    have hmem := takes_block_mem hk halloc.takes
    have hpages := pagesFrom_eq halloc.chain
      (fun a ha => hs.bound a (hmem a ha))
    obtain ⟨flags, hfold, hoff⟩ :=
      foldl_setFlags_eq (fun v => v ||| PHY_BUSY) blk t
    refine ⟨blk, free', { t with flags := flags }, ?_, halloc.takes,
      halloc.represents.withFlags flags, halloc.chain, ?_⟩
    · simp only [hsome, bind, Except.bind, hpages, hfold]
      rfl
    · refine halloc.same.trans ⟨.refl _ _, ?_, rfl, rfl, rfl, rfl⟩
      intro a ha
      exact hoff a (fun hab => ha (hmem a hab))

/-- The same for the requests of at most `2 ^ 16` pages. -/
theorem Represents.allocBuddy (hs : s.Represents free) {memsize : Uint}
    (hpos : 1 ≤ requestPages memsize)
    (hmax : requestPages memsize ≤ 2 ^ 16) :
    let k := Nat.clog 2 (requestPages memsize)
    (s.allocBuddy memsize = .ok ⟨none, 0, s⟩ ∧
        ∀ j, k ≤ j → j < 17 → free j = []) ∨
      ∃ blk free' t, s.allocBuddy memsize = .ok ⟨blk.head?, 1, t⟩ ∧
        Allocated s free k blk free' t := by
  have hk : Nat.clog 2 (requestPages memsize) ≤ 16 :=
    (Nat.clog_le_iff_le_pow (by norm_num)).mpr hmax
  exact hs.allocBuddy_order (order_eq_clog hpos (requestPages_lt memsize))
    (by omega)

/-- The search with an order that `buddy_table` does not have. -/
theorem allocBuddy_badIndex {memsize : Uint} {k : ℕ}
    (horder : requestOrder (requestPages memsize) = k) (hk : 17 ≤ k) :
    s.allocBuddy memsize = .error (.badIndex k) := by
  have hindex : checkIndex k = .error (.badIndex k) := if_neg (by omega)
  unfold Pmm.allocBuddy
  dsimp only
  rw [horder]
  unfold searchFit
  rw [hindex]
  rfl

end Alloc

end Pmm

end OS32
