import OS32.BuddySession

/-!
# The size of an allocated block

`SplitBlock` halves a block once and the loop that should go on halving never
turns.  So `alloc_pages` returns a block of the right size exactly when the
nearest block is of the order of the request or of the next one.
-/

namespace OS32

open NullList BuddyTable Transition

namespace BuddySession

/-- The block at `pgBlk` has the least power of two of pages that is enough for
`n`, and the pages split off on the way are still on the free lists. -/
def AllocatesExactly (s : Pmm) (n : ℕ) (pgBlk : PagePtr) (t : Pmm) : Prop :=
  ∃ (free free' : Table ℕ) (blk : List ℕ),
    s.Represents free ∧ t.Represents free' ∧
      t.links.Chain none pgBlk blk ∧ blk.length = 2 ^ Nat.clog 2 n ∧
      frames 17 free = (blk : Multiset ℕ) + frames 17 free'

/-- If a list from order `k` on has a block, then one of the lists of orders `k`
and `k + 1` has one. -/
def NearestFits (s : Pmm) (k : ℕ) : Prop :=
  ∀ j < 17, k ≤ j → s.pageBlkList j ≠ none →
    s.pageBlkList k ≠ none ∨ (k + 1 < 17 ∧ s.pageBlkList (k + 1) ≠ none)

theorem requestPages_shift {n : Uint} (hn : n.toNat ≤ 2 ^ 16) :
    Pmm.requestPages (n <<< 2) = n.toNat := by
  have hshift : (n <<< 2).toNat = n.toNat * 4 := by
    rw [BitVec.toNat_shiftLeft, Nat.shiftLeft_eq]
    omega
  unfold Pmm.requestPages
  rw [hshift]
  split <;> omega

theorem allocPages_ok_iff {swapOut : Pmm → Except Fault ℕ} {s t : Pmm}
    {n : Uint} {p : PagePtr} :
    s.allocPages swapOut n = .ok (p, t) ↔
      s.allocBuddy (n <<< 2) = .ok ⟨p, 1, t⟩ := by
  unfold Pmm.allocPages
  cases halloc : s.allocBuddy (n <<< 2) with
  | error => simp [bind, Except.bind]
  | ok r =>
      obtain ⟨blk, flag, u⟩ := r
      by_cases hflag : flag = 1
      · simp [bind, Except.bind, hflag, pure, Except.pure]
      · simp only [bind, Except.bind, hflag, if_false]
        cases swapOut u with
        | error => simp [hflag]
        | ok r =>
            simp only
            split <;> simp [hflag]

section

variable {s t : Pmm} {free free' : Table ℕ} {k : ℕ} {blk : List ℕ}

theorem nearestFits_of_exact (hs : s.Represents free) (hk : k < 17)
    (hfree : free k ≠ []) : NearestFits s k :=
  fun _ _ _ _ => Or.inl (mt (hs.pageBlkList_eq_none hk).mp hfree)

/-- The block taken has `2 ^ k` pages exactly when the nearest block fits. -/
theorem length_eq_iff_nearestFits (hs : s.Represents free) (hk : k < 17)
    (htakes : Takes 17 k free blk free') :
    blk.length = 2 ^ k ↔ NearestFits s k := by
  cases htakes with
  | @exact _ rest hfree hlength =>
      refine iff_of_true hlength (nearestFits_of_exact hs hk ?_)
      rw [hfree]
      exact List.append_ne_nil_of_left_ne_nil
        (ne_nil_of_length_eq_pow hlength) rest
  | @split i low _ rest hki hi hempty hfree hlow hhigh =>
      have hblkne := ne_nil_of_length_eq_pow hlow
      have hsome : s.pageBlkList i ≠ none := by
        refine mt (hs.pageBlkList_eq_none hi).mp ?_
        rw [hfree]
        simp [hblkne]
      have hnone : ∀ j, k ≤ j → j < i → s.pageBlkList j = none :=
        fun j hkj hji => (hs.pageBlkList_eq_none (by omega)).mpr
          (hempty j hkj hji)
      rw [hhigh, Nat.pow_right_inj (le_refl 2)]
      constructor
      · intro hik
        obtain rfl : i = k + 1 := by omega
        exact fun _ _ _ _ => Or.inr ⟨hi, hsome⟩
      · intro hnear
        rcases hnear i hi hki.le hsome with hlist | ⟨_, hlist⟩
        · exact absurd (hnone k (le_refl k) hki) hlist
        · by_contra hne
          exact hlist (hnone (k + 1) (by omega) (by omega))

end

/-- In every reachable state `alloc_pages(n)`, when it obtains a block, obtains
one of exactly the right size if and only if the nearest list of free blocks
large enough is that of the order of the request or of the next one. -/
theorem allocPages_exact_iff {info : BootInfo} {low : Page} {s₀ : Pmm}
    (hinit : Pmm.initBuddy info (.boot low) = .ok s₀)
    {calls : List Call} {s : State} (hrun : Run Step ⟨s₀, []⟩ calls s)
    {n : Uint} (hpos : 1 ≤ n.toNat) (hmax : n.toNat ≤ 2 ^ 16)
    (swapOut : Pmm → Except Fault ℕ) :
    (∀ p t, s.pmm.allocPages swapOut n = .ok (p, t) →
        AllocatesExactly s.pmm n.toNat p t) ↔
      NearestFits s.pmm (Nat.clog 2 n.toNat) := by
  obtain ⟨free₀, hinitial⟩ := Pmm.initBuddy_initial hinit
  obtain ⟨free, blocks, hs⟩ :=
    inv_of_run hrun ⟨free₀, [], inv_of_initial hinitial⟩
  have hpages := requestPages_shift hmax
  have hk := order_lt hmax
  have halloc := hs.represents.allocBuddy (hpos.trans_eq hpages.symm)
    (hpages.trans_le hmax)
  rw [hpages] at halloc
  rcases halloc with ⟨hnone, hempty⟩ | ⟨blk, free', t, hsome, hallocated⟩
  · refine iff_of_true ?_ ?_
    · intro p t hok
      rw [allocPages_ok_iff, hnone] at hok
      cases hok
    · intro j hj hkj hlist
      exact absurd ((hs.represents.pageBlkList_eq_none hj).mpr
        (hempty j hkj hj)) hlist
  · rw [← length_eq_iff_nearestFits hs.represents hk hallocated.takes]
    constructor
    · intro hexact
      obtain ⟨_, _, blk', _, _, hchain, hlength, _⟩ :=
        hexact _ t (allocPages_ok_iff.mpr hsome)
      rwa [hallocated.chain.unique hchain]
    · intro hlength p u hok
      rw [allocPages_ok_iff, hsome] at hok
      cases hok
      exact ⟨free, free', blk, hs.represents, hallocated.represents,
        hallocated.chain, hlength, hallocated.takes.frames_eq hk⟩

/-- Four free frames are one block of order 2, and a request for one page gets
two of them. -/
theorem one_page_of_four_frames :
    ∃ s₀ p t, Pmm.initBuddy (frameMap 4) (.boot zeroPage) = .ok s₀ ∧
      s₀.allocPages (fun _ => .ok 1) 1 = .ok (p, t) ∧
      t.pagesFrom p = .ok [2, 3] ∧
      [2, 3].length ≠ 2 ^ Nat.clog 2 1 := by
  have htrace : trace next 4 [] (fun s => do
      let r ← (s.pmm.allocPages (fun _ => .ok 1) 1).toOption
      (r.2.pagesFrom r.1).toOption) = some [2, 3] := by decide +kernel
  obtain ⟨s₀, s, hinit, hrun, hlook⟩ :=
    run_of_trace htrace fun _ _ _ => step_of_next
  simp only [Option.bind_eq_bind, Option.bind_eq_some_iff] at hlook
  obtain ⟨⟨p, t⟩, halloc, hpages⟩ := hlook
  have hnil : s = ⟨s₀, []⟩ := run_nil hrun
  subst hnil
  exact ⟨s₀, p, t, hinit, eq_ok_of_toOption halloc,
    eq_ok_of_toOption hpages, by decide⟩

/-- With six frames a request for two pages finds the nearest block, of order
1, to fit. -/
theorem two_pages_of_six_frames :
    ∃ s₀, Pmm.initBuddy (frameMap 6) (.boot zeroPage) = .ok s₀ ∧
      ∀ p t, s₀.allocPages (fun _ => .ok 1) 2 = .ok (p, t) →
        AllocatesExactly s₀ 2 p t := by
  have htrace : trace next 6 [] (fun s => s.pmm.pageBlkList 1) = some 4 := by
    decide +kernel
  obtain ⟨s₀, s, hinit, hrun, hlist⟩ :=
    run_of_trace htrace fun _ _ _ => step_of_next
  obtain rfl : s = ⟨s₀, []⟩ := run_nil hrun
  refine ⟨s₀, hinit, (allocPages_exact_iff hinit .nil (n := 2) (by decide)
    (by decide) (fun _ => .ok 1)).mpr ?_⟩
  intro j hj hkj hsome
  left
  have hclog : Nat.clog 2 (2 : Uint).toNat = 1 := by decide
  rw [hclog, hlist]
  simp

end BuddySession

end OS32
