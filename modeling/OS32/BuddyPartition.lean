import OS32.BuddySession

/-!
# The blocks that `init_buddy` makes

The loop of `init_buddy` ends when `log2` of the number of frames left is 0,
which it is for one frame and for none.
-/

namespace OS32

open NullList BuddyTable

namespace Pmm

/-- The free lists of `t` hold runs of consecutive frames, which are the frames
0 to `n - 1`, each once. -/
structure Partitions (t : Pmm) (n : ℕ) (free : Table ℕ) : Prop where
  chain : ∀ k < 17, t.links.Chain none (t.pageBlkList k) (free k)
  runs : ∀ k < 17, ∃ starts : List ℕ,
    free k = starts.flatMap (fun start => List.range' start (2 ^ k)) ∧
      (starts.length : ℤ) = t.blkNum k
  covers : frames 17 free = (List.range n : Multiset ℕ)

variable {s t : Pmm} {free : Table ℕ} {n : ℕ}

/-- An initial state partitions the frames that have been placed. -/
theorem Initial.partitions (hs : s.Initial free) :
    s.Partitions (placed s.phyPageNum) free := by
  refine ⟨hs.represents.chain, ?_, hs.frames_eq⟩
  intro k hk
  have hcount := hs.represents.count k hk
  have hpow : (2 : ℤ) ^ k ≠ 0 := by positivity
  rcases hs.consecutive k hk with hnil | ⟨start, hrun⟩
  · rw [hnil] at hcount
    refine ⟨[], hnil, ?_⟩
    rw [(mul_eq_zero.mp hcount.symm).resolve_right hpow]
    rfl
  · rw [hrun, List.length_range', Nat.cast_pow] at hcount
    refine ⟨[start], ?_, ?_⟩
    · rw [hrun, List.flatMap_singleton]
    · exact (mul_right_cancel₀ hpow ((one_mul _).trans hcount))

/-- The free lists determine the frames on them. -/
theorem Partitions.unique {free' : Table ℕ} {m : ℕ} (hs : t.Partitions m free)
    (hs' : t.Partitions n free') : m = n := by
  have hsame : frames 17 free = frames 17 free' := by
    unfold frames
    refine Finset.sum_congr rfl ?_
    intro k hk
    rw [(hs.chain k (Finset.mem_range.mp hk)).unique
      (hs'.chain k (Finset.mem_range.mp hk))]
  rw [hs.covers, hs'.covers] at hsame
  have hcard := congrArg Multiset.card hsame
  rwa [Multiset.coe_card, Multiset.coe_card, List.length_range,
    List.length_range] at hcard

/-- The frames that `init_pages` has recorded are all in the table afterwards,
and no others, just when their number is 1 or even and not 0. -/
theorem init_partitions_iff {info : BootInfo} {low : Page}
    (hpages : initPages info (boot low) = .ok s)
    (hmax : s.phyPageNum < 2 ^ 17) :
    (∃ t free, initBuddy info (boot low) = .ok t ∧
        t.Partitions s.phyPageNum free) ↔
      s.phyPageNum = 1 ∨ 2 ≤ s.phyPageNum ∧ s.phyPageNum % 2 = 0 := by
  obtain ⟨t, free, hinit, hinitial, hnum⟩ :=
    BuddySession.initBuddy_ok hpages hmax
  have hplaced := hinitial.partitions
  rw [hnum] at hplaced
  have hall : (∃ t free, initBuddy info (boot low) = .ok t ∧
      t.Partitions s.phyPageNum free) ↔ placed s.phyPageNum = s.phyPageNum := by
    constructor
    · rintro ⟨t', free', hinit', hparts⟩
      rw [hinit] at hinit'
      obtain rfl := Except.ok.inj hinit'
      exact hplaced.unique hparts
    · intro heq
      rw [heq] at hplaced
      exact ⟨t, free, hinit, hplaced⟩
  rw [hall]
  unfold placed
  split <;> omega

end Pmm

namespace BuddySession

open Pmm

/-- Six frames are a block of four and one of two. -/
theorem six_frames_partition :
    ∃ t free, initBuddy (frameMap 6) (boot zeroPage) = .ok t ∧
      t.Partitions 6 free := by
  have hpages : (initPages (frameMap 6) (boot zeroPage)).toOption.map
      Pmm.phyPageNum = some 6 := by decide +kernel
  obtain ⟨s, hs, hnum⟩ := Option.map_eq_some_iff.mp hpages
  have hiff := init_partitions_iff (eq_ok_of_toOption hs) (by omega)
  rw [hnum] at hiff
  exact hiff.mpr (.inr (by decide))

/-- Of three frames the last one is left out. -/
theorem third_frame_left_out :
    ¬ ∀ (info : BootInfo) (low : Page) (s : Pmm),
      initPages info (boot low) = .ok s → s.phyPageNum < 2 ^ 17 →
      ∃ t free, initBuddy info (boot low) = .ok t ∧
        t.Partitions s.phyPageNum free := by
  intro hall
  have hpages : (initPages (frameMap 3) (boot zeroPage)).toOption.map
      Pmm.phyPageNum = some 3 := by decide +kernel
  obtain ⟨s, hs, hnum⟩ := Option.map_eq_some_iff.mp hpages
  have hs' := eq_ok_of_toOption hs
  obtain ⟨t, free, hinit, hparts⟩ := hall _ _ s hs' (by omega)
  obtain ⟨t', free', hinit', hinitial, hnum'⟩ := initBuddy_ok hs' (by omega)
  rw [hinit] at hinit'
  obtain rfl := Except.ok.inj hinit'
  have hplaced := hinitial.partitions.unique hparts
  rw [hnum', hnum] at hplaced
  exact absurd hplaced (by decide)

end BuddySession

end OS32
