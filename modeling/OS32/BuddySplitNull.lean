import OS32.BuddyAllocSize

/-!
# `SplitBlock` and the null pointer

`alloc_buddy` splits a block of order `i` only if the lists below it are empty,
from the order of the request on.  Then `SplitBlock` finds no last page on the
list of order `i - 1` and writes the `next` of a null pointer.
-/

namespace OS32

open NullList BuddyTable Transition

namespace Pmm

/-! ## The pointers that are dereferenced -/

/-- The pointers that `n` turns of `p = p->next;` go through. -/
def walked (m : Links ℕ) (n : ℕ) (p : PagePtr) : List PagePtr :=
  (List.range n).map fun k => m.advance k p

/-- The pointers in `p->prev->next = NULL; p->prev = NULL;`. -/
def cutUses (s : Pmm) (p : PagePtr) : List PagePtr := [p, s.links.prev p, p]

/-- `halveInto`, with the pointers that it dereferences. -/
def halveIntoUses (s : Pmm) (nextid : ℕ) (blk0 : PagePtr) :
    List PagePtr × PagePtr × Pmm :=
  let pgNum : ℤ := pow2 nextid * s.blkNum nextid
  let tail := walked s.links (pgNum - 1).toNat (s.pageBlkList nextid)
  let p := s.links.advance (pgNum - 1).toNat (s.pageBlkList nextid)
  let s := if p = none then s.setPageBlkList nextid blk0 else s
  -- `blk0->prev = p; p->next = blk0; p = p->next;`
  let joined := [blk0, p, p]
  let s := s.setLinks ((s.links.setPrev blk0 p).setNext p blk0)
  let p := s.links.next p
  let s := s.addBlkNum nextid 2
  let half := walked s.links (pow2 nextid) p
  let p := s.links.advance (pow2 nextid) p
  let cut := s.cutUses p
  let s := s.cutBefore p
  let s := s.addBlkNum nextid (-1)
  (tail ++ joined ++ half ++ cut, p, s)

/-- `SplitBlock`, with the pointers that it dereferences. -/
def splitBlockUses (s : Pmm) (idx : ℕ) : List PagePtr × PagePtr × Pmm :=
  let blk0 := s.pageBlkList idx
  let first := walked s.links (pow2 idx) blk0
  let p := s.links.advance (pow2 idx) blk0
  let cut := if 1 < s.blkNum idx then (s.setPageBlkList idx p).cutUses p else []
  let s :=
    if 1 < s.blkNum idx then (s.setPageBlkList idx p).cutBefore p
    else s.setPageBlkList idx none
  let s := s.addBlkNum idx (-1)
  let (uses, r) := s.halveIntoUses (idx - 1) blk0
  (first ++ cut ++ uses, r)

theorem halveIntoUses_snd (s : Pmm) (nextid : ℕ) (blk0 : PagePtr) :
    (s.halveIntoUses nextid blk0).2 = s.halveInto nextid blk0 := rfl

/-- The pointers are those of a run of `SplitBlock`. -/
theorem splitBlockUses_snd (s : Pmm) (idx : ℕ) :
    (s.splitBlockUses idx).2 = s.splitBlock idx :=
  halveIntoUses_snd _ _ _

/-- `SplitBlock` of order `idx` dereferences no null pointer. -/
def SplitsSafely (s : Pmm) (idx : ℕ) : Prop :=
  none ∉ (s.splitBlockUses idx).1

/-! ## When `alloc_buddy` splits -/

/-- `alloc_buddy` serves the request by splitting a block of order `i`. -/
def SplitsAt (s : Pmm) (memsize : Uint) (i : ℕ) : Prop :=
  requestOrder (requestPages memsize) < i ∧ i < 17 ∧ s.pageBlkList i ≠ none ∧
    ∀ j < i, requestOrder (requestPages memsize) ≤ j → s.pageBlkList j = none

instance (s : Pmm) (memsize : Uint) (i : ℕ) : Decidable (s.SplitsAt memsize i) :=
  inferInstanceAs (Decidable (_ ∧ _))

/-- The search comes to the order `i` and splits there. -/
theorem SplitsAt.searchFit_eq {s : Pmm} {memsize : Uint} {i : ℕ}
    (hsplits : s.SplitsAt memsize i) :
    s.searchFit (requestOrder (requestPages memsize)) 17
        (requestOrder (requestPages memsize)) =
      (splitMore i (s.splitBlock i).2 (s.splitBlock i).1).map some := by
  obtain ⟨hlow, hi, hsome, hnone⟩ := hsplits
  generalize requestOrder (requestPages memsize) = k at *
  have hgo : ∀ fuel j, k ≤ j → j ≤ i → i < fuel + j →
      s.searchFit k fuel j =
        (splitMore i (s.splitBlock i).2 (s.splitBlock i).1).map some := by
    intro fuel
    induction fuel with
    | zero =>
        intro j _ _ hfuel
        omega
    | succ fuel ih =>
        intro j hkj hji hfuel
        have hindex : checkIndex j = .ok () := if_pos (by omega)
        unfold searchFit
        rw [hindex]
        dsimp only [bind, Except.bind]
        rcases Nat.lt_or_eq_of_le hji with hlt | rfl
        · have hempty := hnone j hlt hkj
          rw [if_neg (fun hboth => hboth.1 hempty),
            if_neg (fun hboth => hboth.1 hempty), if_pos (by omega)]
          exact ih (j + 1) (by omega) (by omega) (by omega)
        · rw [if_neg (fun hboth => Nat.ne_of_lt hlow hboth.2),
            if_pos ⟨hsome, hlow⟩]
          cases splitMore j (s.splitBlock j).2 (s.splitBlock j).1 <;> rfl
  exact hgo 17 k (le_refl k) hlow.le (by omega)

/-- With an empty list below, the page behind which the block is put is NULL. -/
theorem halveIntoUses_none {s : Pmm} {nextid : ℕ} {blk0 : PagePtr}
    (hlist : s.pageBlkList nextid = none) (hzero : s.blkNum nextid = 0) :
    none ∈ (s.halveIntoUses nextid blk0).1 := by
  have hstay : (-1 : ℤ).toNat = 0 := rfl
  have hlast : s.links.advance ((pow2 nextid : ℤ) * s.blkNum nextid - 1).toNat
      (s.pageBlkList nextid) = none := by
    rw [hzero, mul_zero, zero_sub, hstay, hlist]
    rfl
  unfold halveIntoUses
  dsimp only
  rw [hlast]
  simp

theorem Represents.split_through_null {s : Pmm} {free : Table ℕ}
    (hs : s.Represents free) {i : ℕ} (hpos : 0 < i) (hi : i < 17)
    (hlist : s.pageBlkList (i - 1) = none) : ¬ s.SplitsSafely i := by
  have hne : i - 1 ≠ i := by omega
  have hzero : s.blkNum (i - 1) = 0 := by
    have hcount := hs.count (i - 1) (by omega)
    rw [(hs.pageBlkList_eq_none (by omega)).mp hlist] at hcount
    have hpow : (2 : ℤ) ^ (i - 1) ≠ 0 := by positivity
    exact (mul_eq_zero.mp hcount.symm).resolve_right hpow
  unfold SplitsSafely
  rw [not_not]
  unfold splitBlockUses
  refine List.mem_append_right _ (halveIntoUses_none ?_ ?_)
  · by_cases hmany : 1 < s.blkNum i
    · rw [if_pos hmany]
      simpa [cutBefore, hne] using hlist
    · rw [if_neg hmany]
      simpa [hne] using hlist
  · by_cases hmany : 1 < s.blkNum i
    · rw [if_pos hmany]
      simpa [cutBefore, hne] using hzero
    · rw [if_neg hmany]
      simpa [hne] using hzero

end Pmm

namespace BuddySession

open Pmm

/-- In every reachable state the search of `alloc_buddy` splits where `SplitsAt`
says, and it goes through a null pointer there. -/
theorem split_goes_through_null {info : BootInfo} {low : Page} {s₀ : Pmm}
    (hinit : Pmm.initBuddy info (.boot low) = .ok s₀)
    {calls : List Call} {s : State} (hrun : Run Step ⟨s₀, []⟩ calls s)
    {memsize : Uint} {i : ℕ} (hsplits : s.pmm.SplitsAt memsize i) :
    s.pmm.searchFit (requestOrder (requestPages memsize)) 17
        (requestOrder (requestPages memsize)) =
      (splitMore i (s.pmm.splitBlockUses i).2.2
        (s.pmm.splitBlockUses i).2.1).map some ∧
    ¬ s.pmm.SplitsSafely i := by
  obtain ⟨free₀, hinitial⟩ := Pmm.initBuddy_initial hinit
  obtain ⟨free, blocks, hs⟩ :=
    inv_of_run hrun ⟨free₀, [], inv_of_initial hinitial⟩
  refine ⟨?_, ?_⟩
  · rw [splitBlockUses_snd]
    exact hsplits.searchFit_eq
  · obtain ⟨hlow, hi, _, hnone⟩ := hsplits
    exact hs.represents.split_through_null (by omega) hi
      (hnone (i - 1) (by omega) (by omega))

theorem four_frames_split :
    ∃ s₀ s, Pmm.initBuddy (frameMap 4) (.boot zeroPage) = .ok s₀ ∧
      Run Step ⟨s₀, []⟩ [] s ∧ s.pmm.SplitsAt 4 2 := by
  have htrace : trace next 4 [] (fun s =>
      if s.pmm.SplitsAt 4 2 then some () else none) = some () := by
    decide +kernel
  obtain ⟨s₀, s, hinit, hrun, hlook⟩ :=
    run_of_trace htrace fun _ _ _ => step_of_next
  refine ⟨s₀, s, hinit, hrun, ?_⟩
  by_contra hnot
  rw [if_neg hnot] at hlook
  cases hlook

/-- Four frames are one block, which a request for a page splits. -/
theorem split_goes_through_null_four_frames :
    ∃ s₀ s, Pmm.initBuddy (frameMap 4) (.boot zeroPage) = .ok s₀ ∧
      Run Step ⟨s₀, []⟩ [] s ∧ ¬ s.pmm.SplitsSafely 2 := by
  obtain ⟨s₀, s, hinit, hrun, hsplits⟩ := four_frames_split
  exact ⟨s₀, s, hinit, hrun, (split_goes_through_null hinit hrun hsplits).2⟩

/-- The first request for a page of four frames writes through NULL. -/
theorem not_all_splits_safe :
    ¬ ∀ (info : BootInfo) (low : Page) (s₀ : Pmm),
      Pmm.initBuddy info (.boot low) = .ok s₀ →
      ∀ (calls : List Call) (s : State), Run Step ⟨s₀, []⟩ calls s →
      ∀ (memsize : Uint) (i : ℕ), s.pmm.SplitsAt memsize i →
        s.pmm.SplitsSafely i := by
  intro hall
  have htrace : trace next 4 [] (fun s =>
      if s.pmm.SplitsAt 4 2 ∧ none ∈ (s.pmm.splitBlockUses 2).1 then some ()
      else none) = some () := by
    decide +kernel
  obtain ⟨s₀, s, hinit, hrun, hlook⟩ :=
    run_of_trace htrace fun _ _ _ => step_of_next
  have hboth : s.pmm.SplitsAt 4 2 ∧ none ∈ (s.pmm.splitBlockUses 2).1 := by
    by_contra hnot
    rw [if_neg hnot] at hlook
    cases hlook
  exact hall _ _ _ hinit _ _ hrun 4 2 hboth.1 hboth.2

end BuddySession

end OS32
