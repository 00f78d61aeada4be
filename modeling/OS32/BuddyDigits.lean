import OS32.BinaryTable
import OS32.BuddyFailure

/-!
# The free lists as a binary number

`FindBuddy` matches the first block of any list, so `free_buddy` merges as long
as there is something to merge with, and no list ever has two blocks.  The free
lists are the binary digits of the number of free frames: freeing counts up and
allocating counts down.
-/

namespace OS32

open NullList BuddyTable Transition

namespace Pmm

variable {s : Pmm} {free : Table ℕ}

theorem Initial.binary (hs : s.Initial free) : Binary 17 free := by
  intro k hk
  rcases hs.consecutive k hk with hnil | ⟨start, hrun⟩
  · exact Or.inl hnil
  · rw [hrun, List.length_range']
    exact Or.inr rfl

/-- `blk_num` of order `k` is digit `k` of the number of free frames. -/
theorem Represents.blkNum_eq (hs : s.Represents free) (hfree : Binary 17 free)
    {k : ℕ} (hk : k < 17) :
    s.blkNum k = if (frames 17 free).card.testBit k then 1 else 0 := by
  have hcount := hs.count k hk
  have hbit := hfree.testBit_card hk
  have hpow : (2 : ℤ) ^ k ≠ 0 := by positivity
  rcases hfree k hk with hnil | hlength
  · rw [if_neg (fun h => hbit.mp h hnil)]
    rw [hnil] at hcount
    exact (mul_eq_zero.mp hcount.symm).resolve_right hpow
  · rw [if_pos (hbit.mpr (ne_nil_of_length_eq_pow hlength))]
    rw [hlength, Nat.cast_pow] at hcount
    exact (mul_right_cancel₀ hpow ((one_mul _).trans hcount)).symm

/-- A request of order `k` is served just when `2 ^ k` frames are free. -/
theorem Represents.served_iff (hs : s.Represents free) (hfree : Binary 17 free)
    {memsize : Uint} {k : ℕ}
    (horder : requestOrder (requestPages memsize) = k) (hk : k < 17) :
    (∃ r, s.allocBuddy memsize = .ok r ∧ r.flag = 1) ↔
      2 ^ k ≤ (frames 17 free).card := by
  rw [← hfree.exists_block_iff]
  rcases hs.allocBuddy_returns horder hk with
    ⟨hfail, hempty⟩ | ⟨hserved, j, hj, hkj, hsome⟩
  · refine iff_of_false ?_ ?_
    · rintro ⟨r, hrun, hflag⟩
      obtain rfl := Except.ok.inj (hfail.symm.trans hrun)
      cases hflag
    · rintro ⟨j, hj, hkj, hblk⟩
      exact hblk ((hs.pageBlkList_eq_none hj).mp (hempty j hj hkj))
  · exact iff_of_true hserved
      ⟨j, hj, hkj, mt (hs.pageBlkList_eq_none hj).mpr hsome⟩

end Pmm

namespace BuddySession

section Steps

variable {total : ℕ} {s t : State} {free : Table ℕ} {blocks : List (List ℕ)}

/-- Every legal call keeps the lists at one block at most. -/
theorem Inv.binary_step (hs : Inv total s free blocks) (hfree : Binary 17 free)
    {c : Call} (hstep : Step s c t) :
    ∃ free' blocks', Inv total t free' blocks' ∧ Binary 17 free' := by
  obtain ⟨hlegal, hcall⟩ := hstep
  cases c with
  | alloc memsize =>
      rcases hs.call_alloc hlegal with
        ⟨_, hrun⟩ | ⟨blk, free', u, _, halloc, hrun, hu⟩
      · obtain rfl := Except.ok.inj (hcall.symm.trans hrun)
        exact ⟨free, blocks, hs, hfree⟩
      · obtain rfl := Except.ok.inj (hcall.symm.trans hrun)
        exact ⟨_, _, hu, hfree.takes (order_lt hlegal.2) halloc.takes⟩
  | free pgBlk =>
      obtain ⟨before, b, after, k, free', u, rfl, _, hk, hlength, hputs, _,
        hrun, hu⟩ := hs.call_free hlegal
      obtain rfl := Except.ok.inj (hcall.symm.trans hrun)
      have hcard := (hs.loose (by simp) hlength).card
      exact ⟨_, _, hu, hfree.puts hputs hk hlength hcard⟩
  | use page refNum flags va =>
      obtain ⟨u, hrun, hu⟩ := hs.call_use page refNum flags va
      obtain rfl := Except.ok.inj (hcall.symm.trans hrun)
      exact ⟨free, blocks, hu, hfree⟩

end Steps

/-- In every state of every run `blk_num` of each order is the digit of that
order of the number of free frames, and a request is served just when there are
enough free frames for its order, on whatever lists they are. -/
theorem free_lists_are_binary {info : BootInfo} {low : Page} {s₀ : Pmm}
    (hinit : Pmm.initBuddy info (.boot low) = .ok s₀)
    {calls : List Call} {s : State} (hrun : Run Step ⟨s₀, []⟩ calls s) :
    ∃ free : Table ℕ,
      (∀ k < 17, s.pmm.links.Chain none (s.pmm.pageBlkList k) (free k)) ∧
      (∀ k < 17, s.pmm.blkNum k =
        if (frames 17 free).card.testBit k then 1 else 0) ∧
      ∀ memsize, Legal s (.alloc memsize) →
        ((∃ r, s.pmm.allocBuddy memsize = .ok r ∧ r.flag = 1) ↔
          2 ^ Nat.clog 2 (Pmm.requestPages memsize) ≤
            (frames 17 free).card) := by
  obtain ⟨free₀, hinitial⟩ := Pmm.initBuddy_initial hinit
  obtain ⟨free, blocks, hs, hfree⟩ := hrun.invariant
    (fun s => ∃ free blocks, Inv (Pmm.placed s₀.phyPageNum) s free blocks ∧
      Binary 17 free)
    (fun s c t hs hstep => by
      obtain ⟨free, blocks, hinv, hfree⟩ := hs
      exact hinv.binary_step hfree hstep)
    ⟨free₀, [], inv_of_initial hinitial, hinitial.binary⟩
  refine ⟨free, hs.represents.chain,
    fun k hk => hs.represents.blkNum_eq hfree hk, fun memsize hlegal => ?_⟩
  have hlt := Pmm.requestPages_lt memsize
  exact hs.represents.served_iff hfree (Pmm.requestOrder_eq hlt)
    (order_lt hlegal.2)

/-- Six frames are the digits of orders 1 and 2. -/
theorem six_frames_are_binary :
    ∃ s₀ free, Pmm.initBuddy (frameMap 6) (.boot zeroPage) = .ok s₀ ∧
      (∀ k < 17, s₀.links.Chain none (s₀.pageBlkList k) (free k)) ∧
      ∀ k < 17, s₀.blkNum k =
        if (frames 17 free).card.testBit k then 1 else 0 := by
  have htrace : trace next 6 [] (fun _ => some ()) = some () := by
    decide +kernel
  obtain ⟨s₀, s, hinit, hrun, _⟩ :=
    run_of_trace htrace fun _ _ _ => step_of_next
  obtain rfl : s = ⟨s₀, []⟩ := run_nil hrun
  obtain ⟨free, hchain, hdigits, _⟩ := free_lists_are_binary hinit .nil
  exact ⟨s₀, free, hinit, hchain, hdigits⟩

end BuddySession

end OS32
