import OS32.BuddyAllocSize

/-!
# Requests that cannot be served

`alloc_pages(n)` asks for `n << 2` KiB, which is the number of pages modulo
`2 ^ 30`, and `alloc_buddy` starts its search at the order of the request
whether or not `buddy_table` has it.
-/

namespace OS32

open NullList BuddyTable Transition

namespace Pmm

variable {s : Pmm} {free : Table ℕ}

/-- What is expected of `alloc_buddy` when `alloc_pages(n)` calls it. -/
structure FailsCleanly (s : Pmm) (n : Uint) : Prop where
  clean : (∀ j < 17, Nat.clog 2 n.toNat ≤ j → s.pageBlkList j = none) →
    ∃ r, s.allocBuddy (n <<< 2) = .ok r ∧ r.flag = 0 ∧ r.blk = none ∧
      r.pmm.links = s.links ∧ r.pmm.pageBlkList = s.pageBlkList ∧
      r.pmm.blkNum = s.blkNum
  found : (∃ j < 17, Nat.clog 2 n.toNat ≤ j ∧ s.pageBlkList j ≠ none) →
    ∃ r, s.allocBuddy (n <<< 2) = .ok r ∧ r.flag = 1

theorem requestPages_shift_mod (n : Uint) :
    requestPages (n <<< 2) = n.toNat % 2 ^ 30 := by
  have hn := n.isLt
  unfold requestPages
  rw [BitVec.toNat_shiftLeft, Nat.shiftLeft_eq]
  rw [if_neg (by omega)]
  omega

theorem requestOrder_eq {x : ℕ} (hlt : x < 2 ^ 32) :
    requestOrder x = Nat.clog 2 x := by
  rcases Nat.eq_zero_or_pos x with rfl | hpos
  · rfl
  · exact order_eq_clog hpos hlt

/-- A block that is taken comes from a list of its order or above. -/
theorem takes_from {k : ℕ} (hk : k < 17) {blk : List ℕ} {free' : Table ℕ}
    (htakes : Takes 17 k free blk free') : ∃ j < 17, k ≤ j ∧ free j ≠ [] := by
  have hblk := htakes.block_ne_nil
  cases htakes with
  | exact hfree _ =>
      refine ⟨k, hk, le_refl k, ?_⟩
      rw [hfree]
      exact fun hnil => hblk (List.append_eq_nil_iff.mp hnil).1
  | split hki hi _ hfree _ _ =>
      refine ⟨_, hi, hki.le, ?_⟩
      rw [hfree]
      intro hnil
      exact hblk (List.append_eq_nil_iff.mp (List.append_eq_nil_iff.mp hnil).1).2

/-- With an order that `buddy_table` has, the call returns. -/
theorem Represents.allocBuddy_returns (hs : s.Represents free) {memsize : Uint}
    {k : ℕ} (horder : requestOrder (requestPages memsize) = k) (hk : k < 17) :
    (s.allocBuddy memsize = .ok ⟨none, 0, s⟩ ∧
        ∀ j < 17, k ≤ j → s.pageBlkList j = none) ∨
      (∃ r, s.allocBuddy memsize = .ok r ∧ r.flag = 1) ∧
        ∃ j < 17, k ≤ j ∧ s.pageBlkList j ≠ none := by
  rcases hs.allocBuddy_order horder hk with
    ⟨hnone, hempty⟩ | ⟨blk, free', t, hsome, halloc⟩
  · left
    exact ⟨hnone, fun j hj hkj =>
      (hs.pageBlkList_eq_none hj).mpr (hempty j hkj hj)⟩
  · right
    obtain ⟨j, hj, hkj, hfree⟩ := takes_from hk halloc.takes
    exact ⟨⟨_, hsome, rfl⟩, j, hj, hkj,
      mt (hs.pageBlkList_eq_none hj).mp hfree⟩

/-- The order of the request is not above the one it should have. -/
theorem Represents.failsCleanly_iff (hs : s.Represents free) {n : Uint} {k : ℕ}
    (horder : requestOrder (requestPages (n <<< 2)) = k) (hk : k < 17)
    (hle : k ≤ Nat.clog 2 n.toNat) :
    s.FailsCleanly n ↔
      ((∀ j < 17, Nat.clog 2 n.toNat ≤ j → s.pageBlkList j = none) →
        ∀ j < 17, k ≤ j → s.pageBlkList j = none) := by
  rcases hs.allocBuddy_returns horder hk with
    ⟨hfail, hempty⟩ | ⟨⟨r, hserve, hflag⟩, j, hj, hkj, hsome⟩
  · refine iff_of_true ⟨fun _ => ⟨_, hfail, rfl, rfl, rfl, rfl, rfl⟩, ?_⟩
      fun _ => hempty
    rintro ⟨j, hj, hnj, hsome⟩
    exact absurd (hempty j hj (hle.trans hnj)) hsome
  · constructor
    · rintro ⟨hclean, _⟩ hnone
      obtain ⟨r', hrun, hzero, _⟩ := hclean hnone
      rw [hserve] at hrun
      obtain rfl := Except.ok.inj hrun
      omega
    · intro hempty
      exact ⟨fun hnone => absurd (hempty hnone j hj hkj) hsome,
        fun _ => ⟨r, hserve, hflag⟩⟩

/-- With an order that `buddy_table` does not have, the call does not return. -/
theorem not_failsCleanly {n : Uint} {k : ℕ}
    (horder : requestOrder (requestPages (n <<< 2)) = k) (hk : 17 ≤ k) :
    ¬ s.FailsCleanly n := by
  have hfault := allocBuddy_badIndex (s := s) horder hk
  rintro ⟨hclean, hfound⟩
  by_cases hnone : ∀ j < 17, Nat.clog 2 n.toNat ≤ j → s.pageBlkList j = none
  · obtain ⟨r, hrun, _⟩ := hclean hnone
    rw [hfault] at hrun
    cases hrun
  · push Not at hnone
    obtain ⟨r, hrun, _⟩ := hfound hnone
    rw [hfault] at hrun
    cases hrun

end Pmm

namespace BuddySession

open Pmm

/-- `alloc_pages(n)` fails cleanly, and fails only when it must, just for the
page counts up to `2 ^ 16`, and for those from `2 ^ 30` on for which the
remainder cannot be served. -/
theorem fails_cleanly_iff {info : BootInfo} {low : Page} {s₀ : Pmm}
    (hinit : Pmm.initBuddy info (.boot low) = .ok s₀)
    {calls : List Call} {s : State} (hrun : Run Step ⟨s₀, []⟩ calls s)
    {n : Uint} (hpos : 1 ≤ n.toNat) (hint : n.toNat < 2 ^ 31) :
    s.pmm.FailsCleanly n ↔ n.toNat ≤ 2 ^ 16 ∨
      2 ^ 30 ≤ n.toNat ∧ n.toNat % 2 ^ 30 ≤ 2 ^ 16 ∧
        ∀ j < 17, Nat.clog 2 (n.toNat % 2 ^ 30) ≤ j →
          s.pmm.pageBlkList j = none := by
  obtain ⟨free₀, hinitial⟩ := Pmm.initBuddy_initial hinit
  obtain ⟨free, blocks, hs⟩ :=
    inv_of_run hrun ⟨free₀, [], inv_of_initial hinitial⟩
  have hmod : n.toNat % 2 ^ 30 < 2 ^ 30 := Nat.mod_lt _ (by norm_num)
  have horder : requestOrder (requestPages (n <<< 2)) =
      Nat.clog 2 (n.toNat % 2 ^ 30) := by
    rw [requestPages_shift_mod, requestOrder_eq (by omega)]
  have hlt : ∀ x, Nat.clog 2 x < 17 ↔ x ≤ 2 ^ 16 := by
    intro x
    rw [Nat.lt_succ_iff]
    exact Nat.clog_le_iff_le_pow (by norm_num)
  by_cases hmax : n.toNat % 2 ^ 30 ≤ 2 ^ 16
  · rw [hs.represents.failsCleanly_iff horder ((hlt _).mpr hmax)
      (Nat.clog_mono_right 2 (Nat.mod_le _ _))]
    rcases Nat.lt_or_ge n.toNat (2 ^ 30) with hsmall | hlarge
    · rw [Nat.mod_eq_of_lt hsmall] at hmax ⊢
      exact iff_of_true id (.inl hmax)
    · have hk : 17 ≤ Nat.clog 2 n.toNat := by
        rw [← Nat.not_lt, hlt]
        omega
      constructor
      · intro hempty
        exact .inr ⟨hlarge, hmax, hempty fun j hj hkj => absurd hj (by omega)⟩
      · rintro (hle | ⟨_, _, hempty⟩) _
        · omega
        · exact hempty
  · refine iff_of_false ?_ (by omega)
    exact not_failsCleanly horder (Nat.not_lt.mp (mt (hlt _).mp hmax))

/-- Six frames serve a request for one page and fail one for eight. -/
theorem fails_cleanly_six_frames :
    ∃ s₀, Pmm.initBuddy (frameMap 6) (.boot zeroPage) = .ok s₀ ∧
      s₀.FailsCleanly 1 ∧ s₀.FailsCleanly 8 := by
  have htrace : trace next 6 [] (fun _ => some ()) = some () := by
    decide +kernel
  obtain ⟨s₀, s, hinit, hrun, _⟩ :=
    run_of_trace htrace fun _ _ _ => step_of_next
  obtain rfl : s = ⟨s₀, []⟩ := run_nil hrun
  exact ⟨s₀, hinit,
    (fails_cleanly_iff hinit .nil (by decide) (by decide)).mpr
      (.inl (by decide)),
    (fails_cleanly_iff hinit .nil (by decide) (by decide)).mpr
      (.inl (by decide))⟩

/-- A request for `2 ^ 16 + 1` pages reads behind the end of `buddy_table`. -/
theorem oversized_request_leaves_table :
    ¬ ∀ (info : BootInfo) (low : Page) (s₀ : Pmm),
      Pmm.initBuddy info (.boot low) = .ok s₀ →
      ∀ (calls : List Call) (s : State), Run Step ⟨s₀, []⟩ calls s →
      ∀ n : Uint, 1 ≤ n.toNat → n.toNat < 2 ^ 31 → s.pmm.FailsCleanly n := by
  intro hall
  have htrace : trace next 6 [] (fun _ => some ()) = some () := by
    decide +kernel
  obtain ⟨s₀, s, hinit, hrun, _⟩ :=
    run_of_trace htrace fun _ _ _ => step_of_next
  have horder : requestOrder (requestPages ((65537 : Uint) <<< 2)) = 17 := by
    decide +kernel
  exact not_failsCleanly horder (le_refl 17)
    (hall _ _ _ hinit _ _ hrun 65537 (by decide) (by decide))

end BuddySession

end OS32
