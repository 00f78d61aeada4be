import OS32.BuddyTable

/-!
# Tables with at most one block of each order

In such a table the orders that have a block are the digits of the number of
frames, written in base two.  Putting a block back is addition with carries, as
every block that is met is merged, and taking one is subtraction: the second
half of a block is handed out and the first half stays.
-/

namespace BuddyTable

variable {α : Type*} {N k : ℕ} {free free' : Table α} {blk : List α}

/-- Each list below order `N` is empty or one block. -/
def Binary (N : ℕ) (free : Table α) : Prop :=
  ∀ k < N, free k = [] ∨ (free k).length = 2 ^ k

theorem frames_succ (N : ℕ) (free : Table α) :
    frames (N + 1) free = frames N free + (free N : Multiset α) :=
  Finset.sum_range_succ _ N

theorem Binary.card_lt (hfree : Binary N free) :
    (frames N free).card < 2 ^ N := by
  induction N with
  | zero => simp [frames]
  | succ N ih =>
      have hlow := ih fun k hk => hfree k (by omega)
      rw [frames_succ, Multiset.card_add, Multiset.coe_card, pow_succ]
      rcases hfree N (by omega) with hnil | hlength
      · rw [hnil, List.length_nil]
        omega
      · omega

/-- The orders with a block are the binary digits of the number of frames. -/
theorem Binary.testBit_card (hfree : Binary N free) (hk : k < N) :
    (frames N free).card.testBit k = true ↔ free k ≠ [] := by
  induction N with
  | zero => omega
  | succ N ih =>
      have hlow : Binary N free := fun k hk => hfree k (by omega)
      have hlt := hlow.card_lt
      rw [frames_succ, Multiset.card_add, Multiset.coe_card]
      rcases Nat.lt_succ_iff_lt_or_eq.mp hk with hkN | rfl
      · rcases hfree N (by omega) with hnil | hlength
        · rw [hnil, List.length_nil, Nat.add_zero]
          exact ih hlow hkN
        · rw [hlength, Nat.add_comm, Nat.testBit_two_pow_add_gt hkN]
          exact ih hlow hkN
      · rcases hfree k (by omega) with hnil | hlength
        · rw [hnil, List.length_nil, Nat.add_zero,
            Nat.testBit_lt_two_pow hlt]
          simp
        · rw [hlength, Nat.add_comm, Nat.testBit_two_pow_add_eq,
            Nat.testBit_lt_two_pow hlt]
          exact iff_of_true rfl (ne_nil_of_length_eq_pow hlength)

/-- There is a block of order `k` or above just when there are enough frames
for one. -/
theorem Binary.exists_block_iff (hfree : Binary N free) :
    (∃ j < N, k ≤ j ∧ free j ≠ []) ↔ 2 ^ k ≤ (frames N free).card := by
  constructor
  · rintro ⟨j, hj, hkj, hblk⟩
    calc 2 ^ k ≤ 2 ^ j := Nat.pow_le_pow_right (by norm_num) hkj
      _ ≤ (frames N free).card :=
        Nat.ge_two_pow_of_testBit ((hfree.testBit_card hj).mpr hblk)
  · intro hle
    obtain ⟨j, hkj, hbit⟩ := Nat.exists_ge_and_testBit_of_ge_two_pow hle
    have hj : j < N := by
      by_contra hNj
      rw [Nat.testBit_lt_two_pow (hfree.card_lt.trans_le
        (Nat.pow_le_pow_right (by norm_num) (Nat.not_lt.mp hNj)))] at hbit
      exact Bool.false_ne_true hbit
    exact ⟨j, hj, hkj, (hfree.testBit_card hj).mp hbit⟩

/-- A block at the front of a list is the whole list. -/
theorem Binary.rest_eq_nil (hfree : Binary N free) (hk : k < N)
    {rest : List α} (hparts : free k = blk ++ rest)
    (hlength : blk.length = 2 ^ k) : rest = [] := by
  have hblk := ne_nil_of_length_eq_pow hlength
  rcases hfree k hk with hnil | hwhole
  · rw [hparts] at hnil
    exact absurd (List.append_eq_nil_iff.mp hnil).1 hblk
  · rw [hparts, List.length_append] at hwhole
    exact List.length_eq_zero_iff.mp (by omega)

theorem Binary.update (hfree : Binary N free) {l : List α}
    (hl : l = [] ∨ l.length = 2 ^ k) :
    Binary N (Function.update free k l) := by
  intro j hj
  by_cases hjk : j = k
  · subst hjk
    rwa [Function.update_self]
  · rw [Function.update_of_ne hjk]
    exact hfree j hj

theorem Binary.takes (hfree : Binary N free) (hk : k < N)
    (htakes : Takes N k free blk free') : Binary N free' := by
  cases htakes with
  | exact hparts hlength =>
      rw [hfree.rest_eq_nil hk hparts hlength]
      exact hfree.update (Or.inl rfl)
  | @split i low _ rest hki hi hempty hparts hlow hhigh =>
      have hlength : (low ++ blk).length = 2 ^ i := by
        obtain ⟨i, rfl⟩ := Nat.exists_eq_add_one.mpr (by omega : 0 < i)
        rw [List.length_append, hlow, hhigh, ← two_mul, ← pow_succ']
        rfl
      rw [hfree.rest_eq_nil hi hparts hlength]
      exact (hfree.update (Or.inl rfl)).update (Or.inr hlow)

/-- One carry for each block that is merged. -/
theorem Binary.puts {first : ℕ → List α → Bool}
    (hputs : Puts first k blk free free') (hfree : Binary N free) (hk : k < N)
    (hblk : blk.length = 2 ^ k)
    (hcard : (frames N free + (blk : Multiset α)).card < 2 ^ N) :
    Binary N free' := by
  induction hputs with
  | rest _ => exact hfree.update (Or.inr hblk)
  | @merge k blk buddy rest free free' hparts hbuddy _ ih =>
      have hnext := merge_order_lt hk hblk hparts hbuddy hcard
      have hrest := hfree.rest_eq_nil hk hparts hbuddy
      refine ih (hfree.update (Or.inl hrest)) hnext ?_ ?_
      · rw [blend_length, hbuddy, hblk, ← two_mul, ← pow_succ']
      · rwa [frames_merge hk first blk hparts]

end BuddyTable
