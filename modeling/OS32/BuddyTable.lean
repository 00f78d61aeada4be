import Mathlib.Algebra.BigOperators.Group.Finset.Basic
import Mathlib.Tactic

/-!
# Tables of free blocks by order

A buddy system keeps its free frames in lists by order: the list of order `k`
is made of blocks of `2 ^ k` frames.  This file describes, over an arbitrary
type of frames, what it means to take a block out of such a table and to put
one back with merging, and shows that both conserve the frames.

Two things are left open on purpose.  Taking does not say that the block fits
the request exactly, and putting back does not say that the blocks which are
merged are neighbours; a client of these rules has to add that.
-/

namespace BuddyTable

variable {α : Type*}

/-- The frames on the free list of each order, in list order. -/
abbrev Table (α : Type*) := ℕ → List α

/-- The frames on the lists of the orders below `N`. -/
def frames (N : ℕ) (free : Table α) : Multiset α :=
  ∑ k ∈ Finset.range N, (free k : Multiset α)

/-- A block of any order has a frame. -/
theorem ne_nil_of_length_eq_pow {blk : List α} {k : ℕ}
    (hlength : blk.length = 2 ^ k) : blk ≠ [] := by
  rintro rfl
  exact (Nat.two_pow_pos k).ne hlength

theorem coe_le_frames {N k : ℕ} (hk : k < N) (free : Table α) :
    (free k : Multiset α) ≤ frames N free := by
  unfold frames
  rw [← Finset.add_sum_erase _ _ (Finset.mem_range.mpr hk)]
  exact Multiset.le_add_right _ _

theorem mem_frames {N : ℕ} {free : Table α} {a : α} :
    a ∈ frames N free ↔ ∃ k < N, a ∈ free k := by
  simp [frames, Multiset.mem_sum]

theorem frames_update {N k : ℕ} (hk : k < N) (free : Table α)
    (l : List α) :
    frames N (Function.update free k l) + (free k : Multiset α) =
      frames N free + (l : Multiset α) := by
  unfold frames
  have hmem := Finset.mem_range.mpr hk
  rw [← Finset.add_sum_erase _ _ hmem,
    ← Finset.add_sum_erase _ (fun k => (free k : Multiset α)) hmem]
  have hrest :
      ∑ j ∈ (Finset.range N).erase k,
          (Function.update free k l j : Multiset α) =
        ∑ j ∈ (Finset.range N).erase k, (free j : Multiset α) := by
    apply Finset.sum_congr rfl
    intro j hj
    rw [Function.update_of_ne (Finset.ne_of_mem_erase hj)]
  rw [hrest, Function.update_self]
  abel

/-- Cutting the front off one list takes exactly that front out of the
table. -/
theorem frames_drop {N k : ℕ} (hk : k < N) {free : Table α}
    {blk rest : List α} (hfree : free k = blk ++ rest) :
    frames N free =
      (blk : Multiset α) + frames N (Function.update free k rest) := by
  have h := frames_update hk free rest
  rw [hfree, ← Multiset.coe_add, ← add_assoc, add_left_inj] at h
  rw [← h, add_comm]

/-- Filling an empty list adds exactly the new frames to the table. -/
theorem frames_fill {N k : ℕ} (hk : k < N) {free : Table α}
    (hfree : free k = []) (blk : List α) :
    frames N (Function.update free k blk) =
      frames N free + (blk : Multiset α) := by
  simpa [hfree] using frames_update hk free blk

theorem notMem_of_nodup {N j k : ℕ} (hj : j < N) (hk : k < N)
    (hjk : j ≠ k) {free : Table α} (hnodup : (frames N free).Nodup)
    {a : α} (ha : a ∈ free j) : a ∉ free k := by
  have hmemk := Finset.mem_range.mpr hk
  have hmemj : j ∈ (Finset.range N).erase k :=
    Finset.mem_erase.mpr ⟨hjk, Finset.mem_range.mpr hj⟩
  unfold frames at hnodup
  rw [← Finset.add_sum_erase _ _ hmemk,
    ← Finset.add_sum_erase _ _ hmemj] at hnodup
  have hdisjoint := (Multiset.nodup_add.mp hnodup).2.2
  intro hak
  exact Multiset.disjoint_left.mp hdisjoint (by simpa using hak)
    (Multiset.mem_add.mpr (Or.inl (by simpa using ha)))

/-! ## Taking a block -/

/-- `Takes N k free blk free'`: a request of order `k` takes `blk` out of
`free`.  If the list of order `k` is empty, the first block of the next order
that has one is halved; its second half is handed out. -/
inductive Takes (N k : ℕ) (free : Table α) : List α → Table α → Prop
  | exact {blk rest : List α} (hfree : free k = blk ++ rest)
      (hlength : blk.length = 2 ^ k) :
      Takes N k free blk (Function.update free k rest)
  | split {i : ℕ} {low high rest : List α} (hki : k < i) (hi : i < N)
      (hempty : ∀ j, k ≤ j → j < i → free j = [])
      (hfree : free i = low ++ high ++ rest)
      (hlow : low.length = 2 ^ (i - 1)) (hhigh : high.length = 2 ^ (i - 1)) :
      Takes N k free high
        (Function.update (Function.update free i rest) (i - 1) low)

theorem Takes.pow_le_length {N k : ℕ} {free free' : Table α} {blk : List α}
    (htakes : Takes N k free blk free') : 2 ^ k ≤ blk.length := by
  cases htakes with
  | exact _ hlength => exact hlength.symm.le
  | split hki _ _ _ _ hhigh =>
      rw [hhigh]
      exact Nat.pow_le_pow_right (by norm_num) (Nat.le_sub_one_of_lt hki)

/-- Taking a block loses no frame. -/
theorem Takes.frames_eq {N k : ℕ} (hk : k < N) {free free' : Table α}
    {blk : List α} (htakes : Takes N k free blk free') :
    frames N free = (blk : Multiset α) + frames N free' := by
  cases htakes with
  | exact hfree _ => exact frames_drop hk hfree
  | @split i low _ rest hki hi hempty hfree hlow hhigh =>
      have hlower : i - 1 < N := by omega
      have hlist : (Function.update free i rest) (i - 1) = [] := by
        rw [Function.update_of_ne (by omega : i - 1 ≠ i)]
        exact hempty (i - 1) (by omega) (by omega)
      rw [frames_fill hlower hlist, frames_drop hi hfree,
        ← Multiset.coe_add]
      abel

theorem Takes.block_ne_nil {N k : ℕ} {free free' : Table α} {blk : List α}
    (htakes : Takes N k free blk free') : blk ≠ [] := by
  cases htakes with
  | exact _ hlength => exact ne_nil_of_length_eq_pow hlength
  | split _ _ _ _ _ hhigh => exact ne_nil_of_length_eq_pow hhigh

/-! ## Putting a block back -/

/-- The block made of `buddy`, taken from the list of order `k`, and `blk`. -/
def blend (first : ℕ → List α → Bool) (k : ℕ) (buddy blk : List α) :
    List α :=
  if first (k + 1) buddy then buddy ++ blk else blk ++ buddy

theorem blend_coe (first : ℕ → List α → Bool) (k : ℕ)
    (buddy blk : List α) :
    (blend first k buddy blk : Multiset α) = buddy + blk := by
  unfold blend
  split
  · rfl
  · rw [← Multiset.coe_add, add_comm]

@[simp] theorem blend_length (first : ℕ → List α → Bool) (k : ℕ)
    (buddy blk : List α) :
    (blend first k buddy blk).length = buddy.length + blk.length := by
  unfold blend
  split <;> simp [add_comm]

/-- `Puts first k blk free free'`: the block `blk` of order `k` is put into
`free`.  While the list of the current order has a block, the first one is
taken off and merged with `blk`; `first` tells which of the two is put in
front. -/
inductive Puts (first : ℕ → List α → Bool) :
    ℕ → List α → Table α → Table α → Prop
  | rest {k : ℕ} {blk : List α} {free : Table α} (hfree : free k = []) :
      Puts first k blk free (Function.update free k blk)
  | merge {k : ℕ} {blk buddy rest : List α} {free free' : Table α}
      (hfree : free k = buddy ++ rest) (hbuddy : buddy.length = 2 ^ k)
      (hputs : Puts first (k + 1) (blend first k buddy blk)
        (Function.update free k rest) free') :
      Puts first k blk free free'

/-- Merging never leaves the table: two blocks of the last order would need
more frames than there are. -/
theorem merge_order_lt {N k : ℕ} (hk : k < N) {free : Table α}
    {blk buddy rest : List α} (hblk : blk.length = 2 ^ k)
    (hfree : free k = buddy ++ rest) (hbuddy : buddy.length = 2 ^ k)
    (hcard : (frames N free + (blk : Multiset α)).card < 2 ^ N) :
    k + 1 < N := by
  have hle := Multiset.card_le_card (coe_le_frames hk free)
  have htwo : 2 ^ (k + 1) ≤ (frames N free + (blk : Multiset α)).card := by
    rw [Multiset.card_add, Multiset.coe_card, hblk, pow_succ]
    rw [hfree, Multiset.coe_card, List.length_append, hbuddy] at hle
    omega
  exact (Nat.pow_lt_pow_iff_right (by norm_num)).mp (htwo.trans_lt hcard)

theorem frames_merge {N k : ℕ} (hk : k < N)
    (first : ℕ → List α → Bool) (blk : List α) {free : Table α}
    {buddy rest : List α} (hfree : free k = buddy ++ rest) :
    frames N (Function.update free k rest) +
        (blend first k buddy blk : Multiset α) =
      frames N free + blk := by
  rw [blend_coe, frames_drop hk hfree]
  abel

/-- Putting a block back loses no frame and makes none. -/
theorem Puts.frames_eq {N : ℕ} {first : ℕ → List α → Bool} {k : ℕ}
    {blk : List α} {free free' : Table α}
    (hputs : Puts first k blk free free') (hk : k < N)
    (hblk : blk.length = 2 ^ k)
    (hcard : (frames N free + (blk : Multiset α)).card < 2 ^ N) :
    frames N free' = frames N free + blk := by
  induction hputs with
  | rest hfree => exact frames_fill hk hfree _
  | @merge k blk buddy rest free free' hfree hbuddy _ ih =>
      have hnext := merge_order_lt hk hblk hfree hbuddy hcard
      have hsame := frames_merge hk first blk hfree
      rw [← hsame]
      refine ih hnext ?_ (by rwa [hsame])
      rw [blend_length, hbuddy, hblk, pow_succ]
      ring

end BuddyTable
