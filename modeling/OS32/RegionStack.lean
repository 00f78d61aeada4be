import Mathlib.Tactic

/-!
# Regions that lie on each other

A heap that grows and shrinks at one end is a stack of regions.  Each region has
a key, which determines its length, and an address.
-/

namespace RegionStack

variable {ι : Type*} {len : ι → ℕ} {base top start start' : ℕ} {i j : ι}
  {stack : List (ι × ℕ)}

/-- The regions of `stack`, the top one first, fill the space from `base` to
`top`. -/
def Fills (len : ι → ℕ) (base : ℕ) : List (ι × ℕ) → ℕ → Prop
  | [], top => top = base
  | (i, start) :: rest, top => start + len i = top ∧ Fills len base rest start

theorem fills_nil : Fills len base [] top ↔ top = base := Iff.rfl

theorem Fills.base_le (hfills : Fills len base stack top) : base ≤ top := by
  induction stack generalizing top with
  | nil => exact (fills_nil.mp hfills).ge
  | cons region rest ih =>
      obtain ⟨htop, hrest⟩ := hfills
      have hle := ih hrest
      omega

/-- A region lies between `base` and `top`. -/
theorem Fills.inside (hfills : Fills len base stack top)
    (hmem : (i, start) ∈ stack) : base ≤ start ∧ start + len i ≤ top := by
  induction stack generalizing top with
  | nil => cases hmem
  | cons region rest ih =>
      obtain ⟨htop, hrest⟩ := hfills
      rcases List.mem_cons.mp hmem with rfl | hmem
      · exact ⟨hrest.base_le, htop.le⟩
      · obtain ⟨hbase, hend⟩ := ih hrest hmem
        omega

/-- Two regions do not overlap. -/
theorem Fills.apart (hfills : Fills len base stack top)
    (hfirst : (i, start) ∈ stack) (hsecond : (j, start') ∈ stack)
    (hne : i ≠ j) : start + len i ≤ start' ∨ start' + len j ≤ start := by
  induction stack generalizing top with
  | nil => cases hfirst
  | cons region rest ih =>
      obtain ⟨htop, hrest⟩ := hfills
      rcases List.mem_cons.mp hfirst with rfl | hbelow
      · rcases List.mem_cons.mp hsecond with hsame | hbelow
        · exact absurd (congrArg Prod.fst hsame).symm hne
        · exact .inr (hrest.inside hbelow).2
      · rcases List.mem_cons.mp hsecond with rfl | hbelow'
        · exact .inl (hrest.inside hbelow).2
        · exact ih hrest hbelow hbelow'

/-- A region that ends at `top` is the top one. -/
theorem Fills.eq_cons (hfills : Fills len base stack top)
    (hmem : (i, start) ∈ stack) (hend : top ≤ start + len i)
    (hpos : ∀ p ∈ stack, 0 < len p.1) :
    ∃ rest, stack = (i, start) :: rest ∧ Fills len base rest start := by
  cases stack with
  | nil => cases hmem
  | cons region rest =>
      obtain ⟨htop, hrest⟩ := hfills
      rcases List.mem_cons.mp hmem with rfl | hmem
      · exact ⟨rest, rfl, hrest⟩
      · have hlen := hpos region List.mem_cons_self
        have hbelow := (hrest.inside hmem).2
        omega

/-- With each key used once, the space is bounded by the lengths of the keys. -/
theorem Fills.top_le [DecidableEq ι] (hfills : Fills len base stack top)
    (hnodup : (stack.map Prod.fst).Nodup) {keys : Finset ι}
    (hkeys : ∀ p ∈ stack, p.1 ∈ keys) : top ≤ base + ∑ i ∈ keys, len i := by
  induction stack generalizing top keys with
  | nil =>
      rw [fills_nil.mp hfills]
      exact Nat.le_add_right _ _
  | cons region rest ih =>
      obtain ⟨htop, hrest⟩ := hfills
      rw [List.map_cons, List.nodup_cons] at hnodup
      have hkeys' : ∀ p ∈ rest, p.1 ∈ keys.erase region.1 := by
        intro p hp
        refine Finset.mem_erase.mpr ⟨?_, hkeys p (List.mem_cons_of_mem _ hp)⟩
        intro hsame
        exact hnodup.1 (hsame ▸ List.mem_map_of_mem hp)
      have hle := ih hrest hnodup.2 hkeys'
      have hsum := Finset.add_sum_erase keys len
        (hkeys region List.mem_cons_self)
      omega

end RegionStack
