import Mathlib.Tactic

/-!
# Sorted lists of disjoint intervals

Things of an arbitrary type `α` occupy the half-open intervals from `lo` to
`hi`.  A list of them is sorted if each one ends before those behind it begin.
-/

namespace Intervals

variable {α : Type*} {lo hi : α → ℕ} {l l₁ l₂ : List α} {a b v : α} {x : ℕ}

/-- The intervals of `l` are not empty and follow each other. -/
structure Sorted (lo hi : α → ℕ) (l : List α) : Prop where
  proper : ∀ a ∈ l, lo a < hi a
  before : l.Pairwise fun a b => hi a ≤ lo b

/-- The interval of `a` covers `x`. -/
def Covers (lo hi : α → ℕ) (x : ℕ) (a : α) : Prop := lo a ≤ x ∧ x < hi a

/-- The intervals of `a` and `b` have a point in common. -/
def Overlap (lo hi : α → ℕ) (a b : α) : Prop := lo a < hi b ∧ lo b < hi a

theorem Sorted.tail (hl : Sorted lo hi (a :: l)) : Sorted lo hi l :=
  ⟨fun b hb => hl.proper b (List.mem_cons_of_mem a hb),
    (List.pairwise_cons.mp hl.before).2⟩

theorem Sorted.congr {lo' hi' : α → ℕ} (hl : Sorted lo hi l)
    (hlo : ∀ a, lo' a = lo a) (hhi : ∀ a, hi' a = hi a) :
    Sorted lo' hi' l := by
  obtain rfl : lo' = lo := funext hlo
  obtain rfl : hi' = hi := funext hhi
  exact hl

/-- At most one interval covers a point. -/
theorem Sorted.covers_unique (hl : Sorted lo hi l) (ha : a ∈ l) (hb : b ∈ l)
    (hax : Covers lo hi x a) (hbx : Covers lo hi x b) : a = b := by
  by_contra hne
  have happart : hi a ≤ lo b ∨ hi b ≤ lo a := by
    obtain ⟨l₁, l₂, rfl⟩ := List.append_of_mem ha
    obtain ⟨_, hsecond, hacross⟩ := List.pairwise_append.mp hl.before
    rcases List.mem_append.mp hb with hb | hb
    · exact .inr (hacross b hb a List.mem_cons_self)
    · rcases List.mem_cons.mp hb with rfl | hb
      · exact absurd rfl hne
      · exact .inl ((List.pairwise_cons.mp hsecond).1 b hb)
  unfold Covers at hax hbx
  omega

/-- Below `bound` there is room for `bound` intervals. -/
theorem Sorted.length_le (hl : Sorted lo hi l) (bound : ℕ)
    (hbound : ∀ a ∈ l, hi a ≤ bound) : l.length ≤ bound := by
  suffices hfrom : ∀ start ≤ bound, (∀ a ∈ l, start ≤ lo a) →
      start + l.length ≤ bound by
    have hall := hfrom 0 (Nat.zero_le _) fun _ _ => Nat.zero_le _
    omega
  induction l with
  | nil => exact fun start hstart _ => hstart
  | cons a l ih =>
      intro start _ hlo
      have hproper := hl.proper a List.mem_cons_self
      have hrest := ih hl.tail
        (fun b hb => hbound b (List.mem_cons_of_mem a hb)) (hi a)
        (hbound a List.mem_cons_self) (List.pairwise_cons.mp hl.before).1
      have hstart := hlo a List.mem_cons_self
      rw [List.length_cons]
      omega

/-- What ends before one interval ends before those behind it. -/
theorem Sorted.before_rest (hl : Sorted lo hi (l₁ ++ a :: l₂))
    (hva : hi v ≤ lo a) : ∀ b ∈ a :: l₂, hi v ≤ lo b := by
  intro b hb
  have hproper := hl.proper a (by simp)
  have hsorted := (List.pairwise_append.mp hl.before).2.1
  rcases List.mem_cons.mp hb with rfl | hb
  · exact hva
  · have hab := (List.pairwise_cons.mp hsorted).1 b hb
    omega

/-- An interval goes in between those that end before it and those that begin
after it. -/
theorem Sorted.insert (hl : Sorted lo hi (l₁ ++ l₂)) (hv : lo v < hi v)
    (hbefore : ∀ a ∈ l₁, hi a ≤ lo v) (hafter : ∀ a ∈ l₂, hi v ≤ lo a) :
    Sorted lo hi (l₁ ++ v :: l₂) := by
  obtain ⟨hfirst, hsecond, hacross⟩ := List.pairwise_append.mp hl.before
  constructor
  · intro a ha
    rcases List.mem_append.mp ha with ha | ha
    · exact hl.proper a (List.mem_append_left _ ha)
    · rcases List.mem_cons.mp ha with rfl | ha
      · exact hv
      · exact hl.proper a (List.mem_append_right _ ha)
  · refine List.pairwise_append.mpr
      ⟨hfirst, List.pairwise_cons.mpr ⟨hafter, hsecond⟩, ?_⟩
    intro a ha b hb
    rcases List.mem_cons.mp hb with rfl | hb
    · exact hbefore a ha
    · exact hacross a ha b hb

end Intervals
