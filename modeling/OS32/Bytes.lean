import Mathlib.Tactic

/-!
# Strings in memory

What a pointer points to is a function from offsets.  `overlay` is such a memory
with a list written into it, and `CString` says that a list of nonzero entries
and a zero stand at its start.
-/

namespace Bytes

variable {α : Type*} {m : ℕ → α} {t u : List α} {loc i : ℕ}

/-- The list `t` written into `m` from `loc` on. -/
def overlay (m : ℕ → α) (loc : ℕ) (t : List α) : ℕ → α :=
  fun i => if loc ≤ i then t[i - loc]?.getD (m i) else m i

@[simp] theorem overlay_nil (m : ℕ → α) (loc : ℕ) : overlay m loc [] = m := by
  funext i
  simp [overlay]

theorem overlay_of_lt (m : ℕ → α) (t : List α) (hi : i < loc) :
    overlay m loc t i = m i := if_neg (not_le.mpr hi)

theorem overlay_of_le (m : ℕ → α) (hi : loc + t.length ≤ i) :
    overlay m loc t i = m i := by
  have hnone : t[i - loc]? = none := List.getElem?_eq_none (by omega)
  simp [overlay, hnone]

theorem overlay_get (m : ℕ → α) (loc : ℕ) (hi : i < t.length) :
    overlay m loc t (loc + i) = t[i] := by
  simp [overlay, List.getElem?_eq_getElem hi]

theorem overlay_append (m : ℕ → α) (loc : ℕ) (t u : List α) :
    overlay (overlay m loc t) (loc + t.length) u = overlay m loc (t ++ u) := by
  funext i
  rcases Nat.lt_or_ge i loc with hlt | hle
  · rw [overlay_of_lt _ _ (by omega), overlay_of_lt _ _ hlt,
      overlay_of_lt _ _ hlt]
  · obtain ⟨j, rfl⟩ := Nat.exists_eq_add_of_le hle
    rcases Nat.lt_or_ge j t.length with hj | hj
    · have hjoin : j < (t ++ u).length := by
        rw [List.length_append]
        omega
      rw [overlay_of_lt _ _ (by omega), overlay_get m loc hj,
        overlay_get m loc hjoin, List.getElem_append_left hj]
    · have hindex : loc + j - (loc + t.length) = j - t.length := by omega
      have hthird : loc + j - loc = j := by omega
      simp only [overlay, hindex, hthird, List.getElem?_append_right hj,
        List.getElem?_eq_none hj]
      rw [if_pos (by omega), if_pos (by omega), if_pos (by omega)]
      rfl

theorem overlay_singleton [DecidableEq α] (m : ℕ → α) (loc : ℕ) (c : α) :
    overlay m loc [c] = Function.update m loc c := by
  funext i
  by_cases hi : i = loc
  · subst hi
    simp [overlay]
  · rw [Function.update_of_ne hi]
    rcases Nat.lt_or_ge i loc with hlt | hle
    · exact overlay_of_lt m _ hlt
    · exact overlay_of_le m (by simp; omega)

section CString

variable [Zero α]

/-- The string `t` and its terminator stand at the start of `m`. -/
structure CString (m : ℕ → α) (t : List α) : Prop where
  chars : ∀ i (hi : i < t.length), m i = t[i]
  nonzero : (0 : α) ∉ t
  nul : m t.length = 0

theorem CString.ne_zero (ht : CString m t) (hi : i < t.length) : m i ≠ 0 := by
  intro hzero
  rw [ht.chars i hi] at hzero
  exact ht.nonzero (hzero ▸ List.getElem_mem hi)

theorem CString.length_le (ht : CString m t) (hu : CString m u) :
    t.length ≤ u.length := by
  by_contra hlt
  exact ht.ne_zero (not_le.mp hlt) hu.nul

theorem CString.unique (ht : CString m t) (hu : CString m u) : t = u := by
  have hlength := le_antisymm (ht.length_le hu) (hu.length_le ht)
  refine List.ext_getElem hlength fun i hi hi' => ?_
  rw [← ht.chars i hi, ← hu.chars i hi']

theorem cstring_overlay (hnonzero : (0 : α) ∉ t) (hnul : m t.length = 0) :
    CString (overlay m 0 t) t := by
  refine ⟨fun i hi => ?_, hnonzero, ?_⟩
  · have hget := overlay_get m 0 hi
    rwa [Nat.zero_add] at hget
  · rw [overlay_of_le m (by omega)]
    exact hnul

/-- The string up to the first zero. -/
theorem cstring_of_first {n : ℕ} (hnonzero : ∀ i < n, m i ≠ 0)
    (hnul : m n = 0) : CString m ((List.range n).map m) := by
  refine ⟨fun i hi => by simp, ?_, by simpa using hnul⟩
  intro hmem
  obtain ⟨i, hi, hzero⟩ := List.mem_map.mp hmem
  exact hnonzero i (List.mem_range.mp hi) hzero

end CString

end Bytes
