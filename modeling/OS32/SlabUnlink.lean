import OS32.SlabLists

/-!
# Taking a slab off a list

`move_slab_off_full` and `move_slab_off_partial` clear the links of a slab only
where it has both neighbours.  The first slab of a list keeps its `next`, and
the last one its `prev`.
-/

namespace OS32

open NullList NullList.Links

namespace Slab

variable {σ : Type} {h : Heap σ} {c : ℕ} {list : SlabList} {l : List Uint}
  {x : Uint}

/-- `l` without `x` is well linked, and `x` is ready for another list. -/
structure TakenOff (h : Heap σ) (c : ℕ) (list : SlabList) (l : List Uint)
    (x : Uint) : Prop where
  others : h.links.Chain none (h.head c list) (l.erase x)
  next_null : h.links.next (some x) = none
  prev_null : h.links.prev (some x) = none
  append : ∀ c' list' l', h.links.Chain none (h.head c' list') l' → x ∉ l' →
    ∃ h', addSlab list' h x c' = .ok h' ∧
      h'.links.Chain none (h'.head c' list') (l' ++ [x])

/-! ## Appending -/

/-- A slab without links can be appended to any list. -/
theorem addSlab_chain (hnext : h.links.next (some x) = none)
    (hprev : h.links.prev (some x) = none)
    (hchain : h.links.Chain none (h.head c list) l) (hx : x ∉ l) :
    ∃ h', addSlab list h x c = .ok h' ∧
      h'.links.Chain none (h'.head c list) (l ++ [x]) := by
  have hsingle : h.links.Chain none (some x) [x] := ⟨rfl, hprev, hnext⟩
  unfold addSlab
  rcases List.eq_nil_or_concat' l with rfl | ⟨l₁, y, rfl⟩
  · rw [if_pos (chain_nil.mp hchain)]
    refine ⟨_, rfl, ?_⟩
    rw [Heap.setHead_head_self]
    exact hsingle
  · have hne : h.head c list ≠ none := by
      intro hnone
      have hnil := hchain.eq_nil hnone
      simp at hnil
    rw [if_neg hne, lastSlab_of_chain hchain (by simp), lastPtr_concat]
    refine ⟨_, rfl, hchain.join hsingle ?_⟩
    rintro a ha hmem
    exact hx (List.mem_singleton.mp hmem ▸ ha)

theorem TakenOff.of_cleared (hothers : h.links.Chain none (h.head c list)
      (l.erase x))
    (hnext : h.links.next (some x) = none)
    (hprev : h.links.prev (some x) = none) : TakenOff h c list l x :=
  ⟨hothers, hnext, hprev, fun _ _ _ => addSlab_chain hnext hprev⟩

/-! ## The places in the list -/

theorem takenOff_only (hchain : h.links.Chain none (h.head c list) [x]) :
    TakenOff (moveSlabOff list h x c) c list [x] x := by
  obtain ⟨_, hprev, hnext⟩ := chain_cons.mp hchain
  rw [chain_nil] at hnext
  unfold moveSlabOff
  rw [if_pos hprev]
  refine .of_cleared ?_ hnext hprev
  rw [Heap.setHead_head_self, hnext, List.erase_cons_head]
  exact chain_nil.mpr rfl

/-- The first slab goes on leading to the second one. -/
theorem next_first {z : Uint} {l₂ : List Uint}
    (hchain : h.links.Chain none (h.head c list) (x :: z :: l₂)) :
    (moveSlabOff list h x c).links.next (some x) = some z := by
  obtain ⟨_, hprev, hrest⟩ := chain_cons.mp hchain
  unfold moveSlabOff
  rw [if_pos hprev]
  exact hrest.1

/-- The last slab goes on leading back to the one before it. -/
theorem prev_last {y : Uint} {l₁ : List Uint}
    (hchain : h.links.Chain none (h.head c list) (l₁ ++ [y] ++ [x])) :
    (moveSlabOff list h x c).links.prev (some x) = some y := by
  obtain ⟨p, _, hlast⟩ := chain_append.mp hchain
  obtain ⟨_, hprev, hnext⟩ := chain_cons.mp hlast
  rw [lastPtr_concat] at hprev
  rw [chain_nil] at hnext
  unfold moveSlabOff
  rw [if_neg (hprev ▸ Option.some_ne_none y), if_pos hnext]
  exact hprev

theorem takenOff_middle {y z : Uint} {l₁ l₂ : List Uint}
    (hchain : h.links.Chain none (h.head c list)
      (l₁ ++ [y] ++ x :: z :: l₂)) :
    TakenOff (moveSlabOff list h x c) c list (l₁ ++ [y] ++ x :: z :: l₂) x := by
  have hnodup := hchain.nodup
  obtain ⟨p, hfirst, hmiddle⟩ := chain_append.mp hchain
  obtain ⟨rfl, hprev, hsecond⟩ := chain_cons.mp hmiddle
  have hnext : h.links.next (some x) = some z := hsecond.1
  rw [lastPtr_concat] at hprev
  rw [hnext] at hsecond
  have hbefore : x ∉ l₁ ++ [y] := fun hx =>
    (List.nodup_append.mp hnodup).2.2 x hx x (by simp) rfl
  have hxy : some x ≠ some y := by
    rintro heq
    exact hbefore (Option.some.inj heq ▸ by simp)
  have hkept : (l₁ ++ [y] ++ z :: l₂).Nodup :=
    hnodup.sublist (List.Sublist.append_left (List.sublist_cons_self _ _) _)
  have herase : (l₁ ++ [y] ++ x :: z :: l₂).erase x = l₁ ++ [y] ++ z :: l₂ := by
    rw [List.erase_append_right _ hbefore, List.erase_cons_head]
  have hout : ∀ a ∈ l₁ ++ [y] ++ z :: l₂, some a ≠ some x := by
    rintro a ha heq
    obtain rfl := Option.some.inj heq
    exact hnodup.not_mem_erase (herase ▸ ha)
  -- the neighbours are joined, then the links of `x` are cleared
  have hmoved : moveSlabOff list h x c = h.setLinks
      (((h.links.join (some y) (some z)).setNext (some x) none).setPrev
        (some x) none) := by
    unfold moveSlabOff
    rw [if_neg (hprev ▸ Option.some_ne_none y),
      if_neg (hnext ▸ Option.some_ne_none z)]
    dsimp only
    rw [hprev, hnext, setNext_next_of_ne _ _ hxy, setNext_prev, hnext, hprev]
    rfl
  rw [hmoved]
  refine .of_cleared ?_ (setNext_next_self _ _ _) (setPrev_prev_self _ _ _)
  rw [herase]
  exact ((hfirst.join hsecond hkept).setNext none hout).setPrev none hout

/-- A slab comes off a list as it should if it is the only one of the list or
has both neighbours. -/
theorem takenOff_iff (hchain : h.links.Chain none (h.head c list) l)
    (hx : x ∈ l) : TakenOff (moveSlabOff list h x c) c list l x ↔
      l = [x] ∨ l.head? ≠ some x ∧ l.getLast? ≠ some x := by
  have hnodup := hchain.nodup
  obtain ⟨l₁, l₂, rfl⟩ := List.append_of_mem hx
  rcases List.eq_nil_or_concat' l₁ with rfl | ⟨l₁, y, rfl⟩
  · rcases l₂ with _ | ⟨z, l₂⟩
    · exact iff_of_true (takenOff_only hchain) (.inl rfl)
    · refine iff_of_false (fun htaken => ?_) (by simp)
      exact Option.some_ne_none z
        ((next_first hchain).symm.trans htaken.next_null)
  · rcases l₂ with _ | ⟨z, l₂⟩
    · refine iff_of_false (fun htaken => ?_) ?_
      · exact Option.some_ne_none y
          ((prev_last hchain).symm.trans htaken.prev_null)
      · rintro (honly | ⟨_, hlast⟩)
        · have hlength := congrArg List.length honly
          simp at hlength
        · exact hlast (by simp)
    · refine iff_of_true (takenOff_middle hchain) (.inr ⟨?_, ?_⟩)
      · intro hhead
        rw [List.head?_append_of_ne_nil _ (by simp)] at hhead
        exact (List.nodup_append.mp hnodup).2.2 x (List.mem_of_head? hhead) x
          (by simp) rfl
      · intro hlast
        rw [List.getLast?_append_of_ne_nil _ (List.cons_ne_nil _ _),
          List.getLast?_cons_cons] at hlast
        have hafter := (List.nodup_append.mp hnodup).2.1
        exact (List.nodup_cons.mp hafter).1 (List.mem_of_getLast? hlast)

/-- Three full slabs of `cache_cache`. -/
def threeFull : Heap Unit :=
  let slabs : List Uint := [0xE0001000, 0xE0002000, 0xE0003000]
  ((freeSlabsOnly slabs).setHead cacheCache .freeSlabs none).setHead cacheCache
    .fullSlabs slabs.head?

theorem threeFull_chain :
    threeFull.links.Chain none (threeFull.head cacheCache .fullSlabs)
      [0xE0001000, 0xE0002000, 0xE0003000] :=
  ⟨rfl, rfl, rfl, rfl, rfl, rfl, rfl⟩

theorem takenOff_second :
    TakenOff (moveSlabOff .fullSlabs threeFull 0xE0002000 cacheCache) cacheCache
      .fullSlabs [0xE0001000, 0xE0002000, 0xE0003000] 0xE0002000 :=
  (takenOff_iff threeFull_chain (by decide)).mpr (.inr (by decide))

/-- The first of three slabs still leads on to the second one. -/
theorem first_not_takenOff :
    ¬ ∀ (h : Heap Unit) (c : ℕ) (list : SlabList) (l : List Uint) (x : Uint),
      h.links.Chain none (h.head c list) l → x ∈ l →
      TakenOff (moveSlabOff list h x c) c list l x := by
  intro hall
  have htaken := hall _ _ _ _ 0xE0001000 threeFull_chain (by decide)
  exact Option.some_ne_none _
    ((next_first threeFull_chain).symm.trans htaken.next_null)

end Slab
end OS32
