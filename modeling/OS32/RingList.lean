import OS32.NullList

/-!
# Circular doubly linked lists

A ring is a head node and the nodes met from it by `next` until the head comes
up again; `prev` meets the same nodes the other way round.  A ring can be
entered at any of its nodes, so that the effect of inserting and unlinking is
only computed next to the head.
-/

namespace NullList
namespace Links

variable {α : Type*}

/-- `b` comes right after `a`. -/
def Linked (m : Links α) (a b : α) : Prop :=
  m.next (some a) = some b ∧ m.prev (some b) = some a

/-- The head `h` and the nodes `l` form a ring. -/
structure Ring (m : Links α) (h : α) (l : List α) : Prop where
  linked : (h :: (l ++ [h])).IsChain m.Linked
  nodup : (h :: l).Nodup

/-- The nodes met from `p` by `step` until `h` comes up, ended after `fuel`
steps. -/
def ringNodes [DecidableEq α] (step : Option α → Option α) (h : α) :
    ℕ → Option α → Option (List α)
  | 0, _ => none
  | _ + 1, none => none
  | fuel + 1, some a =>
      if a = h then some []
      else (ringNodes step h fuel (step (some a))).map (a :: ·)

/-- `next` and `prev` exchanged. -/
def flip (m : Links α) : Links α := ⟨m.prev, m.next⟩

variable {m m' : Links α} {h : α} {l : List α}

theorem Ring.next_head (hring : m.Ring h l) :
    m.next (some h) = some (l.headD h) := by
  cases l with
  | nil => exact (List.isChain_cons_cons.mp hring.linked).1.1
  | cons a l => exact (List.isChain_cons_cons.mp hring.linked).1.1

theorem ring_nil (hnext : m.next (some h) = some h)
    (hprev : m.prev (some h) = some h) : m.Ring h [] :=
  ⟨List.isChain_pair.mpr ⟨hnext, hprev⟩, List.nodup_singleton h⟩

/-- A ring, entered at another of its nodes. -/
theorem Ring.rotate {l₁ l₂ : List α} {y : α}
    (hring : m.Ring h (l₁ ++ y :: l₂)) : m.Ring y (l₂ ++ h :: l₁) := by
  obtain ⟨hlinked, hnodup⟩ := hring
  constructor
  · rw [List.append_assoc, List.cons_append, List.isChain_cons_split] at hlinked
    rw [List.append_assoc, List.cons_append, List.isChain_cons_split]
    exact ⟨hlinked.2, hlinked.1⟩
  · have hperm : (y :: (l₂ ++ h :: l₁)).Perm (h :: (l₁ ++ y :: l₂)) := by
      calc ((y :: l₂) ++ (h :: l₁)).Perm ((h :: l₁) ++ (y :: l₂)) :=
            List.perm_append_comm
        _ = h :: (l₁ ++ y :: l₂) := rfl
    exact hperm.nodup_iff.mpr hnodup

theorem Ring.next_head_eq_iff (hring : m.Ring h l) :
    m.next (some h) = some h ↔ l = [] := by
  rw [hring.next_head]
  cases l with
  | nil => simp
  | cons a l =>
      have hah : a ≠ h := by
        rintro rfl
        simpa using hring.nodup
      simpa using hah

/-- Changing the relation along a path, where the last node has no
successor. -/
theorem isChain_concat_imp {R S : α → α → Prop} {c : α} :
    ∀ {l : List α}, (l ++ [c]).IsChain R →
      (∀ a ∈ l, ∀ b ∈ (l ++ [c]).tail, R a b → S a b) →
      (l ++ [c]).IsChain S
  | [], _, _ => List.isChain_singleton c
  | a :: l, hchain, himp => by
      obtain ⟨hfirst, hrest⟩ := List.isChain_cons.mp hchain
      refine List.isChain_cons.mpr ⟨fun b hb => ?_, ?_⟩
      · exact himp a (by simp) b (List.mem_of_mem_head? hb) (hfirst b hb)
      · refine isChain_concat_imp hrest fun a' ha' b hb hR => ?_
        exact himp a' (by simp [ha']) b (List.mem_of_mem_tail hb) hR

theorem concat_head? : (l ++ [h]).head? = some (l.headD h) := by
  cases l <;> rfl

theorem headD_mem : l.headD h ∈ h :: l := by
  cases l <;> simp

theorem ne_headD_of_mem_tail (hnodup : (h :: l).Nodup) {c : α}
    (hc : c ∈ (l ++ [h]).tail) : c ≠ l.headD h := by
  cases l with
  | nil => simp at hc
  | cons b l =>
      rintro rfl
      simp_all

/-- A ring depends only on the links of its nodes. -/
theorem Ring.congr (hring : m.Ring h l)
    (hnext : ∀ a ∈ h :: l, m'.next (some a) = m.next (some a))
    (hprev : ∀ a ∈ h :: l, m'.prev (some a) = m.prev (some a)) :
    m'.Ring h l := by
  refine ⟨hring.linked.imp_of_mem_imp fun a b ha hb hab => ?_, hring.nodup⟩
  have hmem : ∀ a ∈ h :: (l ++ [h]), a ∈ h :: l := by
    simp only [List.mem_cons, List.mem_append]
    tauto
  exact ⟨(hnext a (hmem a ha)).trans hab.1, (hprev b (hmem b hb)).trans hab.2⟩

theorem AgreeOff.ring {S : Set α} (hagree : AgreeOff S m m')
    (hS : ∀ a ∈ h :: l, a ∉ S) (hring : m.Ring h l) : m'.Ring h l :=
  hring.congr (fun a ha => (hagree a (hS a ha)).1)
    (fun a ha => (hagree a (hS a ha)).2)

/-! ## Reading -/

theorem ring_flip : m.flip.Ring h l.reverse ↔ m.Ring h l := by
  have hpath : h :: (l.reverse ++ [h]) = (h :: (l ++ [h])).reverse := by simp
  have hlinked : (fun a b => m.flip.Linked b a) = m.Linked := by
    funext a b
    exact propext and_comm
  constructor
  · rintro ⟨hchain, hnodup⟩
    rw [hpath, List.isChain_reverse, hlinked] at hchain
    exact ⟨hchain, by simpa using hnodup⟩
  · rintro ⟨hchain, hnodup⟩
    refine ⟨?_, by simpa using hnodup⟩
    rwa [hpath, List.isChain_reverse, hlinked]

theorem Ring.prev_head (hring : m.Ring h l) :
    m.prev (some h) = some (l.getLastD h) := by
  have hflip := (ring_flip.mpr hring).next_head
  cases l using List.reverseRecOn with
  | nil => exact hflip
  | append_singleton l a => simpa [flip] using hflip

/-- The neighbours of a node of a ring are nodes of the ring. -/
theorem Ring.next_mem (hring : m.Ring h l) {x a : α} (hx : x ∈ h :: l)
    (hnext : m.next (some x) = some a) : a ∈ h :: l := by
  rcases List.mem_cons.mp hx with rfl | hx
  · rw [hring.next_head] at hnext
    exact Option.some.inj hnext ▸ headD_mem
  · obtain ⟨l₁, l₂, rfl⟩ := List.append_of_mem hx
    rw [hring.rotate.next_head] at hnext
    have hmem : a ∈ x :: (l₂ ++ h :: l₁) :=
      Option.some.inj hnext ▸ headD_mem
    simp only [List.mem_cons, List.mem_append] at hmem ⊢
    tauto

theorem Ring.prev_mem (hring : m.Ring h l) {x a : α} (hx : x ∈ h :: l)
    (hprev : m.prev (some x) = some a) : a ∈ h :: l := by
  have hmem := (ring_flip.mpr hring).next_mem (x := x) (a := a)
    (by simpa using hx) hprev
  simpa using hmem

/-- `x` is met on the way from `h` by `next`, or on the way by `prev`. -/
def Listed (m : Links α) (h x : α) : Prop :=
  ∃ n, m.next^[n + 1] (some h) = some x ∨ m.prev^[n + 1] (some h) = some x

theorem iterate_next {x : α} {l₁ l₂ : List α}
    (hchain : (h :: (l₁ ++ x :: l₂)).IsChain m.Linked) :
    m.next^[l₁.length + 1] (some h) = some x := by
  induction l₁ generalizing h with
  | nil => exact (List.isChain_cons_cons.mp hchain).1.1
  | cons a l₁ ih =>
      obtain ⟨hfirst, hrest⟩ := List.isChain_cons_cons.mp hchain
      rw [List.length_cons, Function.iterate_succ_apply, hfirst.1]
      exact ih hrest

theorem Ring.iterate_next_mem (hring : m.Ring h l) (n : ℕ) :
    ∃ a ∈ h :: l, m.next^[n] (some h) = some a := by
  induction n with
  | zero => exact ⟨h, List.mem_cons_self, rfl⟩
  | succ n ih =>
      obtain ⟨a, ha, hn⟩ := ih
      rw [Function.iterate_succ_apply', hn]
      rcases List.mem_cons.mp ha with rfl | ha
      · exact ⟨_, headD_mem, hring.next_head⟩
      · obtain ⟨l₁, l₂, rfl⟩ := List.append_of_mem ha
        have hnext := hring.rotate.next_head
        exact ⟨_, hring.next_mem (by simp) hnext, hnext⟩

/-- In a ring the nodes met either way are its nodes. -/
theorem Ring.listed_iff (hring : m.Ring h l) {x : α} (hx : x ≠ h) :
    m.Listed h x ↔ x ∈ l := by
  have hmem : ∀ {m : Links α} {l : List α}, m.Ring h l → ∀ n,
      m.next^[n + 1] (some h) = some x → x ∈ l := by
    intro m l hring n hn
    obtain ⟨a, ha, hna⟩ := hring.iterate_next_mem (n + 1)
    obtain rfl : a = x := Option.some.inj (hna.symm.trans hn)
    simpa [hx] using ha
  constructor
  · rintro ⟨n, hn | hn⟩
    · exact hmem hring n hn
    · simpa using hmem (ring_flip.mpr hring) n hn
  · intro hl
    obtain ⟨l₁, l₂, rfl⟩ := List.append_of_mem hl
    have hchain : (h :: (l₁ ++ x :: (l₂ ++ [h]))).IsChain m.Linked := by
      simpa using hring.linked
    exact ⟨l₁.length, Or.inl (iterate_next hchain)⟩

section Decidable

variable [DecidableEq α]

theorem ringNodes_eq {fuel : ℕ} (hchain : (l ++ [h]).IsChain m.Linked)
    (hnot : h ∉ l) (hfuel : l.length < fuel) :
    ringNodes m.next h fuel (some (l.headD h)) = some l := by
  induction l generalizing fuel with
  | nil =>
      cases fuel with
      | zero => simp at hfuel
      | succ fuel => simp [ringNodes]
  | cons a l ih =>
      cases fuel with
      | zero => simp at hfuel
      | succ fuel =>
          obtain ⟨hfirst, hrest⟩ := List.isChain_cons.mp hchain
          have hah : a ≠ h := fun heq => hnot (by simp [heq])
          have hnext : m.next (some a) = some (l.headD h) := by
            apply (hfirst (l.headD h) _).1
            cases l <;> simp
          simp only [List.headD_cons, ringNodes, if_neg hah, hnext]
          rw [ih hrest (fun hmem => hnot (by simp [hmem]))
            (by simpa using hfuel)]
          rfl

/-- Forwards, a ring reads as its list. -/
theorem Ring.nodes_next (hring : m.Ring h l) {fuel : ℕ}
    (hfuel : l.length < fuel) :
    ringNodes m.next h fuel (m.next (some h)) = some l := by
  rw [hring.next_head]
  exact ringNodes_eq (List.isChain_cons.mp hring.linked).2
    (List.nodup_cons.mp hring.nodup).1 hfuel

theorem Ring.unique {l' : List α} (hring : m.Ring h l) (hring' : m.Ring h l') :
    l = l' := by
  have hl := hring.nodes_next (Nat.lt_succ_of_le (Nat.le_add_right _ l'.length))
  have hl' := hring'.nodes_next (Nat.lt_succ_of_le (Nat.le_add_left _ l.length))
  exact Option.some.inj (hl.symm.trans hl')

/-- Backwards, it reads as the reverse. -/
theorem Ring.nodes_prev (hring : m.Ring h l) {fuel : ℕ}
    (hfuel : l.length < fuel) :
    ringNodes m.prev h fuel (m.prev (some h)) = some l.reverse :=
  (ring_flip.mpr hring).nodes_next (by simpa using hfuel)

/-! ## Inserting and unlinking -/

/-- Put `x` between `p` and `q`. -/
def insert (m : Links α) (p : Option α) (x : α) (q : Option α) : Links α :=
  (((m.setNext p (some x)).setNext (some x) q).setPrev (some x) p).setPrev
    q (some x)

/-- Take `x` out from between its neighbours. -/
def unlink (m : Links α) (x : α) : Links α :=
  (((m.setNext (m.prev (some x)) (m.next (some x))).setPrev
    (m.next (some x)) (m.prev (some x))).setPrev (some x) none).setNext
      (some x) none

/-- Insertion right after the head. -/
theorem Ring.insertAfter (hring : m.Ring h l) {x : α} (hx : x ∉ h :: l) :
    (m.insert (some h) x (m.next (some h))).Ring h (x :: l) := by
  have hnodup : (h :: x :: l).Nodup := by
    have := hring.nodup
    simp_all [List.nodup_cons, eq_comm]
  obtain ⟨_, hrest⟩ := List.isChain_cons.mp hring.linked
  have htail := fun c => ne_headD_of_mem_tail hring.nodup (c := c)
  have hxb : l.headD h ≠ x := fun heq => hx (heq ▸ headD_mem)
  have hhx : h ≠ x := fun heq => hx (by simp [heq])
  rw [hring.next_head]
  refine ⟨List.isChain_cons_cons.mpr ⟨?_, List.isChain_cons.mpr ⟨?_, ?_⟩⟩,
    hnodup⟩
  · generalize l.headD h = b at hxb
    exact ⟨by simp [insert, setNext, setPrev, hhx],
      by simp [insert, setNext, setPrev, hxb.symm]⟩
  · change ∀ b ∈ (l ++ [h]).head?, _
    rw [concat_head?]
    rintro b ⟨⟩
    exact ⟨by simp [insert, setNext, setPrev],
      by simp [insert, setNext, setPrev]⟩
  · generalize l.headD h = b at hxb htail
    refine isChain_concat_imp hrest fun a ha c hc hac => ⟨?_, ?_⟩
    · have hah : a ≠ h := by rintro rfl; simp_all
      have hax : a ≠ x := by rintro rfl; simp_all
      simpa [insert, setNext, setPrev, hah, hax] using hac.1
    · have hcx : c ≠ x := by
        rintro rfl
        have hmem := List.mem_of_mem_tail hc
        simp_all
      simpa [insert, setNext, setPrev, htail c hc, hcx] using hac.2

/-- Unlinking the node right after the head. -/
theorem Ring.unlinkFirst {x : α} (hring : m.Ring h (x :: l)) :
    (m.unlink x).Ring h l := by
  have hnodup := hring.nodup
  have hkept : (h :: l).Nodup := hnodup.sublist (by simp)
  obtain ⟨hhx, hrest⟩ := List.isChain_cons_cons.mp hring.linked
  obtain ⟨hfirst, htail⟩ := List.isChain_cons.mp hrest
  have hnext : m.next (some x) = some (l.headD h) :=
    (hfirst (l.headD h) concat_head?).1
  have hne := fun c => ne_headD_of_mem_tail hkept (c := c)
  have hhx' : h ≠ x := by rintro rfl; simp at hnodup
  have hxb : l.headD h ≠ x := by
    intro heq
    have hmem : x ∈ h :: l := heq ▸ headD_mem
    simp_all
  refine ⟨List.isChain_cons.mpr ⟨?_, ?_⟩, hkept⟩
  · rw [concat_head?]
    rintro b ⟨⟩
    generalize l.headD h = b at hxb hnext
    exact ⟨by simp [unlink, setNext, setPrev, hhx.2, hnext, hhx'],
      by simp [unlink, setNext, setPrev, hhx.2, hnext, hxb]⟩
  · generalize l.headD h = b at hxb hnext hne
    refine isChain_concat_imp htail fun a ha c hc hac => ⟨?_, ?_⟩
    · have hah : a ≠ h := by rintro rfl; simp_all
      have hax : a ≠ x := by rintro rfl; simp_all
      simpa [unlink, setNext, setPrev, hhx.2, hnext, hah, hax] using hac.1
    · have hcx : c ≠ x := by
        rintro rfl
        have hmem := List.mem_of_mem_tail hc
        simp_all
      simpa [unlink, setNext, setPrev, hhx.2, hnext, hne c hc, hcx]
        using hac.2

/-- Insertion right after a node of the ring. -/
theorem Ring.insertAfterMem {l₁ l₂ : List α} {y x : α}
    (hring : m.Ring h (l₁ ++ y :: l₂)) (hx : x ∉ h :: (l₁ ++ y :: l₂)) :
    (m.insert (some y) x (m.next (some y))).Ring h (l₁ ++ y :: x :: l₂) := by
  have hfresh : x ∉ y :: (l₂ ++ h :: l₁) := by simp_all
  have hinserted := hring.rotate.insertAfter hfresh
  rw [← List.cons_append] at hinserted
  exact hinserted.rotate

/-- Insertion right before the head. -/
theorem Ring.insertBefore (hring : m.Ring h l) {x : α} (hx : x ∉ h :: l) :
    (m.insert (m.prev (some h)) x (some h)).Ring h (l ++ [x]) := by
  have hhead := hring.next_head
  cases l using List.reverseRecOn with
  | nil =>
      rw [hring.prev_head]
      simpa [hhead] using hring.insertAfter hx
  | append_singleton l y =>
      have hy := hring.rotate.next_head
      rw [hring.prev_head]
      simpa [hy] using hring.insertAfterMem hx

/-- Insertion right before a node of the ring. -/
theorem Ring.insertBeforeMem {l₁ l₂ : List α} {y x : α}
    (hring : m.Ring h (l₁ ++ y :: l₂)) (hx : x ∉ h :: (l₁ ++ y :: l₂)) :
    (m.insert (m.prev (some y)) x (some y)).Ring h (l₁ ++ x :: y :: l₂) := by
  have hfresh : x ∉ y :: (l₂ ++ h :: l₁) := by simp_all
  have hinserted := hring.rotate.insertBefore hfresh
  rw [List.append_assoc, List.cons_append] at hinserted
  simpa using hinserted.rotate

/-- Unlinking any node of the ring. -/
theorem Ring.unlinkMem {l₁ l₂ : List α} {x : α}
    (hring : m.Ring h (l₁ ++ x :: l₂)) : (m.unlink x).Ring h (l₁ ++ l₂) := by
  cases l₁ using List.reverseRecOn with
  | nil => exact hring.unlinkFirst
  | append_singleton l₁ y =>
      have hat : m.Ring y ((x :: l₂) ++ h :: l₁) := by
        apply Ring.rotate
        simpa using hring
      simpa using hat.unlinkFirst.rotate

/-! ## Frames -/

/-- An insertion writes the links of the new node and its neighbours only. -/
theorem agreeOff_insert {S : Set α} (m : Links α) {p q : Option α} {x : α}
    (hp : ∀ a, p = some a → a ∈ S) (hx : x ∈ S)
    (hq : ∀ a, q = some a → a ∈ S) : AgreeOff S m (m.insert p x q) := by
  have hself : ∀ a, some x = some a → a ∈ S := by
    rintro a ⟨⟩
    exact hx
  exact (((agreeOff_setNext m _ hp).trans (agreeOff_setNext _ _ hself)).trans
    (agreeOff_setPrev _ _ hself)).trans (agreeOff_setPrev _ _ hq)

theorem agreeOff_unlink {S : Set α} (m : Links α) {x : α}
    (hp : ∀ a, m.prev (some x) = some a → a ∈ S) (hx : x ∈ S)
    (hq : ∀ a, m.next (some x) = some a → a ∈ S) :
    AgreeOff S m (m.unlink x) := by
  have hself : ∀ a, some x = some a → a ∈ S := by
    rintro a ⟨⟩
    exact hx
  exact (((agreeOff_setNext m _ hp).trans (agreeOff_setPrev _ _ hq)).trans
    (agreeOff_setPrev _ _ hself)).trans (agreeOff_setNext _ _ hself)

end Decidable

end Links
end NullList
