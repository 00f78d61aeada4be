import OS32.SlabSteps

/-!
# Taking a slab from `free_slabs`

`init_kmem_cache_alloc` moves the first slab to `partial_slabs` and leaves its
`next` as it is.  If there is a second free slab, it is on two lists afterwards.
-/

namespace NullList
namespace Links

variable {α : Type*}

/-- A chain that starts like a segment goes on where the segment ends. -/
theorem Seg.chain_append {m : Links α} {before before' p after : Option α}
    {l l' : List α} (hseg : m.Seg before p l after)
    (hchain : m.Chain before' p l') :
    ∃ rest before'', l' = l ++ rest ∧ m.Chain before'' after rest := by
  induction l generalizing before before' p l' with
  | nil =>
      obtain rfl := seg_nil.mp hseg
      exact ⟨l', before', rfl, hchain⟩
  | cons a l ih =>
      obtain ⟨rfl, _, hrest⟩ := seg_cons.mp hseg
      cases l' with
      | nil => exact absurd hchain (Option.some_ne_none a)
      | cons b l' =>
          obtain ⟨hab, _, hchain'⟩ := chain_cons.mp hchain
          obtain rfl := Option.some.inj hab
          obtain ⟨rest, before'', rfl, hafter⟩ := ih hrest hchain'
          exact ⟨rest, before'', rfl, hafter⟩

/-- The walk to the end, if it gets there. -/
theorem Chain.tail_eq_some {m : Links α} {before p q : Option α} {l : List α}
    {fuel : ℕ} (hchain : m.Chain before p l) (hl : l ≠ [])
    (htail : m.tail fuel p = some q) : q = lastPtr before l := by
  induction fuel generalizing before p l with
  | zero => cases htail
  | succ fuel ih =>
      cases l with
      | nil => exact absurd rfl hl
      | cons a l =>
          obtain ⟨rfl, _, hrest⟩ := chain_cons.mp hchain
          rw [lastPtr_cons]
          unfold Links.tail at htail
          split at htail
          · next hnext =>
              rw [hnext] at hrest
              cases l with
              | nil => exact (Option.some.inj htail).symm
              | cons b l => exact absurd hrest.1.symm (Option.some_ne_none b)
          · next b hnext =>
              rw [hnext] at hrest
              refine ih hrest ?_ htail
              rintro rfl
              exact Option.some_ne_none b hrest

end Links
end NullList

namespace OS32

open NullList NullList.Links

namespace Slab

variable {σ : Type} {P : PageOps σ} {h h' : Heap σ} {c : ℕ}

/-- The slab lists of the cache `c` are well linked and have no slab in
common. -/
structure WellLinked (h : Heap σ) (c : ℕ) (free part full : List Uint) :
    Prop where
  freeSlabs : h.links.Chain none (h.head c .freeSlabs) free
  partialSlabs : h.links.Chain none (h.head c .partialSlabs) part
  fullSlabs : h.links.Chain none (h.head c .fullSlabs) full
  nodup : (free ++ part ++ full).Nodup

/-- `init_kmem_cache_alloc` moves `a` from the front of `free_slabs` to
`partial_slabs`, and `rest` stays. -/
def MovesFirst (P : PageOps σ) (h : Heap σ) (c : ℕ) (a : Uint)
    (rest : List Uint) : Prop :=
  ∃ ret h' full, initKmemCacheAlloc P h c = .ok (ret, h') ∧
    WellLinked h' c rest [a] full

variable {a : Uint} {rest full : List Uint}

/-- The heap once `a` has been moved. -/
def movedFirst (h : Heap σ) (c : ℕ) (a : Uint) : Heap σ :=
  taken (counted h c) c a

theorem movedFirst_head (h : Heap σ) (c : ℕ) (a : Uint) (list : SlabList) :
    (movedFirst h c a).head c list =
      if list = .freeSlabs then h.links.next (some a)
      else if list = .partialSlabs then some a else h.head c list := by
  unfold movedFirst
  rw [taken_head, counted_head]
  simp only [true_and]
  rfl

theorem movedFirst_next (h : Heap σ) (c : ℕ) (a : Uint) :
    (movedFirst h c a).links.next = h.links.next :=
  taken_links_next _ _ _

theorem movedFirst_links_of_last (hnext : h.links.next (some a) = none) :
    (movedFirst h c a).links = h.links :=
  taken_links_of_last (h := counted h c) hnext

theorem initKmemCacheAlloc_of_free (hpart : h.head c .partialSlabs = none)
    (hfree : h.head c .freeSlabs = some a) :
    initKmemCacheAlloc P h c = handOut P (movedFirst h c a) c := by
  rw [initKmemCacheAlloc_of_none hpart,
    refill_of_free ((counted_head _ _ _ _).trans hfree)]
  rfl

theorem movedFirst_size (h : Heap σ) (c : ℕ) (a : Uint) :
    ((movedFirst h c a).caches c).size = (h.caches c).size := by
  unfold movedFirst taken counted Heap.setSlab Heap.setHead Heap.setLinks
    Heap.setRefCnt Heap.setCache
  simp only [Function.update_self]

theorem getObj_movedFirst_null_iff :
    (getObj ((movedFirst h c a).slabs a) ((movedFirst h c a).caches c).size).1 =
        none ↔
      (h.slabs a).active = (h.slabs a).objNum ∨
        nextObj (h.slabs a) (h.caches c).size = 0 := by
  have hslab : (movedFirst h c a).slabs a =
      { h.slabs a with refNum := (h.slabs a).refNum + 1 } :=
    taken_slabs_self _ _ _
  rw [getObj_null_iff, hslab, movedFirst_size]
  rfl

/-- With an object left in the first free slab, it is handed out. -/
theorem handOut_movedFirst_of_room
    (hroom : (h.slabs a).active ≠ (h.slabs a).objNum)
    (hobj : nextObj (h.slabs a) (h.caches c).size ≠ 0) :
    ∃ ret slab, handOut P (movedFirst h c a) c =
      .ok (some ret, (movedFirst h c a).setSlab a slab) := by
  have hnot := mt getObj_movedFirst_null_iff.mp (not_or.mpr ⟨hroom, hobj⟩)
  obtain ⟨ret, hret⟩ := Option.ne_none_iff_exists'.mp hnot
  exact ⟨ret, _, handOut_of_room (movedFirst_head _ _ _ _) (Prod.ext hret rfl)⟩

/-- The other slabs stay linked when the first one goes. -/
theorem WellLinked.movedFirst_of_last (hlinked : WellLinked h c [a] [] full)
    (slab : SlabT) :
    WellLinked ((movedFirst h c a).setSlab a slab) c [] [a] full := by
  obtain ⟨hfree, hprev, hnext⟩ := chain_cons.mp hlinked.freeSlabs
  have hlinks := movedFirst_links_of_last (c := c) hnext
  constructor
  · rw [Heap.setSlab_head, movedFirst_head]
    exact hnext
  · rw [Heap.setSlab_head, movedFirst_head]
    change (movedFirst h c a).links.Chain none (some a) [a]
    rw [hlinks]
    exact ⟨rfl, hprev, hnext⟩
  · rw [Heap.setSlab_head, movedFirst_head]
    change (movedFirst h c a).links.Chain none (h.head c .fullSlabs) full
    rw [hlinks]
    exact hlinked.fullSlabs
  · exact hlinked.nodup

/-- The first free slab leads on to the second one from `partial_slabs`. -/
theorem not_wellLinked_of_next {b : Uint} (hnext : h.links.next (some a) = some b)
    {free full : List Uint} : ¬ WellLinked h c free [a] full := by
  intro hlinked
  obtain ⟨_, _, hend⟩ := chain_cons.mp hlinked.partialSlabs
  rw [chain_nil, hnext] at hend
  cases hend

/-- There are not more slabs than addresses. -/
theorem length_le_walkBound {l : List Uint} (hnodup : l.Nodup) :
    l.length ≤ walkBound := by
  have hmap : (l.map BitVec.toNat).Nodup :=
    hnodup.map (fun _ _ heq => BitVec.toNat_inj.mp heq)
  have hsub : (l.map BitVec.toNat).toFinset ⊆ Finset.range (2 ^ 32) := by
    intro n hn
    obtain ⟨b, _, rfl⟩ := List.mem_map.mp (List.mem_toFinset.mp hn)
    exact Finset.mem_range.mpr b.isLt
  have hcard := Finset.card_le_card hsub
  rw [List.toFinset_card_of_nodup hmap, List.length_map, Finset.card_range]
    at hcard
  exact hcard

theorem lastSlab_of_chain {before p : SlabPtr} {l : List Uint}
    (hchain : h.links.Chain before p l) (hl : l ≠ []) :
    lastSlab h p = .ok (lastPtr before l) := by
  have hp : p ≠ none := fun hnone => hl (hchain.eq_nil hnone)
  unfold lastSlab
  rw [if_neg hp, hchain.tail_eq hl (length_le_walkBound hchain.nodup)]

theorem lastSlab_eq {before p last : SlabPtr} {l : List Uint}
    (hchain : h.links.Chain before p l) (hlast : lastSlab h p = .ok last) :
    l ≠ [] ∧ last = lastPtr before l := by
  unfold lastSlab at hlast
  split at hlast
  · cases hlast
  · next hp =>
      have hl := hchain.ne_nil hp
      split at hlast
      · next q htail =>
          obtain rfl := Except.ok.inj hlast
          exact ⟨hl, hchain.tail_eq_some hl htail⟩
      · cases hlast

/-! ## A first slab without objects left -/

/-- After the first slab has given NULL, the lists are those that `moveFull`
leaves. -/
theorem handOut_null_lists {slab : SlabT}
    (hpart : h.head c .partialSlabs = some a)
    (hget : getObj (h.slabs a) (h.caches c).size = (none, slab))
    {r : Option Uint} (hrun : handOut P h c = .ok (r, h')) :
    ∃ h₁, moveFull P (h.setSlab a slab) c = .ok h₁ ∧ h'.links = h₁.links ∧
      ∀ d list, h'.head d list = h₁.head d list := by
  rw [handOut_of_null hpart hget] at hrun
  obtain ⟨h₁, hmove, hrest⟩ := bind_ok_iff.mp hrun
  refine ⟨h₁, hmove, ?_⟩
  cases hsecond : h₁.head c .partialSlabs with
  | none =>
      unfold getPartialObj at hrest
      rw [hsecond] at hrest
      cases hrest
  | some b =>
      rw [getPartialObj_eq hsecond rfl] at hrest
      cases hrest
      exact ⟨rfl, fun _ _ => rfl⟩

/-- The list before `a` once `a` has been joined to it. -/
theorem joined_seg {m : Links Uint} {p : SlabPtr}
    (hchain : m.Chain none p full) (hne : full ≠ []) (hfresh : a ∉ full) :
    (m.join (lastPtr none full) (some a)).Seg none p full (some a) := by
  obtain ⟨l, y, rfl⟩ : ∃ l y, full = l ++ [y] :=
    ⟨_, _, (List.dropLast_append_getLast hne).symm⟩
  have hy : y ∉ l := by
    have hnodup := hchain.nodup
    rw [List.nodup_append] at hnodup
    exact fun hmem => hnodup.2.2 y hmem y (by simp) rfl
  rw [lastPtr_concat]
  refine (Seg.setNext_last hchain hy (some a)).setPrev (some y) ?_
  rintro x hx heq
  exact hfresh (Option.some.inj heq ▸ hx)

/-- The only free slab, if it gives NULL, comes to the end of `full_slabs`. -/
theorem not_wellLinked_of_full (hlinked : WellLinked h c [a] [] full)
    {slab : SlabT} {full' : List Uint}
    (hrun : moveFull P ((movedFirst h c a).setSlab a slab) c = .ok h') :
    ¬ WellLinked h' c [] [a] full' := by
  intro hlinked'
  obtain ⟨hfree, _, hnext⟩ := chain_cons.mp hlinked.freeSlabs
  rw [chain_nil] at hnext
  have hlinks : ((movedFirst h c a).setSlab a slab).links = h.links :=
    movedFirst_links_of_last hnext
  have hfresh : a ∉ full := by
    have hnodup := hlinked.nodup
    rw [List.append_nil, List.singleton_append] at hnodup
    exact (List.nodup_cons.mp hnodup).1
  have hpart : ((movedFirst h c a).setSlab a slab).head c .partialSlabs =
      some a := movedFirst_head _ _ _ _
  obtain ⟨last, hlast, hmoved⟩ := moveFull_cases hpart hrun
  rw [Heap.setSlab_head, movedFirst_head, if_neg (by decide), if_neg (by decide)] at hlast
  rw [hlinks] at hmoved
  obtain ⟨hne, rfl⟩ := lastSlab_eq (hlinks ▸ hlinked.fullSlabs) hlast
  rcases hmoved with ⟨_, hrefill⟩ | ⟨hsecond, _⟩
  · have hempty : ((((movedFirst h c a).setSlab a slab).setLinks (h.links.join
        (lastPtr none full) (some a))).setHead c .partialSlabs none).head c
          .freeSlabs = none := by
      rw [Heap.setHead_head, if_neg (by simp), Heap.setLinks_head,
        Heap.setSlab_head, movedFirst_head]
      exact hnext
    have hhead := refill_none_head hempty hrefill c
    have hlist := hlinked'.fullSlabs
    rw [refill_none_links hempty hrefill, hhead, if_neg (by simp),
      Heap.setHead_head, if_neg (by simp), Heap.setLinks_head,
      Heap.setSlab_head, movedFirst_head] at hlist
    obtain ⟨hsame, _, _⟩ := chain_cons.mp hlinked'.partialSlabs
    rw [hhead, if_pos ⟨rfl, rfl⟩] at hsame
    have htop : (movedFirst h c a).heapTop = a := Option.some.inj hsame
    -- the list goes through `a`, whatever slab is there now
    have hseg := joined_seg hlinked.fullSlabs hne hfresh
    have hapart : ∀ x ∈ full, some x ≠ toPtr (movedFirst h c a).heapTop := by
      rw [htop]
      rintro x hx heq
      unfold toPtr at heq
      split at heq
      · cases heq
      · exact hfresh (Option.some.inj heq ▸ hx)
    obtain ⟨rest, _, rfl, hafter⟩ := Seg.chain_append
      ((hseg.setPrev none hapart).setNext none hapart) hlist
    cases rest with
    | nil => exact Option.some_ne_none a hafter
    | cons b rest =>
        obtain rfl := Option.some.inj hafter.1
        have hnodup := hlinked'.nodup
        simp at hnodup
  · exact hsecond hnext

theorem movedFirst_full (hlinked : WellLinked h c (a :: rest) [] full) :
    (movedFirst h c a).links.Chain none (h.head c .fullSlabs) full := by
  have hapart : ∀ x ∈ full, x ∉ a :: rest := by
    have hnodup := hlinked.nodup
    rw [List.append_nil, List.nodup_append] at hnodup
    exact fun x hx hmem => hnodup.2.2 x hmem x hx rfl
  change (if h.links.next (some a) = none then h.links
    else h.links.setPrev (h.links.next (some a)) none).Chain _ _ _
  split
  · exact hlinked.fullSlabs
  · next hnext =>
      refine hlinked.fullSlabs.setPrev none ?_
      obtain ⟨_, _, hrest⟩ := chain_cons.mp hlinked.freeSlabs
      cases rest with
      | nil => exact absurd hrest hnext
      | cons b rest =>
          rintro x hx heq
          rw [hrest.1] at heq
          obtain rfl := Option.some.inj heq
          exact hapart x hx (by simp)

/-- A first slab that gives NULL, if there is a second one, leaves
`partial_slabs` to the second one. -/
theorem not_wellLinked_of_full_next {b : Uint} {slab : SlabT}
    {free full' : List Uint} (hlinked : WellLinked h c (a :: b :: rest) [] full)
    (hrun : moveFull P ((movedFirst h c a).setSlab a slab) c = .ok h') :
    ¬ WellLinked h' c free [a] full' := by
  intro hlinked'
  obtain ⟨_, _, hrest⟩ := chain_cons.mp hlinked.freeSlabs
  have hnext : h.links.next (some a) = some b := hrest.1
  have hnodup := hlinked.nodup
  rw [List.append_nil, List.nodup_append] at hnodup
  have hpart : ((movedFirst h c a).setSlab a slab).head c .partialSlabs =
      some a := movedFirst_head _ _ _ _
  obtain ⟨last, hlast, hmoved⟩ := moveFull_cases hpart hrun
  rw [Heap.setSlab_head, movedFirst_head, if_neg (by decide), if_neg (by decide)] at hlast
  obtain ⟨hne, rfl⟩ := lastSlab_eq (movedFirst_full hlinked) hlast
  have hafter : ((movedFirst h c a).setSlab a slab).links.next (some a) =
      some b := by
    change (movedFirst h c a).links.next (some a) = some b
    rw [movedFirst_next, hnext]
  rw [hafter] at hmoved
  rcases hmoved with ⟨hsecond, _⟩ | ⟨_, b', hb', rfl⟩
  · cases hsecond
  · have hlastNe : some a ≠ lastPtr none full := by
      intro heq
      rw [lastPtr, Option.or_none] at heq
      exact hnodup.2.2 a (by simp) a (List.mem_of_getLast? heq.symm) rfl
    have hsame : ((movedFirst h c a).setSlab a slab).links.next (some a) =
        some b' := by
      rw [← hb']
      exact (setNext_next_of_ne _ _ hlastNe).symm
    rw [hafter] at hsame
    obtain rfl := Option.some.inj hsame
    obtain ⟨hhead, _, _⟩ := chain_cons.mp hlinked'.partialSlabs
    rw [Heap.setLinks_head, Heap.setHead_head_self] at hhead
    obtain rfl := Option.some.inj hhead
    simp at hnodup

/-! ## The three lists after the call -/

/-- The lists are well linked after the call just when the first free slab was
the only one and has an object to hand out. -/
theorem moves_first_iff (hlinked : WellLinked h c (a :: rest) [] full) :
    MovesFirst P h c a rest ↔
      rest = [] ∧ (h.slabs a).active ≠ (h.slabs a).objNum ∧
        nextObj (h.slabs a) (h.caches c).size ≠ 0 := by
  obtain ⟨hfree, _, hrest⟩ := chain_cons.mp hlinked.freeSlabs
  have hpart : h.head c .partialSlabs = none := hlinked.partialSlabs
  unfold MovesFirst
  rw [initKmemCacheAlloc_of_free hpart hfree, ← not_or,
    ← getObj_movedFirst_null_iff]
  by_cases hnull : (getObj ((movedFirst h c a).slabs a)
      ((movedFirst h c a).caches c).size).1 = none
  · -- the first slab comes to `full_slabs`
    constructor
    · rintro ⟨ret, h', full', hrun, hlinked'⟩
      obtain ⟨h₁, hmove, hlinks, hhead⟩ :=
        handOut_null_lists (movedFirst_head _ _ _ _) (Prod.ext hnull rfl) hrun
      have hlinked₁ : WellLinked h₁ c rest [a] full' := by
        have hlists := hlinked'
        constructor
        · rw [← hlinks, ← hhead]
          exact hlists.freeSlabs
        · rw [← hlinks, ← hhead]
          exact hlists.partialSlabs
        · rw [← hlinks, ← hhead]
          exact hlists.fullSlabs
        · exact hlists.nodup
      cases rest with
      | nil => exact absurd hlinked₁ (not_wellLinked_of_full hlinked hmove)
      | cons b rest =>
          exact absurd hlinked₁ (not_wellLinked_of_full_next hlinked hmove)
    · rintro ⟨_, hnot⟩
      exact absurd hnull hnot
  · obtain ⟨hroom, hobj⟩ := not_or.mp (mt getObj_movedFirst_null_iff.mpr hnull)
    obtain ⟨ret, slab, hrun⟩ :=
      handOut_movedFirst_of_room (P := P) (c := c) hroom hobj
    constructor
    · rintro ⟨ret', h', full', hrun', hlinked'⟩
      cases hrun.symm.trans hrun'
      refine ⟨?_, hnull⟩
      cases rest with
      | nil => rfl
      | cons b rest =>
          refine absurd hlinked' (not_wellLinked_of_next (b := b) ?_)
          change (movedFirst h c a).links.next (some a) = some b
          rw [movedFirst_next]
          exact hrest.1
    · rintro ⟨rfl, _⟩
      exact ⟨_, _, full, hrun, hlinked.movedFirst_of_last slab⟩

/-- A cache with slabs at the addresses `slabs` on `free_slabs`, each as
`apply_slab` builds it for two objects. -/
def freeSlabsOnly (slabs : List Uint) : Heap Unit :=
  let h := (bootHeap ()).setCache cacheCache
    (createBootCache "cache_cache" sizeofKmemCache 1)
  let h := h.setHead cacheCache .freeSlabs slabs.head?
  { h with
    slabs := fun a => newSlab (h.slabs a) a 1 2 none
    links := {
      next := fun p => p.bind fun a => slabs[slabs.idxOf a + 1]?
      prev := fun p => p.bind fun a =>
        if slabs.idxOf a = 0 then none else slabs[slabs.idxOf a - 1]? } }

theorem moves_first_one :
    WellLinked (freeSlabsOnly [0xE0001000]) cacheCache [0xE0001000] [] [] ∧
      MovesFirst plainPages (freeSlabsOnly [0xE0001000]) cacheCache 0xE0001000
        [] := by
  have hlinked : WellLinked (freeSlabsOnly [0xE0001000]) cacheCache
      [0xE0001000] [] [] := ⟨⟨rfl, rfl, rfl⟩, rfl, rfl, by decide⟩
  exact ⟨hlinked, (moves_first_iff hlinked).mpr ⟨rfl, by decide, by decide⟩⟩

/-- Of two free slabs the first one still leads on to the second one. -/
theorem moves_first_two :
    ¬ ∀ (h : Heap Unit) (c : ℕ) (a : Uint) (rest full : List Uint),
      WellLinked h c (a :: rest) [] full →
      (∀ x ∈ a :: rest, (h.slabs x).active = 0 ∧ (h.slabs x).objNum ≠ 0 ∧
        nextObj (h.slabs x) (h.caches c).size ≠ 0) →
      MovesFirst plainPages h c a rest := by
  intro hall
  have hlinked : WellLinked (freeSlabsOnly [0xE0001000, 0xE0002000]) cacheCache
      [0xE0001000, 0xE0002000] [] [] :=
    ⟨⟨rfl, rfl, rfl, rfl, rfl⟩, rfl, rfl, by decide⟩
  obtain ⟨ret, h', full, hrun, hlinked'⟩ := hall _ _ _ _ _ hlinked (by
    intro x hx
    rcases List.mem_pair.mp hx with rfl | rfl
    · exact ⟨rfl, by decide, by decide⟩
    · exact ⟨rfl, by decide, by decide⟩)
  have hnext : h'.links.next (some 0xE0001000) = some 0xE0002000 := by
    cases hrun
    rfl
  exact not_wellLinked_of_next hnext hlinked'

end Slab
end OS32
