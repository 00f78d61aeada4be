import OS32.SlabContract

/-!
# The counters of the caches

`kfree` counts down `ref_cnt` of every cache that it searches, and the first one
is `cache_cache`.
-/

namespace OS32

open NullList NullList.Links Transition

namespace Slab

variable {σ : Type} {P : PageOps σ} {h h' : Heap σ} {c d id : ℕ} {a x : Uint}
  {held : ℕ → Finset ℕ} {s t : Session σ} {caches : List ℕ}

/-- Every counter is the number of live objects of the cache.  Those of
`cache_cache` are the caches that `init_slab` has made with it. -/
def Session.Accounted (s : Session σ) : Prop :=
  ∀ c ∈ s.heap.kmemCaches, (s.heap.caches c).refCnt.toNat =
    (s.live.filter fun p => p.1 = c).card +
      if c = cacheCache then kmemCacheInfo.length else 0

/-- Only the cache `c` has changed, and its counter has gone down by one. -/
def OnlyOwner (h h' : Heap σ) (c : ℕ) : Prop :=
  (h'.caches c).refCnt = (h.caches c).refCnt - 1 ∧
    ∀ d ∈ h.kmemCaches, d ≠ c → h'.caches d = h.caches d

/-- A call after which the counters are right, and which, if it is `kfree`,
only changes the cache of the object. -/
def AccountedStep (P : PageOps σ) (s : Session σ) (i : Call) (t : Session σ) :
    Prop :=
  SessionStep P s i t ∧ t.Accounted ∧
    ∀ a c, i = .kfree a → (c, a) ∈ s.live → OnlyOwner s.heap t.heap c

/-! ## What `kfree` counts -/

theorem searched_refCnt (hnodup : caches.Nodup) (d : ℕ) :
    ((searched h caches).caches d).refCnt =
      if d ∈ caches then (h.caches d).refCnt - 1 else (h.caches d).refCnt := by
  induction caches generalizing h with
  | nil => rfl
  | cons c caches ih =>
      rw [List.nodup_cons] at hnodup
      change ((searched (uncounted h c) caches).caches d).refCnt = _
      rw [ih hnodup.2]
      unfold uncounted
      rw [setRefCnt_refCnt]
      by_cases hd : d = c
      · subst hd
        simp [hnodup.1]
      · simp [hd]

theorem Release.refCnt (hrelease : Release P h c x h') (d : ℕ) :
    (h'.caches d).refCnt = (h.caches d).refCnt := by
  cases hrelease with
  | lost => rfl
  | kept => exact setHead_refCnt _ _ _ _ _
  | returned => rfl

theorem dropped_refCnt {slab : SlabT} (d : ℕ) :
    ((dropped h c x slab).caches d).refCnt =
      ((uncounted h c).caches d).refCnt :=
  setHead_refCnt _ _ _ _ _

/-- The counter of the first cache goes down with every `kfree`. -/
theorem Flat.kfree_refCnt (hflat : Flat h) (hcaches : h.kmemCaches = c :: caches)
    (hnodup : h.kmemCaches.Nodup) (hrun : kfree P h a = .ok h') :
    (h'.caches c).refCnt = (h.caches c).refCnt - 1 := by
  obtain ⟨first, d, rest, x, slab, hsplit, _, _, _, hrelease⟩ :=
    hflat.kfree_cases hrun
  have hjoin : uncounted (searched h first) d = searched h (first ++ [d]) := by
    unfold searched
    rw [List.foldl_append]
    rfl
  have hparts : h.kmemCaches = (first ++ [d]) ++ rest := by
    rw [hsplit, List.append_assoc, List.singleton_append]
  have hmem : c ∈ first ++ [d] := by
    rw [hcaches] at hsplit
    cases first with
    | nil => exact List.mem_singleton.mpr (List.cons.inj hsplit).1
    | cons e first =>
        rw [(List.cons.inj hsplit).1]
        exact List.mem_cons_self
  rw [hparts] at hnodup
  rw [hrelease.refCnt, dropped_refCnt, hjoin,
    searched_refCnt (List.nodup_append.mp hnodup).1, if_pos hmem]

/-! ## Runs -/

/-- What holds between calls while nothing is freed. -/
structure Session.Counted (s : Session σ) (held : ℕ → Finset ℕ) : Prop where
  inv : s.Inv held
  made : (held cacheCache).card = 14
  refCnt : ∀ c, (s.heap.caches c).refCnt = BitVec.ofNat 32 (held c).card

theorem Stock.card_lt (hstock : Stock h held) (c : ℕ) :
    (held c).card < 2 ^ 32 := by
  rcases Finset.eq_empty_or_nonempty (held c) with hempty | ⟨id, hid⟩
  · rw [hempty]
    decide
  · obtain ⟨x, hx⟩ := hstock.partial_of_mem hid
    have hstocked := hstock.stocked c x (slabOf_of_partlyFull hx)
    have hle := hstocked.holds.active_le
    rw [hstocked.holds.active] at hle
    exact hle.trans_lt (hstocked.ids.trans_lt (by decide))

theorem Session.Inv.live_card (hs : s.Inv held) (hlow : 2 ≤ c) :
    (s.live.filter fun p => p.1 = c).card = (held c).card := by
  have himage : (s.live.filter fun p => p.1 = c) =
      (held c).image fun id => (c, addrOf s.heap c id) := by
    ext ⟨d, b⟩
    rw [Finset.mem_filter, Finset.mem_image, hs.live]
    constructor
    · rintro ⟨⟨_, id, hid, rfl⟩, rfl⟩
      exact ⟨id, hid, rfl⟩
    · rintro ⟨id, hid, hsame⟩
      obtain ⟨rfl, rfl⟩ := Prod.mk.inj hsame
      exact ⟨⟨hlow, id, hid, rfl⟩, rfl⟩
  rw [himage]
  refine Finset.card_image_of_injOn ?_
  intro i hi j hj hsame
  exact hs.stock.addrOf_inj hi hj (Prod.mk.inj hsame).2

theorem Session.Counted.accounted (hs : s.Counted held) : s.Accounted := by
  intro c hc
  rw [hs.refCnt, BitVec.toNat_ofNat, Nat.mod_eq_of_lt (hs.inv.stock.card_lt c)]
  by_cases hone : c = cacheCache
  · have hnone : (s.live.filter fun p => p.1 = c) = ∅ := by
      refine Finset.filter_eq_empty_iff.mpr ?_
      rintro ⟨d, b⟩ hmem hd
      have hlow := ((hs.inv.live d b).mp hmem).1
      change d = c at hd
      rw [hd, hone] at hlow
      exact absurd hlow (by decide)
    rw [hnone, if_pos hone, hone, hs.made]
    rfl
  · have hlow : 2 ≤ c := by
      unfold Heap.kmemCaches at hc
      rw [List.mem_range'_1] at hc
      change c ≠ 1 at hone
      omega
    rw [hs.inv.live_card hlow, if_neg hone]
    rfl

theorem initSlab_counted {pages : σ} (hrun : initSlab P pages = .ok h) :
    ∃ held, Session.Counted (⟨h, ∅⟩ : Session σ) held := by
  obtain ⟨held, hstock, hmade, hidle, hrefCnt⟩ := initSlab_stock hrun
  exact ⟨held, hstock.session (initSlab_cases hrun).2 hidle, hmade, hrefCnt⟩

theorem Session.Counted.afterKmalloc (hs : s.Counted held) {size : Uint}
    (hstep : SessionStep P s (.kmalloc size) t) : ∃ held', t.Counted held' := by
  cases hstep with
  | kmalloc hclass hrun =>
      obtain ⟨id, hfresh, hret, hinv⟩ := hs.inv.afterKmalloc hclass hrun
      obtain rfl := Option.some.inj hret
      obtain ⟨c, hc, hclass', halloc⟩ := kmalloc_cases hrun
      obtain rfl := Option.some.inj (hclass'.symm.trans hclass)
      have hlow := (hs.inv.booted.bounds_of_mem_tail hc).1
      refine ⟨_, hinv, ?_, ?_⟩
      · have hne : cacheCache ≠ c := Nat.ne_of_lt hlow
        rw [Function.update_of_ne hne, hs.made]
      · exact hs.inv.stock.flat.refCnt_afterAlloc held hfresh hs.refCnt halloc
  | null hrun =>
      obtain ⟨c, _, hclass, _⟩ := kmalloc_cases hrun
      obtain ⟨id, _, hret, _⟩ := hs.inv.afterKmalloc hclass hrun
      cases hret

theorem countedRun {pages : σ} {calls : List Call}
    (hboot : initSlab P pages = .ok h)
    (hrun : Run (SessionStep P) ⟨h, ∅⟩ calls s)
    (hcalls : ∀ a, Call.kfree a ∉ calls) : ∃ held, s.Counted held := by
  induction hrun with
  | nil => exact initSlab_counted hboot
  | @snoc inputs t u i hfirst hstep ih =>
      obtain ⟨held, ht⟩ := ih (fun a ha => hcalls a (by simp [ha]))
      cases i with
      | kmalloc size => exact ht.afterKmalloc hstep
      | kfree a => exact absurd (by simp) (hcalls a)

/-- `kfree` changes `cache_cache`, which owns none of the objects. -/
theorem Session.Counted.not_onlyOwner (hs : s.Counted held) (hmem : (c, a) ∈ s.live)
    (hrun : kfree P s.heap a = .ok h') : ¬ OnlyOwner s.heap h' c := by
  intro honly
  have hlow := ((hs.inv.live c a).mp hmem).1
  have hcaches : s.heap.kmemCaches = cacheCache :: List.range' 2 14 := by
    unfold Heap.kmemCaches
    rw [hs.inv.booted.cacheNum]
    rfl
  have hsame := honly.2 cacheCache (by rw [hcaches]; exact List.mem_cons_self)
    (Nat.ne_of_lt hlow)
  have hcount := hs.inv.stock.flat.kfree_refCnt hcaches List.nodup_range' hrun
  rw [hsame] at hcount
  bv_omega

/-- The counters are right in a run, and only those of the owners change, just
when nothing is freed. -/
theorem refCnt_iff {pages : σ} {calls : List Call}
    (hboot : initSlab P pages = .ok h) :
    Run (AccountedStep P) ⟨h, ∅⟩ calls s ↔
      Run (SessionStep P) ⟨h, ∅⟩ calls s ∧ ∀ a, Call.kfree a ∉ calls := by
  constructor
  · intro hrun
    induction hrun with
    | nil => exact ⟨.nil, fun a => List.not_mem_nil⟩
    | @snoc inputs t u i _ hstep ih =>
        obtain ⟨hfirst, hcalls⟩ := ih
        rcases hstep with ⟨hstep, _, honly⟩
        refine ⟨.snoc hfirst hstep, ?_⟩
        intro a ha
        rcases List.mem_append.mp ha with ha | ha
        · exact hcalls a ha
        · obtain rfl := (List.mem_singleton.mp ha).symm
          obtain ⟨held, ht⟩ := countedRun hboot hfirst hcalls
          cases hstep with
          | kfree hmem hfree =>
              exact ht.not_onlyOwner hmem hfree (honly _ _ rfl hmem)
  · rintro ⟨hrun, hcalls⟩
    induction hrun with
    | nil => exact .nil
    | @snoc inputs t u i hfirst hstep ih =>
        have hbefore : ∀ a, Call.kfree a ∉ inputs :=
          fun a ha => hcalls a (by simp [ha])
        obtain ⟨held, hu⟩ := countedRun hboot (hfirst.snoc hstep) hcalls
        refine .snoc (ih hbefore) ⟨hstep, hu.accounted, ?_⟩
        rintro a c rfl
        exact absurd (by simp) (hcalls a)

/-- Two objects of 32 bytes are handed out. -/
theorem refCnt_two_objects :
    ∃ (h : Heap Unit) (s : Session Unit), initSlab plainPages () = .ok h ∧
      Run (AccountedStep plainPages) ⟨h, ∅⟩ [.kmalloc 10, .kmalloc 10] s := by
  have hruns : (do
      let h ← initSlab plainPages ()
      let r ← kmalloc plainPages h 10
      let q ← kmalloc plainPages r.2 10
      return (r.1, q.1)) = .ok (some 0xE0002116, some 0xE0002136) := rfl
  obtain ⟨h, hboot, hrest⟩ := bind_ok_iff.mp hruns
  obtain ⟨⟨p, h₁⟩, hfirst, hrest⟩ := bind_ok_iff.mp hrest
  obtain ⟨⟨q, h₂⟩, hsecond, hret⟩ := bind_ok_iff.mp hrest
  obtain ⟨rfl, rfl⟩ := Prod.mk.inj (Except.ok.inj hret)
  obtain ⟨c, _, hclass, _⟩ := kmalloc_cases hfirst
  obtain ⟨d, _, hclass', _⟩ := kmalloc_cases hsecond
  have hrun : Run (SessionStep plainPages) ⟨h, ∅⟩
      ([] ++ [.kmalloc 10] ++ [.kmalloc 10]) _ :=
    .snoc (.snoc .nil (.kmalloc hclass hfirst)) (.kmalloc hclass' hsecond)
  exact ⟨h, _, hboot, (refCnt_iff hboot).mpr ⟨hrun, by simp⟩⟩

/-- An object is handed out and freed, and `cache_cache` counts one cache less
than there are. -/
theorem cache_cache_counted_down :
    ¬ ∀ (h : Heap Unit) (calls : List Call) (s : Session Unit),
      initSlab plainPages () = .ok h →
      Run (SessionStep plainPages) ⟨h, ∅⟩ calls s → s.Accounted := by
  intro hall
  have hruns : (do
      let h ← initSlab plainPages ()
      let r ← kmalloc plainPages h 10
      let h ← kfree plainPages r.2 0xE0002116
      return (r.1, h.cacheNum, (h.caches cacheCache).refCnt)) =
        .ok (some 0xE0002116, 15, 13) := rfl
  obtain ⟨h, hboot, hrest⟩ := bind_ok_iff.mp hruns
  obtain ⟨⟨p, h₁⟩, hfirst, hrest⟩ := bind_ok_iff.mp hrest
  obtain ⟨h₂, hfree, hret⟩ := bind_ok_iff.mp hrest
  simp only [pure, Except.pure, Except.ok.injEq, Prod.mk.injEq] at hret
  obtain ⟨rfl, hnum, hrefCnt⟩ := hret
  obtain ⟨c, _, hclass, _⟩ := kmalloc_cases hfirst
  have hrun : Run (SessionStep plainPages) ⟨h, ∅⟩
      ([] ++ [.kmalloc 10] ++ [.kfree 0xE0002116]) _ :=
    .snoc (.snoc .nil (.kmalloc hclass hfirst))
      (.kfree (Finset.mem_insert_self _ _) hfree)
  have hcounts := hall h _ _ hboot hrun cacheCache (by
    unfold Heap.kmemCaches
    rw [hnum]
    decide)
  change (h₂.caches cacheCache).refCnt.toNat = _ + 14 at hcounts
  rw [hrefCnt] at hcounts
  change 13 = _ at hcounts
  omega

end Slab
end OS32
