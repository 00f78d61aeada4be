import OS32.SlabModel

/-!
# What the calls of the slab allocator do

One lemma for each function, which says what a call that returns has changed.
Nothing is assumed of the page layer.
-/

namespace OS32

open NullList NullList.Links

namespace Slab

variable {σ : Type} {P : PageOps σ} {h h' : Heap σ} {c : ℕ}

/-! ## Writing a member -/

namespace Heap

@[simp] theorem setSlab_head (h : Heap σ) (a : Uint) (slab : SlabT) (c : ℕ)
    (list : SlabList) : (h.setSlab a slab).head c list = h.head c list := rfl

@[simp] theorem setLinks_head (h : Heap σ) (links : Links Uint) (c : ℕ)
    (list : SlabList) : (h.setLinks links).head c list = h.head c list := rfl

theorem setHead_head (h : Heap σ) (c d : ℕ) (list list' : SlabList)
    (p : SlabPtr) :
    (h.setHead c list p).head d list' =
      if d = c ∧ list' = list then p else h.head d list' := by
  unfold head setHead setCache
  dsimp only
  by_cases hd : d = c
  · subst hd
    rw [Function.update_self]
    by_cases hlist : list' = list
    · simp [hlist]
    · simp [hlist]
  · rw [Function.update_of_ne hd, if_neg (fun hboth => hd hboth.1)]

@[simp] theorem setHead_head_self (h : Heap σ) (c : ℕ) (list : SlabList)
    (p : SlabPtr) : (h.setHead c list p).head c list = p :=
  (setHead_head h c c list list p).trans (if_pos ⟨rfl, rfl⟩)

@[simp] theorem setRefCnt_head (h : Heap σ) (c : ℕ) (refCnt : Uint) (d : ℕ)
    (list : SlabList) : (h.setRefCnt c refCnt).head d list = h.head d list := by
  unfold head setRefCnt setCache
  dsimp only
  by_cases hd : d = c
  · subst hd
    rw [Function.update_self]
  · rw [Function.update_of_ne hd]

end Heap

/-! ## `apply_slab` -/

/-- A page layer without a state that grants every request. -/
def plainPages : PageOps Unit where
  allocPages := fun s _ => .ok (some 0, s)
  startAddr := fun _ _ => 0
  map := fun s _ _ _ => .ok (some 0, s)
  freeBuddy := fun s _ => .ok s
  unmap := fun s _ => s

theorem mapPages_cases {n i : ℕ} {pgList pgList' : PagePtr}
    (hrun : mapPages P n i pgList h = .ok (pgList', h')) :
    ∃ pages, h' = { h with
      pages := pages
      heapTop := h.heapTop + BitVec.ofNat 32 n * PGSIZE } := by
  induction n generalizing i pgList h with
  | zero =>
      cases hrun
      refine ⟨h'.pages, ?_⟩
      have hzero : h'.heapTop + BitVec.ofNat 32 0 * PGSIZE = h'.heapTop := by
        bv_omega
      rw [hzero]
  | succ n ih =>
      obtain ⟨⟨pg, pages⟩, _, hrest⟩ := bind_ok_iff.mp hrun
      obtain ⟨pages', rfl⟩ := ih hrest
      refine ⟨pages', ?_⟩
      have htop : h.heapTop + PGSIZE + BitVec.ofNat 32 n * PGSIZE =
          h.heapTop + BitVec.ofNat 32 (n + 1) * PGSIZE := by
        rw [BitVec.ofNat_add, BitVec.add_mul, BitVec.add_assoc,
          BitVec.add_comm PGSIZE]
        rfl
      rw [htop]

/-- The heap after `apply_slab`. -/
def grown (h : Heap σ) (pgNumber : ℕ) (objPerSlab : Uint) (pgList : PagePtr)
    (pages : σ) : Heap σ :=
  { h with
    slabs := Function.update h.slabs h.heapTop (newSlab (h.slabs h.heapTop)
      h.heapTop (BitVec.ofNat 32 pgNumber) objPerSlab pgList)
    links := (h.links.setPrev (toPtr h.heapTop) none).setNext
      (toPtr h.heapTop) none
    heapTop := h.heapTop + BitVec.ofNat 32 pgNumber * PGSIZE
    pages := pages }

theorem applySlab_cases {pgNumber : ℕ} {objPerSlab origin : Uint}
    (hrun : applySlab P h pgNumber objPerSlab = .ok (origin, h')) :
    origin = h.heapTop ∧
      ∃ pgList pages, h' = grown h pgNumber objPerSlab pgList pages := by
  obtain ⟨⟨pg, pages⟩, _, hrest⟩ := bind_ok_iff.mp hrun
  obtain ⟨⟨pg', h₁⟩, hmap, hret⟩ := bind_ok_iff.mp hrest
  obtain ⟨pages', rfl⟩ := mapPages_cases hmap
  cases hret
  exact ⟨rfl, pg', pages', rfl⟩

/-! ## `init_kmem_cache_alloc` -/

/-- The heap after the first slab `a` of `free_slabs` has been moved. -/
def taken (h : Heap σ) (c : ℕ) (a : Uint) : Heap σ :=
  let next := h.links.next (some a)
  let links := if next = none then h.links else h.links.setPrev next none
  (((h.setLinks links).setHead c .partialSlabs (some a)).setHead c .freeSlabs
    next).setSlab a { h.slabs a with refNum := (h.slabs a).refNum + 1 }

theorem takeFree_eq {a : Uint} (hfree : h.head c .freeSlabs = some a) :
    takeFree h c = .ok (taken h c a) := by
  unfold takeFree taken
  rw [hfree]
  dsimp only [deref, bind, Except.bind]
  by_cases hnext : h.links.next (some a) = none
  · rw [if_neg (not_not.mpr hnext), if_pos hnext, hnext]
    rfl
  · rw [if_pos hnext, if_neg hnext]
    rfl

theorem takeFree_none (hfree : h.head c .freeSlabs = none) :
    takeFree h c = .error .nullSlab := by
  unfold takeFree
  rw [hfree]
  rfl

theorem taken_head (h : Heap σ) (c : ℕ) (a : Uint) (d : ℕ) (list : SlabList) :
    (taken h c a).head d list =
      if d = c ∧ list = .freeSlabs then h.links.next (some a)
      else if d = c ∧ list = .partialSlabs then some a
      else h.head d list := by
  unfold taken
  rw [Heap.setSlab_head, Heap.setHead_head, Heap.setHead_head,
    Heap.setLinks_head]

theorem taken_slabs_self (h : Heap σ) (c : ℕ) (a : Uint) :
    (taken h c a).slabs a =
      { h.slabs a with refNum := (h.slabs a).refNum + 1 } :=
  Function.update_self (β := fun _ => SlabT) _ _ _

theorem taken_links_next (h : Heap σ) (c : ℕ) (a : Uint) :
    (taken h c a).links.next = h.links.next := by
  change (if h.links.next (some a) = none then h.links
    else h.links.setPrev (h.links.next (some a)) none).next = _
  split <;> rfl

theorem taken_links_of_last {a : Uint} (hnext : h.links.next (some a) = none) :
    (taken h c a).links = h.links :=
  if_pos (c := h.links.next (some a) = none) hnext

theorem refill_of_free {a : Uint} (hfree : h.head c .freeSlabs = some a) :
    refill P h c = .ok (taken h c a) := by
  unfold refill
  rw [if_neg (by rw [hfree]; exact Option.some_ne_none a)]
  exact takeFree_eq hfree

/-- With `free_slabs` empty a slab is built and moved at once. -/
theorem refill_of_none (hfree : h.head c .freeSlabs = none)
    (hrun : refill P h c = .ok h') :
    toPtr h.heapTop = some h.heapTop ∧
      ∃ pgList pages, h' = taken ((grown h (pow2 (h.caches c).order)
          (h.caches c).objPerSlab pgList pages).setHead c .freeSlabs
            (some h.heapTop)) c h.heapTop ∧
        applySlab P h (pow2 (h.caches c).order) (h.caches c).objPerSlab =
          .ok (h.heapTop, grown h (pow2 (h.caches c).order)
            (h.caches c).objPerSlab pgList pages) := by
  unfold refill at hrun
  rw [if_pos hfree] at hrun
  obtain ⟨⟨origin, h₁⟩, happly, htake⟩ := bind_ok_iff.mp hrun
  obtain ⟨rfl, pgList, pages, rfl⟩ := applySlab_cases happly
  change takeFree _ c = .ok h' at htake
  cases htop : toPtr h.heapTop with
  | none =>
      -- the slab at address 0 is the null pointer
      rw [takeFree_none (by rw [Heap.setHead_head_self, htop])] at htake
      cases htake
  | some a =>
      have ha : a = h.heapTop := by
        unfold toPtr at htop
        split at htop
        · cases htop
        · exact (Option.some.inj htop).symm
      subst ha
      rw [takeFree_eq (by rw [Heap.setHead_head_self, htop]), htop] at htake
      exact ⟨rfl, pgList, pages, (Except.ok.inj htake).symm, happly⟩

theorem refill_none_head (hfree : h.head c .freeSlabs = none)
    (hrun : refill P h c = .ok h') (d : ℕ) (list : SlabList) :
    h'.head d list =
      if d = c ∧ list = .partialSlabs then some h.heapTop
      else h.head d list := by
  obtain ⟨htop, pgList, pages, rfl, _⟩ := refill_of_none hfree hrun
  rw [taken_head, Heap.setHead_head]
  by_cases hlist : d = c ∧ list = .freeSlabs
  · rcases hlist with ⟨rfl, rfl⟩
    rw [if_pos ⟨rfl, rfl⟩, if_neg (by simp), hfree, ← htop]
    exact setNext_next_self (h.links.setPrev (toPtr h.heapTop) none) _ _
  · rw [if_neg hlist, if_neg hlist]
    rfl

theorem refill_none_links (hfree : h.head c .freeSlabs = none)
    (hrun : refill P h c = .ok h') :
    h'.links = (h.links.setPrev (toPtr h.heapTop) none).setNext
      (toPtr h.heapTop) none := by
  obtain ⟨htop, pgList, pages, rfl, _⟩ := refill_of_none hfree hrun
  rw [taken_links_of_last]
  · rfl
  · rw [← htop]
    exact setNext_next_self (h.links.setPrev (toPtr h.heapTop) none) _ _

theorem refill_none_heapTop (hfree : h.head c .freeSlabs = none)
    (hrun : refill P h c = .ok h') :
    h'.heapTop =
      h.heapTop + BitVec.ofNat 32 (pow2 (h.caches c).order) * PGSIZE := by
  obtain ⟨_, pgList, pages, rfl, _⟩ := refill_of_none hfree hrun
  rfl

theorem refill_none_slabs (hfree : h.head c .freeSlabs = none)
    (hrun : refill P h c = .ok h') :
    ∃ pgList, h'.slabs = Function.update h.slabs h.heapTop
      { newSlab (h.slabs h.heapTop) h.heapTop
          (BitVec.ofNat 32 (pow2 (h.caches c).order)) (h.caches c).objPerSlab
          pgList with refNum := 1 } := by
  obtain ⟨_, pgList, pages, rfl, _⟩ := refill_of_none hfree hrun
  refine ⟨pgList, ?_⟩
  change Function.update (Function.update h.slabs h.heapTop _) h.heapTop
    { Function.update h.slabs h.heapTop _ h.heapTop with
      refNum := (Function.update h.slabs h.heapTop _ h.heapTop).refNum + 1 } = _
  rw [Function.update_idem, Function.update_self]
  rfl

/-- The object that `GetObj` comes to. -/
def nextObj (slab : SlabT) (objSize : Uint) : Uint :=
  slab.obj + objSize * (slab.entry slab.active).setWidth 32

theorem toPtr_eq_none_iff {a : Uint} : toPtr a = none ↔ a = 0 := by
  unfold toPtr
  split
  next hzero => exact iff_of_true rfl hzero
  next hne => exact iff_of_false (Option.some_ne_none a) hne

theorem toPtr_eq_some {a b : Uint} (hptr : toPtr a = some b) :
    b = a ∧ a ≠ 0 := by
  unfold toPtr at hptr
  split at hptr
  · cases hptr
  next hne => exact ⟨(Option.some.inj hptr).symm, hne⟩

theorem getObj_of_full {slab : SlabT} (objSize : Uint)
    (hfull : slab.active = slab.objNum) : getObj slab objSize = (none, slab) :=
  if_pos hfull

theorem getObj_of_room {slab : SlabT} (objSize : Uint)
    (hroom : slab.active ≠ slab.objNum) :
    getObj slab objSize = (toPtr (nextObj slab objSize), { slab with
      active := slab.active + 1
      refNum := slab.refNum + 1 }) :=
  if_neg hroom

/-- Where the code sees no object: the slab has none left, or the next one is at
the address 0. -/
theorem getObj_null_iff {slab : SlabT} {objSize : Uint} :
    (getObj slab objSize).1 = none ↔
      slab.active = slab.objNum ∨ nextObj slab objSize = 0 := by
  by_cases hfull : slab.active = slab.objNum
  · rw [getObj_of_full _ hfull]
    exact iff_of_true rfl (.inl hfull)
  · rw [getObj_of_room _ hfull, toPtr_eq_none_iff, or_iff_right hfull]

/-- The members that calls leave as they are. -/
structure SameBlock (slab slab' : SlabT) : Prop where
  obj : slab'.obj = slab.obj
  objNum : slab'.objNum = slab.objNum
  freeList : slab'.freeList = slab.freeList
  slabSize : slab'.slabSize = slab.slabSize

/-- `GetObj` that hands out an object changes two counters of the slab. -/
theorem getObj_some {slab slab' : SlabT} {objSize ret : Uint}
    (hget : getObj slab objSize = (some ret, slab')) :
    slab.active ≠ slab.objNum ∧ ret = nextObj slab objSize ∧ ret ≠ 0 ∧
      slab' = { slab with
        active := slab.active + 1
        refNum := slab.refNum + 1 } := by
  by_cases hfull : slab.active = slab.objNum
  · rw [getObj_of_full _ hfull] at hget
    cases hget
  · rw [getObj_of_room _ hfull] at hget
    obtain ⟨hptr, rfl⟩ := Prod.mk.inj hget
    obtain ⟨rfl, hne⟩ := toPtr_eq_some hptr
    exact ⟨hfull, rfl, hne, rfl⟩

/-- `FreeObj` changes two counters of the slab and its free list. -/
theorem freeObj_some {slab slab' : SlabT} {objSize objAddr : Uint}
    (hfree : freeObj objAddr slab objSize = some slab') :
    ∃ entry, slab' = { slab with
      active := slab.active - 1
      refNum := slab.refNum - 1
      entry := entry } := by
  unfold freeObj at hfree
  dsimp only at hfree
  split at hfree
  · cases hfree
  · cases hfree
    exact ⟨_, rfl⟩

theorem getObj_block {slab slab' : SlabT} {objSize ret n : Uint}
    (hget : getObj { slab with refNum := n } objSize = (some ret, slab')) :
    SameBlock slab slab' := by
  obtain ⟨_, _, _, rfl⟩ := getObj_some hget
  exact ⟨rfl, rfl, rfl, rfl⟩

theorem freeObj_block {slab slab' : SlabT} {objSize objAddr : Uint}
    (hfree : freeObj objAddr slab objSize = some slab') :
    SameBlock slab slab' := by
  obtain ⟨entry, rfl⟩ := freeObj_some hfree
  exact ⟨rfl, rfl, rfl, rfl⟩

theorem getPartialObj_eq {a : Uint} {ret : Option Uint} {slab : SlabT}
    (hpart : h.head c .partialSlabs = some a)
    (hget : getObj (h.slabs a) (h.caches c).size = (ret, slab)) :
    getPartialObj h c = .ok (ret, h.setSlab a slab) := by
  unfold getPartialObj
  rw [hpart]
  dsimp only [deref, bind, Except.bind]
  rw [hget]
  rfl

/-- The second part of `init_kmem_cache_alloc`, on a nonempty
`partial_slabs`. -/
def handOut (P : PageOps σ) (h : Heap σ) (c : ℕ) :
    Except Fault (Option Uint × Heap σ) := do
  let (ret, h) ← getPartialObj h c
  if ret = none then getPartialObj (← moveFull P h c) c else return (ret, h)

/-- The heap once `init_kmem_cache_alloc` has counted `ref_cnt` up. -/
def counted (h : Heap σ) (c : ℕ) : Heap σ :=
  h.setRefCnt c ((h.caches c).refCnt + 1)

@[simp] theorem counted_head (h : Heap σ) (c d : ℕ) (list : SlabList) :
    (counted h c).head d list = h.head d list :=
  Heap.setRefCnt_head _ _ _ _ _

theorem initKmemCacheAlloc_of_some {a : Uint}
    (hpart : h.head c .partialSlabs = some a) :
    initKmemCacheAlloc P h c = handOut P (counted h c) c := by
  unfold initKmemCacheAlloc
  dsimp only
  rw [Heap.setRefCnt_head, if_neg (by rw [hpart]; exact Option.some_ne_none a)]
  rfl

theorem initKmemCacheAlloc_of_none (hpart : h.head c .partialSlabs = none) :
    initKmemCacheAlloc P h c =
      refill P (counted h c) c >>= fun h => handOut P h c := by
  unfold initKmemCacheAlloc
  dsimp only
  rw [Heap.setRefCnt_head, if_pos hpart]
  rfl

theorem handOut_of_room {a ret : Uint} {slab : SlabT}
    (hpart : h.head c .partialSlabs = some a)
    (hget : getObj (h.slabs a) (h.caches c).size = (some ret, slab)) :
    handOut P h c = .ok (some ret, h.setSlab a slab) := by
  unfold handOut
  rw [getPartialObj_eq hpart hget]
  rfl

theorem handOut_of_null {a : Uint} {slab : SlabT}
    (hpart : h.head c .partialSlabs = some a)
    (hget : getObj (h.slabs a) (h.caches c).size = (none, slab)) :
    handOut P h c =
      moveFull P (h.setSlab a slab) c >>= fun h => getPartialObj h c := by
  unfold handOut
  rw [getPartialObj_eq hpart hget]
  rfl

theorem setSlab_self (h : Heap σ) (a : Uint) : h.setSlab a (h.slabs a) = h := by
  unfold Heap.setSlab
  rw [Function.update_eq_self]

theorem handOut_of_full {a : Uint} (hpart : h.head c .partialSlabs = some a)
    (hfull : (h.slabs a).active = (h.slabs a).objNum) :
    handOut P h c = moveFull P h c >>= fun h => getPartialObj h c := by
  rw [handOut_of_null hpart (getObj_of_full _ hfull), setSlab_self]

/-- The walk to the end of an empty `full_slabs` follows a null pointer. -/
theorem moveFull_of_none {a : Uint} (hpart : h.head c .partialSlabs = some a)
    (hfull : h.head c .fullSlabs = none) :
    moveFull P h c = .error .nullSlab := by
  unfold moveFull
  rw [hpart, hfull]
  rfl

theorem moveFull_of_last {a : Uint} {last : SlabPtr}
    (hpart : h.head c .partialSlabs = some a)
    (hlast : lastSlab h (h.head c .fullSlabs) = .ok last)
    (hnext : h.links.next (some a) = none) :
    moveFull P h c = refill P ((h.setLinks (h.links.join last
      (some a))).setHead c .partialSlabs none) c := by
  unfold moveFull
  rw [hpart, hlast]
  dsimp only [deref, bind, Except.bind]
  rw [if_pos hnext]

/-- What `move_full` leaves if the walk along `full_slabs` ends at `last`. -/
theorem moveFull_cases {a : Uint} (hpart : h.head c .partialSlabs = some a)
    (hrun : moveFull P h c = .ok h') :
    ∃ last, lastSlab h (h.head c .fullSlabs) = .ok last ∧
      ((h.links.next (some a) = none ∧
          refill P ((h.setLinks (h.links.join last (some a))).setHead c
            .partialSlabs none) c = .ok h') ∨
        (h.links.next (some a) ≠ none ∧
          ∃ b, (h.links.join last (some a)).next (some a) = some b ∧
            h' = ((h.setLinks (h.links.join last (some a))).setHead c
              .partialSlabs (some b)).setLinks
                ((h.links.join last (some a)).setPrev (some b) none))) := by
  unfold moveFull at hrun
  rw [hpart] at hrun
  obtain ⟨_, hslab, hrest⟩ := bind_ok_iff.mp hrun
  cases hslab
  obtain ⟨last, hlast, hrest⟩ := bind_ok_iff.mp hrest
  refine ⟨last, hlast, ?_⟩
  by_cases hnext : h.links.next (some a) = none
  · rw [if_pos hnext] at hrest
    exact .inl ⟨hnext, hrest⟩
  · rw [if_neg hnext] at hrest
    refine .inr ⟨hnext, ?_⟩
    cases hb : (h.links.join last (some a)).next (some a) with
    | none =>
        dsimp only [Heap.setLinks] at hrest
        rw [hb] at hrest
        cases hrest
    | some b =>
        dsimp only [Heap.setLinks] at hrest
        rw [hb] at hrest
        exact ⟨b, rfl, (Except.ok.inj hrest).symm⟩

end Slab
end OS32
