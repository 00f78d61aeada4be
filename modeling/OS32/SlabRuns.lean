import OS32.SlabObjects

/-!
# Runs of `kmalloc` and `kfree`

`full_slabs` is empty at first, and a slab can only be put behind another one
there: the call that would have to put the first one follows a null pointer.
So as long as the calls return every cache has at most one slab on its lists,
and no slab is linked to another.
-/

namespace OS32

open NullList NullList.Links Transition

namespace Slab

variable {σ : Type} {P : PageOps σ} {h h' : Heap σ} {c : ℕ} {a x : Uint}

/-- The links of slabs that are not linked. -/
def noLinks : Links Uint := ⟨fun _ => none, fun _ => none⟩

structure Flat (h : Heap σ) : Prop where
  links : h.links = noLinks
  full : ∀ c, h.head c .fullSlabs = none
  one : ∀ c, h.head c .partialSlabs = none ∨ h.head c .freeSlabs = none

/-- Only the members of a heap that `Flat` is about matter to it. -/
theorem Flat.congr (hflat : Flat h) (hlinks : h'.links = h.links)
    (hhead : ∀ c list, h'.head c list = h.head c list) : Flat h' := by
  constructor
  · rw [hlinks, hflat.links]
  · intro c
    rw [hhead, hflat.full]
  · intro c
    rw [hhead, hhead]
    exact hflat.one c

theorem Flat.setSlab (hflat : Flat h) (a : Uint) (slab : SlabT) :
    Flat (h.setSlab a slab) :=
  hflat.congr rfl (fun _ _ => rfl)

theorem Flat.setRefCnt (hflat : Flat h) (c : ℕ) (refCnt : Uint) :
    Flat (h.setRefCnt c refCnt) :=
  hflat.congr rfl (fun _ _ => Heap.setRefCnt_head _ _ _ _ _)

theorem setSlab_slabs_self (h : Heap σ) (a : Uint) (slab : SlabT) :
    (h.setSlab a slab).slabs a = slab :=
  Function.update_self (β := fun _ => SlabT) _ _ _

theorem setSlab_setSlab (h : Heap σ) (a : Uint) (slab slab' : SlabT) :
    (h.setSlab a slab).setSlab a slab' = h.setSlab a slab' := by
  unfold Heap.setSlab
  dsimp only
  rw [Function.update_idem]

/-! ## What a cache is for -/

/-- The members of a cache that are written once. -/
def KmemCache.kind (cache : KmemCache) : Uint × Uint × String × ℕ :=
  (cache.size, cache.objPerSlab, cache.name, cache.order)

/-- No cache has changed but for its counter and its lists. -/
def SameKinds (h h' : Heap σ) : Prop :=
  h'.cacheNum = h.cacheNum ∧ ∀ c, (h'.caches c).kind = (h.caches c).kind

theorem SameKinds.refl (h : Heap σ) : SameKinds h h := ⟨rfl, fun _ => rfl⟩

theorem SameKinds.trans {h₁ h₂ h₃ : Heap σ} (hfirst : SameKinds h₁ h₂)
    (hsecond : SameKinds h₂ h₃) : SameKinds h₁ h₃ :=
  ⟨hsecond.1.trans hfirst.1, fun c => (hsecond.2 c).trans (hfirst.2 c)⟩

theorem SameKinds.size (hkinds : SameKinds h h') (c : ℕ) :
    (h'.caches c).size = (h.caches c).size :=
  congrArg Prod.fst (hkinds.2 c)

theorem SameKinds.objPerSlab (hkinds : SameKinds h h') (c : ℕ) :
    (h'.caches c).objPerSlab = (h.caches c).objPerSlab :=
  congrArg (fun kind => kind.2.1) (hkinds.2 c)

theorem SameKinds.order (hkinds : SameKinds h h') (c : ℕ) :
    (h'.caches c).order = (h.caches c).order :=
  congrArg (fun kind => kind.2.2.2) (hkinds.2 c)

theorem setHead_kinds (h : Heap σ) (c : ℕ) (list : SlabList) (p : SlabPtr) :
    SameKinds h (h.setHead c list p) := by
  refine ⟨rfl, fun d => ?_⟩
  unfold Heap.setHead Heap.setCache
  dsimp only
  by_cases hd : d = c
  · subst hd
    rw [Function.update_self]
    rfl
  · rw [Function.update_of_ne hd]

theorem setRefCnt_kinds (h : Heap σ) (c : ℕ) (refCnt : Uint) :
    SameKinds h (h.setRefCnt c refCnt) := by
  refine ⟨rfl, fun d => ?_⟩
  unfold Heap.setRefCnt Heap.setCache
  dsimp only
  by_cases hd : d = c
  · subst hd
    rw [Function.update_self]
    rfl
  · rw [Function.update_of_ne hd]

theorem taken_kinds (h : Heap σ) (c : ℕ) (a : Uint) :
    SameKinds h (taken h c a) := by
  have hfirst := setHead_kinds (h.setLinks (if h.links.next (some a) = none
    then h.links else h.links.setPrev (h.links.next (some a)) none)) c
      .partialSlabs (some a)
  obtain ⟨hnum, hkind⟩ := hfirst.trans
    (setHead_kinds _ c .freeSlabs (h.links.next (some a)))
  exact ⟨hnum, hkind⟩

theorem refill_none_kinds (hfree : h.head c .freeSlabs = none)
    (hrun : refill P h c = .ok h') : SameKinds h h' := by
  obtain ⟨_, pgList, pages, rfl, _⟩ := refill_of_none hfree hrun
  obtain ⟨hnum, hkind⟩ := (setHead_kinds (grown h (pow2 (h.caches c).order)
    (h.caches c).objPerSlab pgList pages) c .freeSlabs
      (some h.heapTop)).trans (taken_kinds _ c h.heapTop)
  exact ⟨hnum, hkind⟩

/-! ## `init_kmem_cache_alloc` -/

/-- The heap with `a` as the only slab of the cache `c`. -/
def placed (h : Heap σ) (c : ℕ) (a : Uint) : Heap σ :=
  (h.setHead c .partialSlabs (some a)).setHead c .freeSlabs none

/-- The slab `a` that a call gets: the one of the cache, or a new one. -/
inductive Supply (h : Heap σ) (c : ℕ) : Heap σ → Uint → Prop
  | cached {a : Uint} :
      h.head c .partialSlabs = some a ∨
        h.head c .partialSlabs = none ∧ h.head c .freeSlabs = some a →
      Supply h c h a
  | built {pgList : PagePtr} {pages : σ} :
      h.head c .partialSlabs = none → h.head c .freeSlabs = none →
      toPtr h.heapTop = some h.heapTop →
      Supply h c (grown h (pow2 (h.caches c).order) (h.caches c).objPerSlab
        pgList pages) h.heapTop

theorem placed_head (h : Heap σ) (c : ℕ) (a : Uint) (d : ℕ) (list : SlabList) :
    (placed h c a).head d list =
      if d = c ∧ list = .freeSlabs then none
      else if d = c ∧ list = .partialSlabs then some a
      else h.head d list := by
  unfold placed
  rw [Heap.setHead_head, Heap.setHead_head]

theorem setHead_same {list : SlabList} {p : SlabPtr} (hp : h.head c list = p) :
    h.setHead c list p = h := by
  subst hp
  unfold Heap.setHead Heap.setCache Heap.head
  rw [Function.update_eq_self]
  exact congrArg (fun caches => { h with caches := caches })
    (Function.update_eq_self c h.caches)

theorem Flat.taken_eq (hflat : Flat h) (c : ℕ) (a : Uint) :
    taken h c a = (placed h c a).setSlab a
      { h.slabs a with refNum := (h.slabs a).refNum + 1 } := by
  have hnext : h.links.next (some a) = none := by
    rw [hflat.links]
    rfl
  unfold taken placed
  dsimp only
  rw [hnext, if_pos rfl]
  rfl

theorem Flat.setFree (hflat : Flat h) (hpart : h.head c .partialSlabs = none)
    (p : SlabPtr) : Flat (h.setHead c .freeSlabs p) := by
  constructor
  · exact hflat.links
  · intro d
    rw [Heap.setHead_head, if_neg (by simp)]
    exact hflat.full d
  · intro d
    rw [Heap.setHead_head, if_neg (by simp)]
    by_cases hd : d = c
    · subst hd
      exact .inl hpart
    · rw [Heap.setHead_head, if_neg (fun hboth => hd hboth.1)]
      exact hflat.one d

theorem Flat.placed (hflat : Flat h) (c : ℕ) (a : Uint) :
    Flat (placed h c a) := by
  constructor
  · exact hflat.links
  · intro d
    rw [placed_head, if_neg (by simp), if_neg (by simp), hflat.full]
  · intro d
    by_cases hd : d = c
    · right
      rw [placed_head, if_pos ⟨hd, rfl⟩]
    · rw [placed_head, placed_head, if_neg (fun hboth => hd hboth.1),
        if_neg (fun hboth => hd hboth.1), if_neg (fun hboth => hd hboth.1),
        if_neg (fun hboth => hd hboth.1)]
      exact hflat.one d

theorem Flat.grown (hflat : Flat h) (pgNumber : ℕ) (objPerSlab : Uint)
    (pgList : PagePtr) (pages : σ) :
    Flat (grown h pgNumber objPerSlab pgList pages) := by
  refine hflat.congr ?_ (fun _ _ => rfl)
  change (h.links.setPrev _ none).setNext _ none = h.links
  rw [hflat.links]
  unfold noLinks setPrev setNext
  dsimp only
  congr 1
  · exact Function.update_eq_self (toPtr h.heapTop) (fun _ => none)
  · exact Function.update_eq_self (toPtr h.heapTop) (fun _ => none)

theorem placed_kinds (h : Heap σ) (c : ℕ) (a : Uint) :
    SameKinds h (placed h c a) :=
  (setHead_kinds h c _ _).trans (setHead_kinds _ _ _ _)

theorem placed_setHead_free (h : Heap σ) (c : ℕ) (a : Uint) (p : SlabPtr) :
    placed (h.setHead c .freeSlabs p) c a = placed h c a := by
  unfold placed Heap.setHead Heap.setCache
  simp only [Function.update_self, Function.update_idem]
  congr 3
  funext list
  cases list with
  | freeSlabs => rfl
  | partialSlabs => rfl
  | fullSlabs => rfl

theorem Supply.flat {h₁ : Heap σ} (hsupply : Supply h c h₁ a) (hflat : Flat h) :
    Flat h₁ := by
  cases hsupply with
  | cached => exact hflat
  | built => exact hflat.grown _ _ _ _

theorem Supply.kinds {h₁ : Heap σ} (hsupply : Supply h c h₁ a) :
    SameKinds h h₁ := by
  cases hsupply with
  | cached => exact .refl h
  | built => exact .refl h

theorem Flat.taken_grown (hflat : Flat h) (hpart : h.head c .partialSlabs = none)
    (pgNumber : ℕ) (objPerSlab : Uint) (pgList : PagePtr) (pages : σ) :
    taken ((Slab.grown h pgNumber objPerSlab pgList pages).setHead c .freeSlabs
        (some h.heapTop)) c h.heapTop =
      (Slab.placed (Slab.grown h pgNumber objPerSlab pgList pages) c
        h.heapTop).setSlab h.heapTop
          { (Slab.grown h pgNumber objPerSlab pgList pages).slabs h.heapTop with
            refNum := ((Slab.grown h pgNumber objPerSlab pgList pages).slabs
              h.heapTop).refNum + 1 } := by
  have hgrown := (hflat.grown pgNumber objPerSlab pgList pages).setFree hpart
    (some h.heapTop)
  rw [hgrown.taken_eq, placed_setHead_free]
  rfl

theorem Flat.refill (hflat : Flat h) (hpart : h.head c .partialSlabs = none)
    (hrun : refill P h c = .ok h') :
    ∃ h₁ a, Supply h c h₁ a ∧ h' = (Slab.placed h₁ c a).setSlab a
      { h₁.slabs a with refNum := (h₁.slabs a).refNum + 1 } := by
  cases hfree : h.head c .freeSlabs with
  | some a =>
      rw [refill_of_free hfree, hflat.taken_eq] at hrun
      exact ⟨h, a, .cached (.inr ⟨hpart, hfree⟩), (Except.ok.inj hrun).symm⟩
  | none =>
      obtain ⟨htop, pgList, pages, rfl, _⟩ := refill_of_none hfree hrun
      have hbuilt : Supply h c (Slab.grown h (pow2 (h.caches c).order)
          (h.caches c).objPerSlab pgList pages) h.heapTop :=
        .built hpart hfree htop
      exact ⟨_, h.heapTop, hbuilt, hflat.taken_grown hpart _ _ _ _⟩

theorem Flat.handOut_cases (hflat : Flat h) {r : Option Uint}
    (hpart : h.head c .partialSlabs = some a)
    (hrun : handOut P h c = .ok (r, h')) :
    ∃ ret slab, getObj (h.slabs a) (h.caches c).size = (some ret, slab) ∧
      r = some ret ∧ h' = h.setSlab a slab := by
  rcases hget : getObj (h.slabs a) (h.caches c).size with ⟨_ | ret, slab⟩
  · have hmove : moveFull P (h.setSlab a slab) c = .error .nullSlab :=
      moveFull_of_none hpart (hflat.full c)
    rw [handOut_of_null hpart hget, hmove] at hrun
    cases hrun
  · rw [handOut_of_room hpart hget] at hrun
    cases hrun
    exact ⟨_, _, rfl, rfl, rfl⟩

/-- The object comes from the slab that has just been made the first. -/
theorem Flat.handOut_placed (hflat : Flat h) {n : Uint} {r : Option Uint}
    (hrun : handOut P ((Slab.placed h c a).setSlab a
      { h.slabs a with refNum := n }) c = .ok (r, h')) :
    ∃ ret slab, getObj { h.slabs a with refNum := n } (h.caches c).size =
        (some ret, slab) ∧
      r = some ret ∧ h' = (Slab.placed h c a).setSlab a slab := by
  have hhead : ((Slab.placed h c a).setSlab a
      { h.slabs a with refNum := n }).head c .partialSlabs = some a := by
    rw [Heap.setSlab_head, placed_head, if_neg (by simp), if_pos ⟨rfl, rfl⟩]
  obtain ⟨ret, slab, hget, rfl, rfl⟩ :=
    ((hflat.placed c a).setSlab a _).handOut_cases hhead hrun
  refine ⟨ret, slab, ?_, rfl, setSlab_setSlab _ _ _ _⟩
  rw [← (placed_kinds h c a).size c, ← hget, setSlab_slabs_self]
  rfl

/-- A call takes an object from the slab that the cache has, or from a new
one. -/
theorem Flat.alloc_cases (hflat : Flat h) {r : Option Uint}
    (hrun : initKmemCacheAlloc P h c = .ok (r, h')) :
    ∃ h₁ a n ret slab, Supply (counted h c) c h₁ a ∧
      getObj { h₁.slabs a with refNum := n } (h.caches c).size =
        (some ret, slab) ∧
      r = some ret ∧ h' = (Slab.placed h₁ c a).setSlab a slab := by
  have hcounted : Flat (counted h c) := hflat.setRefCnt _ _
  have hsize : ((counted h c).caches c).size = (h.caches c).size :=
    (setRefCnt_kinds _ _ _).size c
  cases hpart : h.head c .partialSlabs with
  | some a =>
      rw [initKmemCacheAlloc_of_some hpart] at hrun
      have hhead : (counted h c).head c .partialSlabs = some a := by
        rw [counted_head, hpart]
      obtain ⟨ret, slab, hget, rfl, rfl⟩ := hcounted.handOut_cases hhead hrun
      refine ⟨counted h c, a, ((counted h c).slabs a).refNum, ret, slab,
        .cached (.inl hhead), ?_, rfl, ?_⟩
      · rw [hsize] at hget
        exact hget
      · have hfree := (hcounted.one c).resolve_left
          (by rw [hhead]; exact Option.some_ne_none a)
        unfold Slab.placed
        rw [setHead_same hhead, setHead_same hfree]
  | none =>
      rw [initKmemCacheAlloc_of_none hpart] at hrun
      obtain ⟨h₂, hrefill, hout⟩ := bind_ok_iff.mp hrun
      obtain ⟨h₁, a, hsupply, rfl⟩ :=
        hcounted.refill (by rw [counted_head, hpart]) hrefill
      obtain ⟨ret, slab, hget, rfl, rfl⟩ :=
        (hsupply.flat hcounted).handOut_placed hout
      refine ⟨h₁, a, (h₁.slabs a).refNum + 1, ret, slab, hsupply, ?_, rfl, rfl⟩
      rw [← hsize, ← hsupply.kinds.size c, hget]

/-- With an empty cache the call builds the slab. -/
theorem Flat.alloc_built (hflat : Flat h) (hpart : h.head c .partialSlabs = none)
    (hfree : h.head c .freeSlabs = none) {r : Option Uint}
    (hrun : initKmemCacheAlloc P h c = .ok (r, h')) :
    ∃ h₁ pgList pages n ret slab,
      h₁ = Slab.grown (counted h c) (pow2 ((counted h c).caches c).order)
        ((counted h c).caches c).objPerSlab pgList pages ∧
      applySlab P (counted h c) (pow2 ((counted h c).caches c).order)
        ((counted h c).caches c).objPerSlab = .ok (h.heapTop, h₁) ∧
      getObj { h₁.slabs h.heapTop with refNum := n } (h₁.caches c).size =
        (some ret, slab) ∧
      h' = (Slab.placed h₁ c h.heapTop).setSlab h.heapTop slab := by
  have hcounted : Flat (counted h c) := hflat.setRefCnt _ _
  rw [← counted_head h c] at hpart hfree
  rw [initKmemCacheAlloc_of_none (by rw [← counted_head h c, hpart])] at hrun
  obtain ⟨h₂, hrefill, hout⟩ := bind_ok_iff.mp hrun
  obtain ⟨_, pgList, pages, rfl, happly⟩ := refill_of_none hfree hrefill
  rw [hcounted.taken_grown hpart] at hout
  obtain ⟨ret, slab, hget, _, rfl⟩ :=
    (hcounted.grown _ _ pgList pages).handOut_placed hout
  exact ⟨_, pgList, pages, _, ret, slab, rfl, happly, hget, rfl⟩

theorem Flat.afterAlloc (hflat : Flat h) {r : Option Uint}
    (hrun : initKmemCacheAlloc P h c = .ok (r, h')) :
    Flat h' ∧ SameKinds h h' := by
  obtain ⟨h₁, a, n, ret, slab, hsupply, _, _, rfl⟩ := hflat.alloc_cases hrun
  have hcounted : Flat (counted h c) := hflat.setRefCnt _ _
  exact ⟨((hsupply.flat hcounted).placed c a).setSlab a slab,
    ((setRefCnt_kinds h c _).trans hsupply.kinds).trans (placed_kinds h₁ c a)⟩

/-! ## `_free_obj_kmem_cache` -/

/-- `FreeObj` refuses the address on the slab of the cache. -/
def Misses (h : Heap σ) (objAddr : Uint) (c : ℕ) : Prop :=
  ∀ x, h.head c .partialSlabs = some x →
    freeObj objAddr (h.slabs x) (h.caches c).size = none

/-- The heap once `_free_obj_kmem_cache` has counted `ref_cnt` down. -/
def uncounted (h : Heap σ) (c : ℕ) : Heap σ :=
  h.setRefCnt c ((h.caches c).refCnt - 1)

/-- The heap when the slab `x` has become `slab` and is off `partial_slabs`. -/
def dropped (h : Heap σ) (c : ℕ) (x : Uint) (slab : SlabT) : Heap σ :=
  ((uncounted h c).setSlab x slab).setHead c .partialSlabs none

/-- `slab_end` in `_check_free_buddy`. -/
def slabEnd (slab : SlabT) : Uint :=
  slab.freeList + PGSIZE * slab.slabSize - sizeofSlab

/-- What becomes of a slab that is off `partial_slabs`. -/
inductive Release (P : PageOps σ) (h : Heap σ) (c : ℕ) (x : Uint) :
    Heap σ → Prop
  | lost : (h.slabs x).active ≠ 0 → Release P h c x h
  | kept : (h.slabs x).active = 0 → slabEnd (h.slabs x) < h.heapTop →
      Release P h c x (h.setHead c .freeSlabs (some x))
  | returned {pages : σ} :
      (h.slabs x).active = 0 → ¬ slabEnd (h.slabs x) < h.heapTop →
      P.freeBuddy h.pages (h.slabs x).pgList = .ok pages →
      Release P h c x { h with
        pages := unmapPages P pages
          (h.heapTop - PGSIZE * (h.slabs x).slabSize)
          (h.slabs x).slabSize.toInt.toNat
        heapTop := h.heapTop - PGSIZE * (h.slabs x).slabSize }

theorem Flat.findObj_eq (hflat : Flat h) {objAddr objSize : Uint}
    {list : SlabList} {p : SlabPtr} (hp : h.head c list = p) :
    findObj h objAddr objSize walkBound (h.head c list) =
      .ok (p.bind fun x => (freeObj objAddr (h.slabs x) objSize).map (x, ·)) := by
  rw [hp]
  change findObj h objAddr objSize (walkBound - 2 + 1 + 1) p = _
  cases p with
  | none => rfl
  | some x =>
      rw [Option.bind_some]
      unfold findObj
      cases hobj : freeObj objAddr (h.slabs x) objSize with
      | some slab => rfl
      | none =>
          dsimp only
          rw [hflat.links]
          rfl

theorem Flat.moveSlabOffPartial_eq (hflat : Flat h) (x : Uint) (c : ℕ) :
    moveSlabOffPartial h x c = h.setHead c .partialSlabs none := by
  unfold moveSlabOffPartial moveSlabOff
  rw [hflat.links]
  rfl

/-- With `full_slabs` empty, the object is looked for in the slab of the
cache. -/
theorem Flat.freeObjKmemCache_eq (hflat : Flat h) (objAddr : Uint) (c : ℕ) :
    freeObjKmemCache P h objAddr c =
      match (h.head c .partialSlabs).bind fun x =>
        (freeObj objAddr (h.slabs x) (h.caches c).size).map (x, ·) with
      | none => .ok (false, uncounted h c)
      | some (x, slab) =>
          if slab.active = 0 then
            (moveSlabToFree P (dropped h c x slab) x c).map (true, ·)
          else .ok (true, dropped h c x slab) := by
  have huncounted : Flat (uncounted h c) := hflat.setRefCnt _ _
  have hsize : ((uncounted h c).caches c).size = (h.caches c).size :=
    (setRefCnt_kinds _ _ _).size c
  unfold freeObjKmemCache
  change (findObj (uncounted h c) objAddr ((uncounted h c).caches c).size
    walkBound ((uncounted h c).head c .fullSlabs)).bind _ = _
  rw [huncounted.findObj_eq (huncounted.full c)]
  change (findObj (uncounted h c) objAddr ((uncounted h c).caches c).size
    walkBound ((uncounted h c).head c .partialSlabs)).bind _ = _
  rw [huncounted.findObj_eq (Heap.setRefCnt_head _ _ _ _ _), hsize]
  change (Except.ok ((h.head c .partialSlabs).bind (fun x =>
    (freeObj objAddr (h.slabs x) (h.caches c).size).map (x, ·)))).bind _ = _
  cases (h.head c .partialSlabs).bind fun x =>
      (freeObj objAddr (h.slabs x) (h.caches c).size).map (x, ·) with
  | none => rfl
  | some found =>
      rcases found with ⟨x, slab⟩
      change (if slab.active = 0 then
        (moveSlabToFree P (moveSlabOffPartial ((uncounted h c).setSlab x slab)
          x c) x c).map (true, ·)
        else .ok (true, moveSlabOffPartial ((uncounted h c).setSlab x slab)
          x c)) = _
      rw [(huncounted.setSlab x slab).moveSlabOffPartial_eq]
      rfl

theorem Flat.free_miss (hflat : Flat h) {objAddr : Uint}
    (hmiss : Misses h objAddr c) :
    freeObjKmemCache P h objAddr c = .ok (false, uncounted h c) := by
  rw [hflat.freeObjKmemCache_eq]
  cases hx : h.head c .partialSlabs with
  | none => rfl
  | some x =>
      rw [Option.bind_some, hmiss x hx]
      rfl

theorem moveSlabToFree_cases (hpart : h.head c .freeSlabs = none)
    (hempty : (h.slabs x).active = 0)
    (hrun : moveSlabToFree P h x c = .ok h') : Release P h c x h' := by
  obtain ⟨⟨freed, h₁⟩, hcheck, hrest⟩ := bind_ok_iff.mp hrun
  unfold checkFreeBuddy at hcheck
  dsimp only at hcheck
  split at hcheck
  · next hbelow =>
      cases hcheck
      change addSlab .freeSlabs h x c = .ok h' at hrest
      unfold addSlab at hrest
      rw [if_pos hpart] at hrest
      cases hrest
      exact .kept hempty hbelow
  · next hlast =>
      obtain ⟨pages, hfree, hret⟩ := bind_ok_iff.mp hcheck
      cases hret
      cases hrest
      exact .returned hempty hlast hfree

theorem dropped_head (h : Heap σ) (c : ℕ) (x : Uint) (slab : SlabT) (d : ℕ)
    (list : SlabList) :
    (dropped h c x slab).head d list =
      if d = c ∧ list = .partialSlabs then none else h.head d list := by
  unfold dropped
  rw [Heap.setHead_head, Heap.setSlab_head]
  unfold uncounted
  rw [Heap.setRefCnt_head]

theorem dropped_kinds (h : Heap σ) (c : ℕ) (x : Uint) (slab : SlabT) :
    SameKinds h (dropped h c x slab) :=
  (setRefCnt_kinds h c _).trans
    (setHead_kinds ((uncounted h c).setSlab x slab) c _ _)

theorem Flat.dropped (hflat : Flat h) (c : ℕ) (x : Uint) (slab : SlabT) :
    Flat (dropped h c x slab) := by
  constructor
  · exact hflat.links
  · intro d
    rw [dropped_head, if_neg (by simp)]
    exact hflat.full d
  · intro d
    by_cases hd : d = c
    · left
      rw [dropped_head, if_pos ⟨hd, rfl⟩]
    · rw [dropped_head, dropped_head, if_neg (fun hboth => hd hboth.1),
        if_neg (fun hboth => hd hboth.1)]
      exact hflat.one d

theorem Release.kinds (hrelease : Release P h c x h') : SameKinds h h' := by
  cases hrelease with
  | lost => exact .refl h
  | kept => exact setHead_kinds h c _ _
  | returned => exact .refl h

theorem Release.flat (hrelease : Release P h c x h') (hflat : Flat h)
    (hpart : h.head c .partialSlabs = none) : Flat h' := by
  cases hrelease with
  | lost => exact hflat
  | kept => exact hflat.setFree hpart _
  | returned => exact hflat.congr rfl (fun _ _ => rfl)

theorem Flat.free_hit (hflat : Flat h) {objAddr : Uint} {slab : SlabT}
    {found : Bool} (hx : h.head c .partialSlabs = some x)
    (hobj : freeObj objAddr (h.slabs x) (h.caches c).size = some slab)
    (hrun : freeObjKmemCache P h objAddr c = .ok (found, h')) :
    found = true ∧ Release P (Slab.dropped h c x slab) c x h' := by
  have hslab : (Slab.dropped h c x slab).slabs x = slab :=
    setSlab_slabs_self (uncounted h c) x slab
  rw [hflat.freeObjKmemCache_eq, hx, Option.bind_some, hobj] at hrun
  dsimp only [Option.map] at hrun
  split at hrun
  · next hempty =>
      obtain ⟨h₁, hmove, hret⟩ := map_ok_iff.mp hrun
      cases hret
      refine ⟨rfl, moveSlabToFree_cases ?_ (by rw [hslab, hempty]) hmove⟩
      rw [dropped_head, if_neg (by simp)]
      exact (hflat.one c).resolve_left
        (by rw [hx]; exact Option.some_ne_none x)
  · next hlive =>
      cases hrun
      exact ⟨rfl, .lost (by rw [hslab]; exact hlive)⟩

/-! ## `kfree` -/

/-- The heap after the caches `caches` have been searched in vain. -/
def searched (h : Heap σ) (caches : List ℕ) : Heap σ :=
  caches.foldl uncounted h

variable {caches : List ℕ} {objAddr : Uint}

/-- What a search in vain keeps. -/
structure SameSlabs (h h' : Heap σ) : Prop where
  slabs : h'.slabs = h.slabs
  links : h'.links = h.links
  heapTop : h'.heapTop = h.heapTop
  pages : h'.pages = h.pages
  head : ∀ c list, h'.head c list = h.head c list
  kinds : SameKinds h h'

theorem setRefCnt_same (h : Heap σ) (c : ℕ) (refCnt : Uint) :
    SameSlabs h (h.setRefCnt c refCnt) :=
  ⟨rfl, rfl, rfl, rfl, fun _ _ => Heap.setRefCnt_head _ _ _ _ _,
    setRefCnt_kinds h c refCnt⟩

theorem SameSlabs.trans {h₁ h₂ h₃ : Heap σ} (hfirst : SameSlabs h₁ h₂)
    (hsecond : SameSlabs h₂ h₃) : SameSlabs h₁ h₃ :=
  ⟨hsecond.slabs.trans hfirst.slabs, hsecond.links.trans hfirst.links,
    hsecond.heapTop.trans hfirst.heapTop, hsecond.pages.trans hfirst.pages,
    fun c list => (hsecond.head c list).trans (hfirst.head c list),
    hfirst.kinds.trans hsecond.kinds⟩

theorem searched_same (h : Heap σ) (caches : List ℕ) :
    SameSlabs h (searched h caches) := by
  induction caches generalizing h with
  | nil => exact ⟨rfl, rfl, rfl, rfl, fun _ _ => rfl, .refl h⟩
  | cons c caches ih => exact (setRefCnt_same h c _).trans (ih (uncounted h c))

theorem SameSlabs.flat (hsame : SameSlabs h h') (hflat : Flat h) : Flat h' :=
  hflat.congr hsame.links hsame.head

theorem SameSlabs.misses_iff (hsame : SameSlabs h h') :
    Misses h' objAddr c ↔ Misses h objAddr c := by
  unfold Misses
  rw [hsame.slabs, hsame.head, hsame.kinds.size]

theorem uncounted_same (h : Heap σ) (c : ℕ) : SameSlabs h (uncounted h c) :=
  setRefCnt_same h c _

/-- The search is in vain just when every slab refuses the address. -/
theorem Flat.kfreeFrom_miss (hflat : Flat h)
    (hmiss : ∀ c ∈ caches, Misses h objAddr c) :
    kfreeFrom P objAddr h caches = .ok (false, searched h caches) := by
  induction caches generalizing h with
  | nil => rfl
  | cons c caches ih =>
      have hsame := uncounted_same h c
      unfold kfreeFrom
      rw [hflat.free_miss (hmiss c (by simp))]
      refine ih (hsame.flat hflat) (fun d hd => ?_)
      exact hsame.misses_iff.mpr (hmiss d (by simp [hd]))

/-- Otherwise the first slab that takes the address is the one that loses an
object. -/
theorem Flat.kfreeFrom_cases (hflat : Flat h) {found : Bool}
    (hrun : kfreeFrom P objAddr h caches = .ok (found, h'))
    (hhit : ∃ c ∈ caches, ¬ Misses h objAddr c) :
    found = true ∧ ∃ first c rest x slab, caches = first ++ c :: rest ∧
      (∀ d ∈ first, Misses h objAddr d) ∧
      h.head c .partialSlabs = some x ∧
      freeObj objAddr (h.slabs x) (h.caches c).size = some slab ∧
      Release P (Slab.dropped (searched h first) c x slab) c x h' := by
  induction caches generalizing h with
  | nil =>
      obtain ⟨c, hc, _⟩ := hhit
      cases hc
  | cons c caches ih =>
      obtain ⟨⟨found₁, h₁⟩, hfree, hrest⟩ := bind_ok_iff.mp hrun
      by_cases hmiss : Misses h objAddr c
      · rw [hflat.free_miss hmiss] at hfree
        cases hfree
        have hsame := uncounted_same h c
        obtain ⟨rfl, first, d, rest, x, slab, rfl, hfirst, hx, hobj, hrelease⟩ :=
          ih (hsame.flat hflat) hrest (by
            obtain ⟨d, hd, hhit⟩ := hhit
            rcases List.mem_cons.mp hd with rfl | hd
            · exact absurd hmiss hhit
            · exact ⟨d, hd, mt hsame.misses_iff.mp hhit⟩)
        rw [hsame.head] at hx
        rw [hsame.slabs, hsame.kinds.size] at hobj
        refine ⟨rfl, c :: first, d, rest, x, slab, rfl, ?_, hx, hobj, hrelease⟩
        intro e he
        rcases List.mem_cons.mp he with rfl | he
        · exact hmiss
        · exact hsame.misses_iff.mp (hfirst e he)
      · unfold Misses at hmiss
        push Not at hmiss
        obtain ⟨x, hx, hobj⟩ := hmiss
        obtain ⟨slab, hobj⟩ := Option.ne_none_iff_exists'.mp hobj
        obtain ⟨rfl, hrelease⟩ := hflat.free_hit hx hobj hfree
        cases hrest
        exact ⟨rfl, [], c, caches, x, slab, rfl, by simp, hx, hobj, hrelease⟩

/-! ## `init_slab` -/

/-- The caches that `init_slab` makes. -/
def bootCache : ℕ → KmemCache
  | 0 => createBootCache "kmem_cache" sizeofKmemCache 1
  | 1 => createBootCache "cache_cache" sizeofKmemCache 1
  | i + 2 =>
      let info := kmemCacheInfo.getD i ""
      createBootCache info (BitVec.ofNat 32 (calculateBytes info))
        (calculatePages info)

theorem size_of_kind {cache : KmemCache}
    (hkind : cache.kind = (bootCache c).kind) :
    cache.size = (bootCache c).size ∧
      cache.objPerSlab = (bootCache c).objPerSlab ∧
      cache.order = (bootCache c).order :=
  ⟨congrArg Prod.fst hkind, congrArg (fun kind => kind.2.1) hkind,
    congrArg (fun kind => kind.2.2.2) hkind⟩

/-- An object has a size, a slab has objects, and their ids have 16 bits. -/
theorem bootCache_bounds : ∀ c < 16, 0 < (bootCache c).size.toNat ∧
    1 ≤ (bootCache c).objPerSlab.toNat ∧
    (bootCache c).objPerSlab.toNat ≤ 65536 ∧ (bootCache c).order ≤ 16 := by
  decide +kernel

/-- All caches have been made. -/
structure Booted (h : Heap σ) : Prop where
  cacheNum : h.cacheNum = 15
  kind : ∀ c < 16, (h.caches c).kind = (bootCache c).kind

theorem SameKinds.booted (hkinds : SameKinds h h') (hbooted : Booted h) :
    Booted h' :=
  ⟨hkinds.1.trans hbooted.cacheNum,
    fun c hc => (hkinds.2 c).trans (hbooted.kind c hc)⟩

theorem Flat.boot (pages : σ) : Flat (bootHeap pages) :=
  ⟨rfl, fun _ => rfl, fun _ => .inl rfl⟩

theorem setCache_head (h : Heap σ) (c : ℕ) (cache : KmemCache) (d : ℕ)
    (list : SlabList) :
    (h.setCache c cache).head d list =
      if d = c then cache.node list else h.head d list := by
  unfold Heap.head Heap.setCache
  dsimp only
  by_cases hd : d = c
  · subst hd
    rw [Function.update_self, if_pos rfl]
  · rw [Function.update_of_ne hd, if_neg hd]

/-- A new cache has no slabs. -/
theorem Flat.newCache (hflat : Flat h) (c : ℕ) (name : String) (size : Uint)
    (pgNum : ℕ) : Flat (h.setCache c (createBootCache name size pgNum)) := by
  constructor
  · exact hflat.links
  · intro d
    rw [setCache_head]
    split
    · rfl
    · exact hflat.full d
  · intro d
    rw [setCache_head, setCache_head]
    by_cases hd : d = c
    · rw [if_pos hd]
      exact .inl rfl
    · rw [if_neg hd, if_neg hd]
      exact hflat.one d

/-- The heap with one more cache in `kmem_caches`. -/
def withCache (h : Heap σ) (cache : KmemCache) : Heap σ :=
  { h.setCache (h.cacheNum + 1) cache with cacheNum := h.cacheNum + 1 }

theorem Flat.withCache (hflat : Flat h) (name : String) (size : Uint)
    (pgNum : ℕ) : Flat (withCache h (createBootCache name size pgNum)) :=
  (hflat.newCache (h.cacheNum + 1) name size pgNum).congr rfl (fun _ _ => rfl)

theorem setCache_kind_self (h : Heap σ) (c : ℕ) (cache : KmemCache) :
    ((h.setCache c cache).caches c).kind = cache.kind := by
  unfold Heap.setCache
  dsimp only
  rw [Function.update_self]

theorem setCache_kind_of_ne (h : Heap σ) {c d : ℕ} (cache : KmemCache)
    (hd : d ≠ c) :
    ((h.setCache c cache).caches d).kind = (h.caches d).kind := by
  unfold Heap.setCache
  dsimp only
  rw [Function.update_of_ne hd]

theorem withCache_kind {n : ℕ} (hn : h.cacheNum + 1 = n) (cache : KmemCache) :
    ((withCache h cache).caches n).kind = cache.kind := by
  subst hn
  exact setCache_kind_self h _ cache

theorem withCache_kind_of_ne {n d : ℕ} (hn : h.cacheNum + 1 = n)
    (cache : KmemCache) (hd : d ≠ n) :
    ((withCache h cache).caches d).kind = (h.caches d).kind := by
  subst hn
  exact setCache_kind_of_ne h cache hd

theorem Flat.createKmallocCaches (hflat : Flat h) {infos : List String}
    (hrun : createKmallocCaches P h infos = .ok h') :
    Flat h' ∧ h'.cacheNum = h.cacheNum + infos.length ∧
      (∀ c ≤ h.cacheNum, (h'.caches c).kind = (h.caches c).kind) ∧
      ∀ i (hi : i < infos.length), (h'.caches (h.cacheNum + 1 + i)).kind =
        (createBootCache infos[i] (BitVec.ofNat 32 (calculateBytes infos[i]))
          (calculatePages infos[i])).kind := by
  induction infos generalizing h with
  | nil =>
      cases hrun
      exact ⟨hflat, rfl, fun _ _ => rfl, fun i hi => absurd hi (by simp)⟩
  | cons info infos ih =>
      obtain ⟨⟨r, h₁⟩, halloc, hrest⟩ := bind_ok_iff.mp hrun
      obtain ⟨hflat₁, hnum, hkind⟩ := hflat.afterAlloc halloc
      obtain ⟨hflat', hnum', hold, hmade⟩ := ih (hflat₁.withCache _ _ _) hrest
      change h'.cacheNum = h₁.cacheNum + 1 + _ at hnum'
      change ∀ c ≤ h₁.cacheNum + 1, _ at hold
      change ∀ i hi, (h'.caches (h₁.cacheNum + 1 + 1 + i)).kind = _ at hmade
      rw [hnum] at hnum' hold hmade
      refine ⟨hflat', ?_, ?_, ?_⟩
      · rw [hnum', List.length_cons]
        omega
      · intro c hc
        rw [hold c (by omega)]
        exact (withCache_kind_of_ne rfl _ (by omega)).trans (hkind c)
      · intro i hi
        cases i with
        | zero =>
            rw [Nat.add_zero, hold _ (by omega)]
            exact withCache_kind (by rw [hnum]) _
        | succ i =>
            have hindex : h.cacheNum + 1 + (i + 1) = h.cacheNum + 1 + 1 + i := by
              omega
            rw [hindex]
            exact hmade i (by simpa using hi)

/-- What every turn of the loop keeps holds at its end. -/
theorem createKmallocCaches_invariant (Inv : Heap σ → Prop)
    (hstep : ∀ h r h' info, Inv h →
      initKmemCacheAlloc P h cacheCache = .ok (r, h') →
      Inv (withCache h' (createBootCache info
        (BitVec.ofNat 32 (calculateBytes info)) (calculatePages info))))
    {infos : List String} (hrun : createKmallocCaches P h infos = .ok h')
    (hinv : Inv h) : Inv h' := by
  induction infos generalizing h with
  | nil =>
      cases hrun
      exact hinv
  | cons info infos ih =>
      obtain ⟨⟨r, h₁⟩, halloc, hrest⟩ := bind_ok_iff.mp hrun
      exact ih hrest (hstep _ _ _ info hinv halloc)

/-- The heap in which `init_slab` allocates first. -/
def bootHeapCache (pages : σ) : Heap σ :=
  (bootHeap pages).setCache kmemCacheBoot
    (createBootCache "kmem_cache" sizeofKmemCache 1)

theorem initSlab_steps {pages : σ} (hrun : initSlab P pages = .ok h) :
    ∃ r h₁, initKmemCacheAlloc P (bootHeapCache pages) kmemCacheBoot =
        .ok (r, h₁) ∧
      Flat h₁ ∧ SameKinds (bootHeapCache pages) h₁ ∧
      createKmallocCaches P (withCache h₁ (createBootCache "cache_cache"
        sizeofKmemCache 1)) kmemCacheInfo = .ok h := by
  obtain ⟨⟨r, h₁⟩, halloc, hrest⟩ := bind_ok_iff.mp hrun
  have hboot := (Flat.boot pages).newCache kmemCacheBoot "kmem_cache"
    sizeofKmemCache 1
  obtain ⟨hflat₁, hkinds⟩ := hboot.afterAlloc halloc
  refine ⟨r, h₁, halloc, hflat₁, hkinds, ?_⟩
  have hnum : h₁.cacheNum = 0 := hkinds.1
  unfold withCache
  rw [hnum]
  exact hrest

theorem initSlab_cases {pages : σ} (hrun : initSlab P pages = .ok h) :
    Flat h ∧ Booted h := by
  obtain ⟨r, h₁, _, hflat₁, ⟨hnum, hkind⟩, hrest⟩ := initSlab_steps hrun
  change h₁.cacheNum = 0 at hnum
  obtain ⟨hflat, hnum', hold, hmade⟩ :=
    (hflat₁.withCache _ _ _).createKmallocCaches hrest
  change h.cacheNum = h₁.cacheNum + 1 + 14 at hnum'
  change ∀ c ≤ h₁.cacheNum + 1, _ at hold
  change ∀ i hi, (h.caches (h₁.cacheNum + 1 + 1 + i)).kind = _ at hmade
  rw [hnum] at hnum' hold hmade
  refine ⟨hflat, hnum', ?_⟩
  intro c hc
  match c with
  | 0 =>
      rw [hold 0 (Nat.zero_le _)]
      exact (withCache_kind_of_ne (by omega) _ zero_ne_one).trans
        ((hkind 0).trans (setCache_kind_self _ _ _))
  | 1 =>
      rw [hold 1 le_rfl]
      exact withCache_kind (by omega) _
  | i + 2 =>
      have hi : i < kmemCacheInfo.length := by
        change i < 14
        omega
      have hget : kmemCacheInfo.getD i "" = kmemCacheInfo[i] :=
        (List.getElem_eq_getD _).symm
      have hkind' := hmade i hi
      rw [← hget, show 0 + 1 + 1 + i = i + 2 by omega] at hkind'
      exact hkind'

/-! ## Runs -/

inductive Call where
  | kmalloc (size : Uint)
  | kfree (objAddr : Uint)

def call (P : PageOps σ) (h : Heap σ) : Call → Except Fault (Option Uint × Heap σ)
  | .kmalloc size => kmalloc P h size
  | .kfree objAddr => (kfree P h objAddr).map fun h => (none, h)

/-- A call that returns. -/
def Step (P : PageOps σ) (h : Heap σ) (i : Call) (h' : Heap σ) : Prop :=
  ∃ r, call P h i = .ok (r, h')

theorem kmalloc_cases {size : Uint} {r : Option Uint}
    (hrun : kmalloc P h size = .ok (r, h')) :
    ∃ c ∈ h.kmemCaches.tail, sizeClass h size = some c ∧
      initKmemCacheAlloc P h c = .ok (r, h') := by
  unfold kmalloc at hrun
  split at hrun
  · cases hrun
  · next c hclass =>
      exact ⟨c, List.mem_of_find?_eq_some hclass, hclass, hrun⟩

theorem Flat.kfree_cases (hflat : Flat h) (hrun : kfree P h objAddr = .ok h') :
    ∃ first c rest x slab, h.kmemCaches = first ++ c :: rest ∧
      (∀ d ∈ first, Misses h objAddr d) ∧
      h.head c .partialSlabs = some x ∧
      freeObj objAddr (h.slabs x) (h.caches c).size = some slab ∧
      Release P (Slab.dropped (searched h first) c x slab) c x h' := by
  obtain ⟨⟨found, h₁⟩, hsearch, hret⟩ := bind_ok_iff.mp hrun
  by_cases hmiss : ∀ c ∈ h.kmemCaches, Misses h objAddr c
  · rw [hflat.kfreeFrom_miss hmiss] at hsearch
    cases hsearch
    cases hret
  · push Not at hmiss
    obtain ⟨rfl, hfound⟩ := hflat.kfreeFrom_cases hsearch hmiss
    cases hret
    exact hfound

theorem Flat.afterStep (hflat : Flat h) {i : Call} (hstep : Step P h i h') :
    Flat h' ∧ SameKinds h h' := by
  obtain ⟨r, hcall⟩ := hstep
  cases i with
  | kmalloc size =>
      obtain ⟨c, _, _, halloc⟩ := kmalloc_cases hcall
      exact hflat.afterAlloc halloc
  | kfree objAddr =>
      obtain ⟨h₁, hfree, hret⟩ := map_ok_iff.mp hcall
      cases hret
      obtain ⟨first, c, rest, x, slab, _, _, _, _, hrelease⟩ :=
        hflat.kfree_cases hfree
      have hsame := searched_same h first
      refine ⟨hrelease.flat ((hsame.flat hflat).dropped c x slab) ?_,
        (hsame.kinds.trans (dropped_kinds _ c x slab)).trans hrelease.kinds⟩
      rw [dropped_head, if_pos ⟨rfl, rfl⟩]

/-- The heap is met in a run that starts with `init_slab`. -/
def Reachable (P : PageOps σ) (h : Heap σ) : Prop :=
  ∃ pages h₀ calls, initSlab P pages = .ok h₀ ∧ Run (Step P) h₀ calls h

/-- A heap with the objects that are live, each with its cache. -/
structure Session (σ : Type) where
  heap : Heap σ
  live : Finset (ℕ × Uint)

/-- A call of `kmalloc`, or of `kfree` with a pointer that `kmalloc` has
returned and that has not been freed since. -/
inductive SessionStep (P : PageOps σ) : Session σ → Call → Session σ → Prop
  | kmalloc {s : Session σ} {h' : Heap σ} {size a : Uint} {c : ℕ} :
      sizeClass s.heap size = some c →
      kmalloc P s.heap size = .ok (some a, h') →
      SessionStep P s (.kmalloc size) ⟨h', insert (c, a) s.live⟩
  | null {s : Session σ} {h' : Heap σ} {size : Uint} :
      kmalloc P s.heap size = .ok (none, h') →
      SessionStep P s (.kmalloc size) ⟨h', s.live⟩
  | kfree {s : Session σ} {h' : Heap σ} {a : Uint} {c : ℕ} :
      (c, a) ∈ s.live → kfree P s.heap a = .ok h' →
      SessionStep P s (.kfree a) ⟨h', s.live.erase (c, a)⟩

end Slab
end OS32
