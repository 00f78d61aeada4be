import OS32.SlabStock
import OS32.SlabRefusal

/-!
# `kmalloc` and `kfree` on live objects

A slab that loses an object and still has others is taken off `partial_slabs`
and put on no list, so its other objects cannot be freed any more.  The first
slab without objects left is put behind the last one of an empty `full_slabs`:
the call goes on through a null pointer.
-/

namespace OS32

open NullList NullList.Links Transition RegionStack

namespace Slab

variable {σ : Type} {P : PageOps σ} {h h' : Heap σ} {c d id : ℕ} {a x : Uint}
  {held : ℕ → Finset ℕ}

/-! ## Where an object is found -/

theorem inObjects_iff {slab : SlabT} {objSize : Uint}
    (hroom : slab.obj.toNat + objSize.toNat * slab.objNum.toNat ≤ 2 ^ 32) :
    InObjects slab objSize a ↔ slab.obj.toNat ≤ a.toNat ∧
      a.toNat < slab.obj.toNat + objSize.toNat * slab.objNum.toNat := by
  have ha := a.isLt
  have hobj := slab.obj.isLt
  unfold InObjects
  rw [BitVec.toNat_sub, Nat.mul_comm slab.objNum.toNat]
  omega

theorem Stock.addrOf_eq (hx : slabOf h c = some x) (id : ℕ) :
    addrOf h c id = objAddr (h.slabs x) (h.caches c).size id := by
  unfold addrOf
  rw [hx]
  rfl

theorem Stock.id_lt (hstock : Stock h held) (hx : slabOf h c = some x)
    (hid : id ∈ held c) : id < (h.slabs x).objNum.toNat :=
  Finset.mem_range.mp ((hstock.stocked c x hx).holds.subset hid)

theorem Stock.inObjects (hstock : Stock h held) (hx : slabOf h c = some x)
    (hid : id ∈ held c) :
    InObjects (h.slabs x) (h.caches c).size (addrOf h c id) := by
  have hfits := hstock.fits hx
  have hlt := hstock.id_lt hx hid
  have hpos := hfits.size_pos
  have hmul : (h.caches c).size.toNat * (id + 1) ≤
      (h.caches c).size.toNat * (h.slabs x).objNum.toNat :=
    Nat.mul_le_mul_left _ hlt
  rw [Nat.mul_succ] at hmul
  rw [inObjects_iff hfits.room, Stock.addrOf_eq hx, hfits.toNat_objAddr hlt]
  omega

/-- No object lies in the slabs of two caches. -/
theorem Stock.inObjects_unique (hstock : Stock h held)
    (hx : slabOf h c = some x) {y : Uint} (hy : slabOf h d = some y)
    (hin : InObjects (h.slabs x) (h.caches c).size a)
    (hin' : InObjects (h.slabs y) (h.caches d).size a) : c = d := by
  by_contra hne
  have hapart := hstock.apart hx hy hne
  rw [inObjects_iff (hstock.fits hx).room] at hin
  rw [inObjects_iff (hstock.fits hy).room] at hin'
  have hc := (hstock.stocked c x hx).adjoining
  have hd := (hstock.stocked d y hy).adjoining
  have hlist := hc.freeList
  have hobj := hc.obj
  have hfence := hc.fence
  have hlist' := hd.freeList
  have hobj' := hd.obj
  have hfence' := hd.fence
  omega

theorem Stock.addrOf_inj (hstock : Stock h held) {id' : ℕ} (hid : id ∈ held c)
    (hid' : id' ∈ held c) (heq : addrOf h c id = addrOf h c id') : id = id' := by
  obtain ⟨x, hx⟩ := hstock.partial_of_mem hid
  have hslab := slabOf_of_partlyFull hx
  rw [Stock.addrOf_eq hslab, Stock.addrOf_eq hslab] at heq
  exact (hstock.fits hslab).objAddr_inj (hstock.id_lt hslab hid)
    (hstock.id_lt hslab hid') heq

/-- `kfree` finds a live object in the slab of its cache. -/
theorem Stock.kfree_cases (hstock : Stock h held) (hid : id ∈ held c)
    (hrun : kfree P h (addrOf h c id) = .ok h') :
    ∃ first x slab, h.head c .partialSlabs = some x ∧
      SameBlock (h.slabs x) slab ∧ Holds slab ((held c).erase id) ∧
      Release P (dropped (searched h first) c x slab) c x h' := by
  obtain ⟨x, hx⟩ := hstock.partial_of_mem hid
  have hslab := slabOf_of_partlyFull hx
  obtain ⟨first, d, rest, y, slab, _, _, hy, hobj, hrelease⟩ :=
    hstock.flat.kfree_cases hrun
  have hslab' := slabOf_of_partlyFull hy
  have hfits' := hstock.fits hslab'
  have hin : InObjects (h.slabs y) (h.caches d).size (addrOf h c id) := by
    by_contra hout
    rw [(freeObj_none_iff hfits'.ids hfits'.size_pos).mpr hout] at hobj
    cases hobj
  obtain rfl := hstock.inObjects_unique hslab hslab'
    (hstock.inObjects hslab hid) hin
  obtain rfl := Option.some.inj (hx.symm.trans hy)
  have hfits := hstock.fits hslab
  obtain ⟨slab', hobj', _, _, _, hholds⟩ :=
    (hstock.stocked c x hslab).holds.afterFree hfits hid
  rw [Stock.addrOf_eq hslab] at hobj
  obtain rfl := Option.some.inj (hobj'.symm.trans hobj)
  exact ⟨first, x, slab', hx, freeObj_block hobj, hholds, hrelease⟩

/-! ## The last object of a slab -/

/-- A slab without live objects comes to `free_slabs`. -/
theorem Stock.moved (hstock : Stock h held) (hx : h.head c .partialSlabs = some x)
    (hempty : held c = ∅) :
    Stock ((h.setHead c .partialSlabs none).setHead c .freeSlabs (some x))
      held := by
  have hslab : ∀ d, slabOf ((h.setHead c .partialSlabs none).setHead c .freeSlabs
      (some x)) d = slabOf h d := by
    intro d
    unfold slabOf
    rw [Heap.setHead_head, Heap.setHead_head, Heap.setHead_head,
      Heap.setHead_head]
    by_cases hd : d = c
    · subst hd
      simp [hx]
    · simp [hd]
  have hkinds := (setHead_kinds h c .partialSlabs none).trans
    (setHead_kinds _ c .freeSlabs (some x))
  have hflat : Flat (h.setHead c .partialSlabs none) := by
    have hdropped := (hstock.flat.dropped c x (h.slabs x))
    refine hdropped.congr rfl (fun d list => ?_)
    rw [dropped_head, Heap.setHead_head]
  refine ⟨hflat.setFree (Heap.setHead_head_self _ _ _ _) _, ?_, ?_, ?_⟩
  · simp only [hslab]
    exact hstock.tiled
  · intro d y hy
    rw [hslab] at hy
    exact (hstock.stocked d y hy).congr (hkinds.2 d) rfl
  · intro d hd
    rw [Heap.setHead_head, if_neg (by simp), Heap.setHead_head] at hd
    by_cases hdc : d = c
    · rw [hdc, hempty]
    · rw [if_neg (fun hboth => hdc hboth.1)] at hd
      exact hstock.idle d hd

/-- The heap without the slab of the cache `c` at its end. -/
def popped (h : Heap σ) (c : ℕ) (x : Uint) (pages : σ) : Heap σ :=
  { h.setHead c .partialSlabs none with heapTop := x, pages := pages }

/-- A slab without live objects at the end of the heap is given back. -/
theorem Stock.popped (hstock : Stock h held)
    (hx : h.head c .partialSlabs = some x) (hempty : held c = ∅)
    (hend : h.heapTop.toNat ≤ x.toNat + slabBytes c) (pages : σ) :
    Stock (popped h c x pages) held := by
  have hxslab := slabOf_of_partlyFull hx
  have hfree : h.head c .freeSlabs = none :=
    (hstock.flat.one c).resolve_left (by rw [hx]; exact Option.some_ne_none x)
  have hhead : ∀ d list, (Slab.popped h c x pages).head d list =
      if d = c ∧ list = .partialSlabs then none else h.head d list :=
    fun d list => Heap.setHead_head h c d .partialSlabs list none
  have hslab : ∀ d, slabOf (Slab.popped h c x pages) d =
      if d = c then none else slabOf h d := by
    intro d
    unfold slabOf
    rw [hhead, hhead]
    by_cases hd : d = c
    · subst hd
      simp [hfree]
    · simp [hd]
  have hkinds : SameKinds h (Slab.popped h c x pages) :=
    setHead_kinds h c .partialSlabs none
  have hflat : Flat (Slab.popped h c x pages) := by
    have hdropped := (hstock.flat.dropped c x (h.slabs x))
    refine hdropped.congr rfl (fun d list => ?_)
    rw [dropped_head, hhead]
  refine ⟨hflat, ?_, ?_, ?_⟩
  · obtain ⟨stack, hfills, hnodup, hkeys, hmem⟩ := hstock.tiled
    obtain ⟨rest, rfl, hfills'⟩ := hfills.eq_cons
      ((hmem c x.toNat).mpr ⟨x, hxslab, rfl⟩) hend
      (fun p _ => slabBytes_pos p.1)
    rw [List.map_cons, List.nodup_cons] at hnodup
    refine ⟨rest, hfills', hnodup.2,
      fun p hp => hkeys p (List.mem_cons_of_mem _ hp), ?_⟩
    intro d n
    rw [hslab]
    by_cases hd : d = c
    · subst hd
      rw [if_pos rfl]
      constructor
      · intro hin
        exact absurd (List.mem_map_of_mem hin) hnodup.1
      · rintro ⟨y, hy, _⟩
        cases hy
    · rw [if_neg hd, ← hmem, List.mem_cons]
      exact (or_iff_right (fun hsame => hd (congrArg Prod.fst hsame))).symm
  · intro d y hy
    rw [hslab] at hy
    by_cases hd : d = c
    · rw [if_pos hd] at hy
      cases hy
    · rw [if_neg hd] at hy
      exact (hstock.stocked d y hy).congr (hkinds.2 d) rfl
  · intro d hd
    rw [hhead] at hd
    by_cases hdc : d = c
    · rw [hdc, hempty]
    · rw [if_neg (fun hboth => hdc hboth.1)] at hd
      exact hstock.idle d hd

/-- What becomes of a slab that has lost its last object. -/
theorem Stock.release (hstock : Stock h held) {slab : SlabT}
    (hx : h.head c .partialSlabs = some x) (hblock : SameBlock (h.slabs x) slab)
    (hholds : Holds slab ∅) (hrelease : Release P (dropped h c x slab) c x h') :
    Stock h' (Function.update held c ∅) := by
  have hslab := slabOf_of_partlyFull hx
  have hslabs : (dropped h c x slab).slabs x = slab :=
    setSlab_slabs_self (uncounted h c) x slab
  have hactive : slab.active = 0 := by
    rw [← BitVec.toNat_inj, hholds.active]
    rfl
  have huncounted := hstock.congr (uncounted_same h c)
  have hhead : (uncounted h c).head c .partialSlabs = some x := by
    rw [(uncounted_same h c).head, hx]
  have hstock' := huncounted.setSlab hhead hblock hholds
  cases hrelease with
  | lost hlive =>
      rw [hslabs] at hlive
      exact absurd hactive hlive
  | kept => exact hstock'.moved hhead (Function.update_self _ _ _)
  | returned _ hend =>
      rw [hslabs] at hend ⊢
      have hinside := hstock.inside hslab
      have htop := h.heapTop.isLt
      obtain ⟨hlist, _, _⟩ := (hstock.stocked c x hslab).adjoining
      have hsize := (hstock.stocked c x hslab).slabSize
      have hpages : slabBytes c = 4096 * pow2 (bootCache c).order := rfl
      have hspan : (PGSIZE * slab.slabSize).toNat = slabBytes c := by
        rw [hblock.slabSize, hsize, BitVec.toNat_mul, BitVec.toNat_ofNat]
        change 4096 * (_ % 4294967296) % 4294967296 = _
        omega
      have hslabEnd : (slabEnd slab).toNat = x.toNat + slabBytes c := by
        unfold slabEnd
        rw [hblock.freeList, BitVec.toNat_sub, BitVec.toNat_add, hspan, hlist]
        change (4294967296 - 40 + _ % 4294967296) % 4294967296 = _
        omega
      have htopEnd : h.heapTop.toNat = x.toNat + slabBytes c := by
        have hle : (dropped h c x slab).heapTop ≤ slabEnd slab :=
          BitVec.not_lt.mp hend
        rw [BitVec.le_def, hslabEnd] at hle
        change h.heapTop.toNat ≤ _ at hle
        omega
      have hback : (dropped h c x slab).heapTop - PGSIZE * slab.slabSize = x := by
        rw [← BitVec.toNat_inj, BitVec.toNat_sub, hspan]
        change (4294967296 - _ + h.heapTop.toNat) % 4294967296 = _
        omega
      rw [hback]
      exact hstock'.popped hhead (Function.update_self _ _ _) htopEnd.le _

theorem Release.head_of_ne (hrelease : Release P h c x h') (hd : d ≠ c)
    (list : SlabList) : h'.head d list = h.head d list := by
  cases hrelease with
  | lost => rfl
  | kept => rw [Heap.setHead_head, if_neg (fun hboth => hd hboth.1)]
  | returned => rfl

/-- The objects of the other caches stay where they are. -/
theorem Release.addrOf_of_ne {slab : SlabT}
    (hrelease : Release P (dropped h c x slab) c x h')
    (hblock : SameBlock (h.slabs x) slab) (hd : d ≠ c) (id : ℕ) :
    addrOf h' d id = addrOf h d id := by
  have hhead : ∀ list, h'.head d list = h.head d list := by
    intro list
    rw [hrelease.head_of_ne hd, dropped_head, if_neg (fun hboth => hd hboth.1)]
  refine addrOf_congr ?_ ?_ ?_ id
  · unfold slabOf
    rw [hhead, hhead]
  · intro y _
    rw [hrelease.slabs]
    change (Function.update h.slabs x slab y).obj = _
    by_cases hy : y = x
    · rw [hy, Function.update_self, hblock.obj]
    · rw [Function.update_of_ne hy]
  · exact ((dropped_kinds h c x slab).trans hrelease.kinds).size d

/-! ## Sessions -/

/-- What holds between calls while no slab gets lost. -/
structure Session.Inv (s : Session σ) (held : ℕ → Finset ℕ) : Prop where
  stock : Stock s.heap held
  booted : Booted s.heap
  live : ∀ c a, (c, a) ∈ s.live ↔
    2 ≤ c ∧ ∃ id ∈ held c, a = addrOf s.heap c id

theorem Booted.bounds_of_mem_tail (hbooted : Booted h)
    (hc : c ∈ h.kmemCaches.tail) : 2 ≤ c ∧ c < 16 := by
  unfold Heap.kmemCaches at hc
  rw [hbooted.cacheNum] at hc
  change c ∈ List.range' 2 14 at hc
  rw [List.mem_range'_1] at hc
  omega

variable {s t : Session σ}

theorem Session.Inv.afterKmalloc (hs : s.Inv held) {size : Uint} {r : Option Uint}
    (hclass : sizeClass s.heap size = some c)
    (hrun : kmalloc P s.heap size = .ok (r, h')) :
    ∃ id, id ∉ held c ∧ r = some (addrOf h' c id) ∧
      Session.Inv ⟨h', insert (c, addrOf h' c id) s.live⟩
        (Function.update held c (insert id (held c))) := by
  obtain ⟨c', hc', hclass', halloc⟩ := kmalloc_cases hrun
  obtain rfl := Option.some.inj (hclass.symm.trans hclass')
  obtain ⟨hlow, hhigh⟩ := hs.booted.bounds_of_mem_tail hc'
  obtain ⟨id, hfresh, rfl, hstock', haddr⟩ :=
    hs.stock.afterAlloc hhigh (hs.booted.kind c hhigh) halloc
  have hkinds := (hs.stock.flat.afterAlloc halloc).2
  refine ⟨id, hfresh, rfl, hstock', hkinds.booted hs.booted, ?_⟩
  intro d b
  rw [Finset.mem_insert, hs.live]
  constructor
  · rintro (hsame | ⟨hd, i, hi, rfl⟩)
    · obtain ⟨rfl, rfl⟩ := Prod.mk.inj hsame
      exact ⟨hlow, id, by rw [Function.update_self]; exact Finset.mem_insert_self _ _,
        rfl⟩
    · refine ⟨hd, i, ?_, (haddr d i hi).symm⟩
      by_cases hdc : d = c
      · subst hdc
        rw [Function.update_self]
        exact Finset.mem_insert_of_mem hi
      · rwa [Function.update_of_ne hdc]
  · rintro ⟨hd, i, hi, rfl⟩
    by_cases hdc : d = c
    · subst hdc
      rw [Function.update_self, Finset.mem_insert] at hi
      rcases hi with rfl | hi
      · exact .inl rfl
      · exact .inr ⟨hd, i, hi, haddr d i hi⟩
    · rw [Function.update_of_ne hdc] at hi
      exact .inr ⟨hd, i, hi, haddr d i hi⟩

/-- The last live object of a slab is freed. -/
theorem Session.Inv.afterLast (hs : s.Inv held) (hid : id ∈ held c)
    (hlast : (held c).erase id = ∅)
    (hrun : kfree P s.heap (addrOf s.heap c id) = .ok h') :
    Session.Inv ⟨h', s.live.erase (c, addrOf s.heap c id)⟩
      (Function.update held c ∅) := by
  obtain ⟨first, x, slab, hx, hblock, hholds, hrelease⟩ :=
    hs.stock.kfree_cases hid hrun
  have hsame := searched_same s.heap first
  have hstock := hs.stock.congr hsame
  rw [← hsame.head] at hx
  rw [← hsame.slabs] at hblock
  rw [hlast] at hholds
  have haddr : ∀ d, d ≠ c → ∀ i, addrOf h' d i = addrOf s.heap d i := by
    intro d hd i
    rw [hrelease.addrOf_of_ne hblock hd]
    refine addrOf_congr ?_ ?_ ?_ i
    · unfold slabOf
      rw [hsame.head, hsame.head]
    · intro y _
      rw [hsame.slabs]
    · exact hsame.kinds.size d
  have hkinds := (hsame.kinds.trans (dropped_kinds _ c x slab)).trans
    hrelease.kinds
  refine ⟨hstock.release hx hblock hholds hrelease, hkinds.booted hs.booted, ?_⟩
  intro d b
  rw [Finset.mem_erase, hs.live]
  constructor
  · rintro ⟨hne, hd, i, hi, rfl⟩
    by_cases hdc : d = c
    · subst hdc
      have hsingle : i = id := by
        by_contra hother
        have hmem := Finset.mem_erase.mpr ⟨hother, hi⟩
        rw [hlast] at hmem
        cases hmem
      exact absurd (by rw [hsingle]) hne
    · refine ⟨hd, i, ?_, (haddr d hdc i).symm⟩
      rwa [Function.update_of_ne hdc]
  · rintro ⟨hd, i, hi, rfl⟩
    by_cases hdc : d = c
    · rw [hdc, Function.update_self] at hi
      cases hi
    · rw [Function.update_of_ne hdc] at hi
      exact ⟨fun hsame => hdc (Prod.mk.inj hsame).1, hd, i, hi, haddr d hdc i⟩

/-! ## Every live object is found -/

/-- The slab of every live object is on the full or the partial list of its
cache, and `kfree` does not get to its panic. -/
def Session.Found (P : PageOps σ) (s : Session σ) : Prop :=
  ∀ c a, (c, a) ∈ s.live →
    (∃ list, list ≠ .freeSlabs ∧ ∃ x, OnList s.heap c list x ∧
      InObjects (s.heap.slabs x) (s.heap.caches c).size a) ∧
    ∀ h', kfreeFrom P a s.heap s.heap.kmemCaches ≠ .ok (false, h')

/-- The slab with the object at `a` has one live object. -/
def LastInSlab (h : Heap σ) (a : Uint) : Prop :=
  ∀ c ∈ h.kmemCaches, ∀ list, list ≠ .freeSlabs → ∀ x, OnList h c list x →
    InObjects (h.slabs x) (h.caches c).size a → (h.slabs x).active = 1

/-- The slab of the cache has no object to hand out, and `full_slabs` has no last
slab to put it behind. -/
def Exhausts (h : Heap σ) : Call → Prop
  | .kmalloc size => ∃ c x, sizeClass h size = some c ∧
      h.head c .partialSlabs = some x ∧
      (getObj (h.slabs x) (h.caches c).size).1 = none ∧
      h.head c .fullSlabs = none
  | .kfree _ => False

/-- A call in the kernel, where the address 0 is mapped: a call that comes to a
null pointer goes on there, and may do anything. -/
inductive CodeStep (P : PageOps σ) (s : Session σ) : Call → Session σ → Prop
  | returns {i : Call} {t : Session σ} : SessionStep P s i t → CodeStep P s i t
  | astray {i : Call} {t : Session σ} : Exhausts s.heap i → CodeStep P s i t

/-- A call that comes to no null pointer. -/
def ClearStep (P : PageOps σ) (s : Session σ) (i : Call) (t : Session σ) : Prop :=
  CodeStep P s i t ∧ ¬ Exhausts s.heap i

/-- A call after which every live object is found. -/
def FoundStep (P : PageOps σ) (s : Session σ) (i : Call) (t : Session σ) : Prop :=
  ClearStep P s i t ∧ t.Found P

/-- A call that is not `kfree` on one of several live objects of a slab. -/
def LastStep (P : PageOps σ) (s : Session σ) (i : Call) (t : Session σ) : Prop :=
  ClearStep P s i t ∧ ∀ a, i = .kfree a → LastInSlab s.heap a

theorem kmalloc_of_exhausts {size : Uint} (hout : Exhausts h (.kmalloc size)) :
    kmalloc P h size = .error .nullSlab := by
  obtain ⟨c, x, hclass, hpart, hnull, hfull⟩ := hout
  have hhead : (counted h c).head c .partialSlabs = some x := by
    rw [counted_head, hpart]
  have hsize : ((counted h c).caches c).size = (h.caches c).size :=
    (setRefCnt_kinds h c _).size c
  have hget : getObj ((counted h c).slabs x) ((counted h c).caches c).size =
      (none, (getObj (h.slabs x) (h.caches c).size).2) := by
    rw [hsize]
    exact Prod.ext hnull rfl
  unfold kmalloc
  rw [hclass]
  change initKmemCacheAlloc P h c = _
  rw [initKmemCacheAlloc_of_some hpart, handOut_of_null hhead hget,
    moveFull_of_none]
  · rfl
  · exact hhead
  · rw [Heap.setSlab_head, counted_head, hfull]

/-- The calls of the model are those that come to no null pointer. -/
theorem clearStep_iff {i : Call} : ClearStep P s i t ↔ SessionStep P s i t := by
  constructor
  · rintro ⟨hreturns | hout, hclear⟩
    · exact hreturns
    · exact absurd hout hclear
  · intro hstep
    refine ⟨.returns hstep, fun hout => ?_⟩
    cases hstep with
    | kmalloc _ hrun | null hrun =>
        rw [kmalloc_of_exhausts hout] at hrun
        cases hrun
    | kfree => exact hout

theorem Stock.lt_of_held (hstock : Stock h held) (hid : id ∈ held c) : c < 16 := by
  obtain ⟨x, hx⟩ := hstock.partial_of_mem hid
  exact hstock.lt (slabOf_of_partlyFull hx)

theorem Booted.mem_kmemCaches (hbooted : Booted h) (hlow : 2 ≤ c)
    (hhigh : c < 16) : c ∈ h.kmemCaches := by
  unfold Heap.kmemCaches
  rw [hbooted.cacheNum, List.mem_range'_1]
  omega

theorem Session.Inv.found (hs : s.Inv held) : s.Found P := by
  intro c a hmem
  obtain ⟨hlow, id, hid, rfl⟩ := (hs.live c a).mp hmem
  obtain ⟨x, hx⟩ := hs.stock.partial_of_mem hid
  have hslab := slabOf_of_partlyFull hx
  have hin := hs.stock.inObjects hslab hid
  have hfits := hs.stock.fits hslab
  refine ⟨⟨.partialSlabs, by decide, x, (hs.stock.flat.onList_iff _).mpr hx, hin⟩,
    ?_⟩
  intro h' hrun
  have hcache := hs.booted.mem_kmemCaches hlow (hs.stock.lt_of_held hid)
  obtain ⟨hfound, _⟩ := hs.stock.flat.kfreeFrom_cases hrun ⟨c, hcache, by
    intro hmiss
    exact (freeObj_none_iff hfits.ids hfits.size_pos).mp (hmiss x hx) hin⟩
  cases hfound

theorem Session.Inv.lastInSlab_iff (hs : s.Inv held) (hlow : 2 ≤ c)
    (hid : id ∈ held c) :
    LastInSlab s.heap (addrOf s.heap c id) ↔ (held c).erase id = ∅ := by
  obtain ⟨x, hx⟩ := hs.stock.partial_of_mem hid
  have hslab := slabOf_of_partlyFull hx
  have hin := hs.stock.inObjects hslab hid
  have hactive : (s.heap.slabs x).active = 1 ↔ (held c).erase id = ∅ := by
    rw [← BitVec.toNat_inj, (hs.stock.stocked c x hslab).holds.active,
      ← Finset.card_eq_zero, Finset.card_erase_of_mem hid]
    have hpos : 0 < (held c).card := Finset.card_pos.mpr ⟨id, hid⟩
    change _ = 1 ↔ _
    omega
  constructor
  · intro hlast
    exact hactive.mp (hlast c
      (hs.booted.mem_kmemCaches hlow (hs.stock.lt_of_held hid)) .partialSlabs
      (by decide) x ((hs.stock.flat.onList_iff _).mpr hx) hin)
  · intro hempty d hd list hlist y hy hin'
    rw [hs.stock.flat.onList_iff] at hy
    cases list with
    | freeSlabs => exact absurd rfl hlist
    | partialSlabs =>
        obtain rfl := hs.stock.inObjects_unique hslab (slabOf_of_partlyFull hy) hin
          hin'
        obtain rfl := Option.some.inj (hx.symm.trans hy)
        exact hactive.mpr hempty
    | fullSlabs =>
        rw [hs.stock.flat.full d] at hy
        cases hy

/-- The other objects of the slab are lost. -/
theorem Session.Inv.notFound (hs : s.Inv held) (hlow : 2 ≤ c) (hid : id ∈ held c)
    (hothers : (held c).erase id ≠ ∅)
    (hrun : kfree P s.heap (addrOf s.heap c id) = .ok h') :
    ¬ Session.Found P ⟨h', s.live.erase (c, addrOf s.heap c id)⟩ := by
  intro hfound
  obtain ⟨i, hi⟩ := Finset.nonempty_iff_ne_empty.mpr hothers
  obtain ⟨hne, hi⟩ := Finset.mem_erase.mp hi
  have hlive : (c, addrOf s.heap c i) ∈
      s.live.erase (c, addrOf s.heap c id) := by
    refine Finset.mem_erase.mpr ⟨?_, (hs.live c _).mpr ⟨hlow, i, hi, rfl⟩⟩
    intro hsame
    exact hne (hs.stock.addrOf_inj hi hid (Prod.mk.inj hsame).2)
  obtain ⟨⟨list, hlist, y, hy, _⟩, _⟩ := hfound c _ hlive
  obtain ⟨first, x, slab, hx, _, hholds, hrelease⟩ :=
    hs.stock.kfree_cases hid hrun
  have hsame := searched_same s.heap first
  have hpart : (dropped (searched s.heap first) c x slab).head c
      .partialSlabs = none := by
    rw [dropped_head, if_pos ⟨rfl, rfl⟩]
  have hslabs : (dropped (searched s.heap first) c x slab).slabs x = slab :=
    setSlab_slabs_self (uncounted (searched s.heap first) c) x slab
  have hactive : slab.active ≠ 0 := by
    rw [Ne, ← BitVec.toNat_inj, hholds.active]
    exact Finset.card_ne_zero.mpr ⟨i, Finset.mem_erase.mpr ⟨hne, hi⟩⟩
  have hflat := (hsame.flat hs.stock.flat).dropped c x slab
  cases hrelease with
  | lost =>
      rw [hflat.onList_iff] at hy
      cases list with
      | freeSlabs => exact hlist rfl
      | partialSlabs =>
          rw [hpart] at hy
          cases hy
      | fullSlabs =>
          rw [hflat.full c] at hy
          cases hy
  | kept hempty => exact hactive (hslabs ▸ hempty)
  | returned hempty => exact hactive (hslabs ▸ hempty)

/-- At first no object is live but the caches. -/
theorem Stock.session (hstock : Stock h held) (hbooted : Booted h)
    (hidle : ∀ c, 2 ≤ c → held c = ∅) :
    Session.Inv (⟨h, ∅⟩ : Session σ) held := by
  refine ⟨hstock, hbooted, ?_⟩
  intro c a
  constructor
  · intro hmem
    cases hmem
  · rintro ⟨hlow, id, hid, _⟩
    rw [hidle c hlow] at hid
    cases hid

theorem initSlab_inv {pages : σ} (hrun : initSlab P pages = .ok h) :
    ∃ held, Session.Inv (⟨h, ∅⟩ : Session σ) held := by
  obtain ⟨held, hstock, _, hidle, _⟩ := initSlab_stock hrun
  exact ⟨held, hstock.session (initSlab_cases hrun).2 hidle⟩

theorem Session.Inv.afterStep (hs : s.Inv held) {i : Call}
    (hstep : LastStep P s i t) : ∃ held', t.Inv held' := by
  obtain ⟨hclear, hlast⟩ := hstep
  cases clearStep_iff.mp hclear with
  | kmalloc hclass hrun =>
      obtain ⟨id, _, hret, ht⟩ := hs.afterKmalloc hclass hrun
      obtain rfl := Option.some.inj hret
      exact ⟨_, ht⟩
  | null hrun =>
      obtain ⟨c, _, hclass, _⟩ := kmalloc_cases hrun
      obtain ⟨id, _, hret, _⟩ := hs.afterKmalloc hclass hrun
      cases hret
  | kfree hmem hrun =>
      obtain ⟨hlow, id, hid, rfl⟩ := (hs.live _ _).mp hmem
      exact ⟨_, hs.afterLast hid
        ((hs.lastInSlab_iff hlow hid).mp (hlast _ rfl)) hrun⟩

theorem lastRun_inv {pages : σ} {calls : List Call}
    (hboot : initSlab P pages = .ok h)
    (hrun : Run (LastStep P) ⟨h, ∅⟩ calls s) : ∃ held, s.Inv held :=
  hrun.invariant (fun s => ∃ held, s.Inv held)
    (fun _ _ _ ⟨_, hs⟩ hstep => hs.afterStep hstep) (initSlab_inv hboot)

/-- In a run that comes to no null pointer every live object can always be found
just when `kfree` is only called on the last live object of a slab. -/
theorem kmalloc_contract_iff {pages : σ} {calls : List Call}
    (hboot : initSlab P pages = .ok h) :
    Run (FoundStep P) ⟨h, ∅⟩ calls s ↔ Run (LastStep P) ⟨h, ∅⟩ calls s := by
  constructor
  · intro hrun
    induction hrun with
    | nil => exact .nil
    | snoc _ hstep ih =>
        obtain ⟨hclear, hfound⟩ := hstep
        obtain ⟨held, ht⟩ := lastRun_inv hboot ih
        refine .snoc ih ⟨hclear, ?_⟩
        rintro a rfl
        cases clearStep_iff.mp hclear with
        | kfree hmem hfree =>
            obtain ⟨hlow, id, hid, rfl⟩ := (ht.live _ _).mp hmem
            rw [ht.lastInSlab_iff hlow hid]
            by_contra hothers
            exact ht.notFound hlow hid hothers hfree hfound
  · intro hrun
    induction hrun with
    | nil => exact .nil
    | snoc hfirst hstep ih =>
        obtain ⟨held, ht⟩ := lastRun_inv hboot (hfirst.snoc hstep)
        exact .snoc ih ⟨hstep.1, ht.found⟩

/-- One object of 32 bytes is handed out and freed. -/
theorem kmalloc_contract_one :
    ∃ (h : Heap Unit) (s : Session Unit), initSlab plainPages () = .ok h ∧
      Run (FoundStep plainPages) ⟨h, ∅⟩ [.kmalloc 10, .kfree 0xE0002116] s := by
  have hruns : (do
      let h ← initSlab plainPages ()
      let r ← kmalloc plainPages h 10
      let _ ← kfree plainPages r.2 0xE0002116
      return r.1) = .ok (some 0xE0002116) := rfl
  obtain ⟨h, hboot, hrest⟩ := bind_ok_iff.mp hruns
  obtain ⟨⟨p, h₁⟩, hfirst, hrest⟩ := bind_ok_iff.mp hrest
  obtain ⟨h₂, hfree, hret⟩ := bind_ok_iff.mp hrest
  obtain rfl := Except.ok.inj hret
  obtain ⟨c, hc, hclass, _⟩ := kmalloc_cases hfirst
  obtain ⟨held, hinv⟩ := initSlab_inv hboot
  obtain ⟨hlow, _⟩ := hinv.booted.bounds_of_mem_tail hc
  have hnone : held c = ∅ := by
    refine Finset.eq_empty_of_forall_notMem (fun id hid => ?_)
    have hmem := (hinv.live c (addrOf h c id)).mpr ⟨hlow, id, hid, rfl⟩
    cases hmem
  obtain ⟨id, _, haddr, hinv'⟩ := hinv.afterKmalloc hclass hfirst
  have hlast : LastInSlab h₁ 0xE0002116 := by
    rw [Option.some.inj haddr]
    refine (hinv'.lastInSlab_iff hlow ?_).mpr ?_
    · rw [Function.update_self]
      exact Finset.mem_insert_self _ _
    · rw [Function.update_self, hnone]
      exact Finset.erase_insert (Finset.notMem_empty id)
  have hrun : Run (LastStep plainPages) ⟨h, ∅⟩
      ([] ++ [.kmalloc 10] ++ [.kfree 0xE0002116])
      ⟨h₂, (insert (c, 0xE0002116) ∅ : Finset (ℕ × Uint)).erase
        (c, 0xE0002116)⟩ := by
    refine .snoc (.snoc .nil ⟨clearStep_iff.mpr (.kmalloc hclass hfirst), nofun⟩)
      ⟨clearStep_iff.mpr (.kfree (Finset.mem_insert_self _ _) hfree), ?_⟩
    intro a ha
    cases ha
    exact hlast
  exact ⟨h, _, hboot, (kmalloc_contract_iff hboot).mpr hrun⟩

/-- Of two objects of 32 bytes the first one is freed, and the second one is
lost. -/
theorem second_object_lost :
    ¬ ∀ (h : Heap Unit) (calls : List Call) (s : Session Unit),
      initSlab plainPages () = .ok h →
      Run (SessionStep plainPages) ⟨h, ∅⟩ calls s →
      ∀ c a, (c, a) ∈ s.live → kfree plainPages s.heap a ≠
        .error (.panic "error,obj not in slab management\n") := by
  intro hall
  have hruns : (do
      let h ← initSlab plainPages ()
      let r ← kmalloc plainPages h 10
      let q ← kmalloc plainPages r.2 10
      let h ← kfree plainPages q.2 0xE0002116
      return (r.1, q.1, (kfree plainPages h 0xE0002136).map fun _ => ())) =
        .ok (some 0xE0002116, some 0xE0002136,
          .error (.panic "error,obj not in slab management\n")) := rfl
  obtain ⟨h, hboot, hrest⟩ := bind_ok_iff.mp hruns
  obtain ⟨⟨p, h₁⟩, hfirst, hrest⟩ := bind_ok_iff.mp hrest
  obtain ⟨⟨q, h₂⟩, hsecond, hrest⟩ := bind_ok_iff.mp hrest
  obtain ⟨h₃, hfree, hret⟩ := bind_ok_iff.mp hrest
  simp only [pure, Except.pure, Except.ok.injEq, Prod.mk.injEq] at hret
  obtain ⟨rfl, rfl, hpanic⟩ := hret
  obtain ⟨c, _, hclass, _⟩ := kmalloc_cases hfirst
  obtain ⟨d, _, hclass', _⟩ := kmalloc_cases hsecond
  have hrun : Run (SessionStep plainPages) ⟨h, ∅⟩
      ([] ++ [.kmalloc 10] ++ [.kmalloc 10] ++ [.kfree 0xE0002116])
      ⟨h₃, (insert (d, 0xE0002136) (insert (c, 0xE0002116) ∅ :
        Finset (ℕ × Uint))).erase (c, 0xE0002116)⟩ :=
    .snoc (.snoc (.snoc .nil (.kmalloc hclass hfirst))
      (.kmalloc hclass' hsecond))
      (.kfree (Finset.mem_insert_of_mem (Finset.mem_insert_self _ _)) hfree)
  refine hall h _ _ hboot hrun d 0xE0002136 ?_ ?_
  · refine Finset.mem_erase.mpr ⟨?_, Finset.mem_insert_self _ _⟩
    intro hsame
    exact absurd (Prod.mk.inj hsame).2 (by decide)
  · cases hlost : kfree plainPages h₃ 0xE0002136 with
    | ok h₄ =>
        rw [hlost] at hpanic
        cases hpanic
    | error fault =>
        rw [hlost] at hpanic
        rw [Except.error.inj hpanic]

end Slab
end OS32
