import OS32.SlabRuns
import OS32.SlabLayout
import OS32.RegionStack

/-!
# The heap while no slab gets lost

As long as `kfree` is only asked for the last live object of a slab, every cache
has at most one slab, and these slabs fill the heap from `HEAP_START` to
`heap_top`.
-/

namespace OS32

open NullList NullList.Links Transition RegionStack

namespace Slab

variable {σ : Type} {P : PageOps σ} {h h' : Heap σ} {c d : ℕ} {a x : Uint}
  {held : ℕ → Finset ℕ}

/-- The slab of a cache that has one. -/
def slabOf (h : Heap σ) (c : ℕ) : SlabPtr :=
  (h.head c .partialSlabs).or (h.head c .freeSlabs)

/-- The length of the slabs of the cache `c`. -/
def slabBytes (c : ℕ) : ℕ := 4096 * pow2 (bootCache c).order

/-- The slab `x` of the cache `c`, with the live objects `ids`. -/
structure Stocked (h : Heap σ) (c : ℕ) (x : Uint) (ids : Finset ℕ) : Prop where
  kind : (h.caches c).kind = (bootCache c).kind
  holds : Holds (h.slabs x) ids
  ids : (h.slabs x).objNum.toNat ≤ 65536
  slabSize : (h.slabs x).slabSize = BitVec.ofNat 32 (pow2 (bootCache c).order)
  adjoining : Adjoining (h.slabs x) x (h.caches c).size (x.toNat + slabBytes c)

/-- Every cache `c` has its live objects `held c` in its one slab, and the slabs
fill the heap. -/
structure Stock (h : Heap σ) (held : ℕ → Finset ℕ) : Prop where
  flat : Flat h
  tiled : ∃ stack, Fills slabBytes HEAP_START.toNat stack h.heapTop.toNat ∧
    (stack.map Prod.fst).Nodup ∧ (∀ p ∈ stack, p.1 < 16) ∧
    ∀ c n, (c, n) ∈ stack ↔ ∃ x, slabOf h c = some x ∧ x.toNat = n
  stocked : ∀ c x, slabOf h c = some x → Stocked h c x (held c)
  idle : ∀ c, h.head c .partialSlabs = none → held c = ∅

/-- The address of the object `id` of the cache `c`. -/
def addrOf (h : Heap σ) (c : ℕ) (id : ℕ) : Uint :=
  (slabOf h c).elim 0 fun x => objAddr (h.slabs x) (h.caches c).size id

/-! ## Numbers of the caches -/

theorem slabBytes_pos (c : ℕ) : 0 < slabBytes c := by
  have hpos : 0 < pow2 (bootCache c).order := by
    rw [pow2_eq]
    positivity
  unfold slabBytes
  omega

/-- The caches do not fill the address space. -/
theorem slabBytes_sum :
    HEAP_START.toNat + ∑ c ∈ Finset.range 16, slabBytes c < 2 ^ 32 := by
  decide +kernel

/-- The objects of a slab have room in its pages, and their ids in the free
list. -/
theorem bootCache_room : ∀ c < 16,
    (bootCache c).objPerSlab.toNat * ((bootCache c).size.toNat + 2) + 40 ≤
      slabBytes c := by
  decide +kernel

/-! ## Slabs of a stock -/

theorem slabOf_of_partlyFull (hx : h.head c .partialSlabs = some x) :
    slabOf h c = some x := by
  unfold slabOf
  rw [hx]
  rfl

theorem Stock.partial_of_mem (hstock : Stock h held) {id : ℕ}
    (hid : id ∈ held c) : ∃ x, h.head c .partialSlabs = some x := by
  refine Option.ne_none_iff_exists'.mp ?_
  intro hnone
  rw [hstock.idle c hnone] at hid
  cases hid

theorem Stock.lt (hstock : Stock h held) (hx : slabOf h c = some x) : c < 16 := by
  obtain ⟨stack, _, _, hkeys, hmem⟩ := hstock.tiled
  exact hkeys _ ((hmem c _).mpr ⟨x, hx, rfl⟩)

theorem Stock.inside (hstock : Stock h held) (hx : slabOf h c = some x) :
    x.toNat + slabBytes c ≤ h.heapTop.toNat := by
  obtain ⟨stack, hfills, _, _, hmem⟩ := hstock.tiled
  exact (hfills.inside ((hmem c _).mpr ⟨x, hx, rfl⟩)).2

theorem Stock.apart (hstock : Stock h held) (hx : slabOf h c = some x) {y : Uint}
    (hy : slabOf h d = some y) (hne : c ≠ d) :
    x.toNat + slabBytes c ≤ y.toNat ∨ y.toNat + slabBytes d ≤ x.toNat := by
  obtain ⟨stack, hfills, _, _, hmem⟩ := hstock.tiled
  exact hfills.apart ((hmem c _).mpr ⟨x, hx, rfl⟩) ((hmem d _).mpr ⟨y, hy, rfl⟩)
    hne

theorem Stock.slabs_ne (hstock : Stock h held) (hx : slabOf h c = some x)
    {y : Uint} (hy : slabOf h d = some y) (hne : c ≠ d) : y ≠ x := by
  rintro rfl
  have hc := slabBytes_pos c
  have hd := slabBytes_pos d
  have hapart := hstock.apart hx hy hne
  omega

theorem Stocked.fits {ids : Finset ℕ} (hstocked : Stocked h c x ids)
    (hc : c < 16) (hend : x.toNat + slabBytes c ≤ 2 ^ 32) :
    Fits (h.slabs x) (h.caches c).size := by
  refine ⟨?_, hstocked.ids, hstocked.adjoining.fence.trans hend⟩
  rw [(size_of_kind hstocked.kind).1]
  exact (bootCache_bounds c hc).1

theorem Stock.fits (hstock : Stock h held) (hx : slabOf h c = some x) :
    Fits (h.slabs x) (h.caches c).size := by
  have htop := h.heapTop.isLt
  have hinside := hstock.inside hx
  exact (hstock.stocked c x hx).fits (hstock.lt hx) (by omega)

/-- An unchanged slab of a cache of unchanged kind is stocked as before. -/
theorem Stocked.congr {ids : Finset ℕ} (hstocked : Stocked h c x ids)
    (hkind : (h'.caches c).kind = (h.caches c).kind)
    (hslab : h'.slabs x = h.slabs x) : Stocked h' c x ids := by
  have hobjSize : (h'.caches c).size = (h.caches c).size :=
    congrArg Prod.fst hkind
  obtain ⟨hboot, hholds, hids, hsize, hadjoining⟩ := hstocked
  constructor
  · exact hkind.trans hboot
  · rw [hslab]
    exact hholds
  · rw [hslab]
    exact hids
  · rw [hslab, hsize]
  · rw [hslab, hobjSize]
    exact hadjoining

/-- Only the members of a heap that `Stock` is about matter to it. -/
theorem Stock.congr (hstock : Stock h held) (hsame : SameSlabs h h') :
    Stock h' held := by
  have hslab : ∀ c, slabOf h' c = slabOf h c := by
    intro c
    unfold slabOf
    rw [hsame.head, hsame.head]
  refine ⟨hsame.flat hstock.flat, ?_, ?_, ?_⟩
  · rw [hsame.heapTop]
    simp only [hslab]
    exact hstock.tiled
  · intro c x hx
    rw [hslab] at hx
    exact (hstock.stocked c x hx).congr (hsame.kinds.2 c)
      (congrFun hsame.slabs x)
  · intro c hc
    rw [hsame.head] at hc
    exact hstock.idle c hc

/-! ## One slab changes its objects -/

theorem addrOf_congr (hslab : slabOf h' d = slabOf h d)
    (hobj : ∀ y, slabOf h d = some y → (h'.slabs y).obj = (h.slabs y).obj)
    (hsize : (h'.caches d).size = (h.caches d).size) (id : ℕ) :
    addrOf h' d id = addrOf h d id := by
  unfold addrOf
  rw [hslab, hsize]
  cases hy : slabOf h d with
  | none => rfl
  | some y =>
      change objAddr (h'.slabs y) _ id = objAddr (h.slabs y) _ id
      rw [objAddr_congr (hobj y hy)]

theorem addrOf_setSlab {slab : SlabT} (hobj : slab.obj = (h.slabs x).obj)
    (d id : ℕ) : addrOf (h.setSlab x slab) d id = addrOf h d id := by
  refine addrOf_congr ?_ ?_ ?_ id
  · rfl
  · intro y _
    change (Function.update h.slabs x slab y).obj = _
    by_cases hy : y = x
    · rw [hy, Function.update_self, hobj]
    · rw [Function.update_of_ne hy]
  · rfl

theorem Stock.setSlab (hstock : Stock h held) {slab : SlabT} {ids : Finset ℕ}
    (hx : h.head c .partialSlabs = some x) (hblock : SameBlock (h.slabs x) slab)
    (hholds : Holds slab ids) :
    Stock (h.setSlab x slab) (Function.update held c ids) := by
  refine ⟨hstock.flat.setSlab x slab, hstock.tiled, ?_, ?_⟩
  · intro d y hy
    change slabOf h d = some y at hy
    have hstocked := hstock.stocked d y hy
    by_cases hd : d = c
    · subst hd
      obtain ⟨hkind, _, hids, hsize, hadjoining⟩ := hstocked
      obtain rfl := Option.some.inj ((slabOf_of_partlyFull hx).symm.trans hy)
      rw [Function.update_self]
      refine ⟨hkind, ?_, ?_, ?_, ?_⟩
      · rw [setSlab_slabs_self]
        exact hholds
      · rw [setSlab_slabs_self, hblock.objNum]
        exact hids
      · rw [setSlab_slabs_self, hblock.slabSize, hsize]
      · rw [setSlab_slabs_self]
        refine ⟨?_, ?_, ?_⟩
        · rw [hblock.freeList, hadjoining.freeList]
        · rw [hblock.obj, hblock.freeList, hblock.objNum, hadjoining.obj]
        · rw [hblock.obj, hblock.objNum]
          exact hadjoining.fence
    · have hne : y ≠ x := hstock.slabs_ne (slabOf_of_partlyFull hx) hy (Ne.symm hd)
      have hsame : (h.setSlab x slab).slabs y = h.slabs y :=
        Function.update_of_ne hne _ _
      rw [Function.update_of_ne hd]
      exact hstocked.congr rfl hsame
  · intro d hd
    change h.head d .partialSlabs = none at hd
    by_cases hdc : d = c
    · subst hdc
      rw [hx] at hd
      cases hd
    · rw [Function.update_of_ne hdc]
      exact hstock.idle d hd

/-! ## `init_kmem_cache_alloc` -/

theorem Holds.setRefNum {slab : SlabT} {ids : Finset ℕ} (hholds : Holds slab ids)
    (n : Uint) : Holds { slab with refNum := n } ids :=
  ⟨hholds.subset, hholds.active, hholds.stack⟩

/-- The object that `GetObj` hands out becomes live. -/
theorem Stock.get (hstock : Stock h held) {n ret : Uint} {slab : SlabT}
    (hx : h.head c .partialSlabs = some x)
    (hget : getObj { h.slabs x with refNum := n } (h.caches c).size =
      (some ret, slab)) :
    ∃ id, id ∉ held c ∧ ret = addrOf h c id ∧
      Stock (h.setSlab x slab)
        (Function.update held c (insert id (held c))) := by
  have hslab := slabOf_of_partlyFull hx
  have hholds := (hstock.stocked c x hslab).holds.setRefNum n
  obtain ⟨id, _, hfresh, rfl, hholds'⟩ := hholds.afterGet hget
  refine ⟨id, hfresh, ?_, hstock.setSlab hx (getObj_block hget) hholds'⟩
  unfold addrOf
  rw [hslab]
  rfl

theorem slabOf_placed (h : Heap σ) (c : ℕ) (a : Uint) (d : ℕ) :
    slabOf (placed h c a) d = if d = c then some a else slabOf h d := by
  unfold slabOf
  rw [placed_head, placed_head, if_neg (by simp)]
  by_cases hd : d = c
  · rw [if_pos ⟨hd, rfl⟩, if_pos hd]
    rfl
  · rw [if_neg (fun hboth => hd hboth.1), if_neg (fun hboth => hd hboth.1),
      if_neg (fun hboth => hd hboth.1), if_neg hd]

/-- A slab of the cache is made its first slab. -/
theorem Stock.placed (hstock : Stock h held) (ha : slabOf h c = some a) :
    Stock (placed h c a) held := by
  have hslab : ∀ d, slabOf (Slab.placed h c a) d = slabOf h d := by
    intro d
    rw [slabOf_placed]
    split
    · next hd => rw [hd, ha]
    · rfl
  refine ⟨hstock.flat.placed c a, ?_, ?_, ?_⟩
  · simp only [hslab]
    exact hstock.tiled
  · intro d y hy
    rw [hslab] at hy
    exact (hstock.stocked d y hy).congr ((placed_kinds h c a).2 d) rfl
  · intro d hd
    rw [placed_head, if_neg (by simp)] at hd
    split at hd
    · cases hd
    · exact hstock.idle d hd

/-- There is room for one more slab at the end of the heap. -/
theorem Stock.pushed (hstock : Stock h held) (hnone : slabOf h c = none)
    (hc : c < 16) :
    h.heapTop.toNat + slabBytes c < 2 ^ 32 ∧
      ∃ stack, Fills slabBytes HEAP_START.toNat stack
          (h.heapTop.toNat + slabBytes c) ∧
        (stack.map Prod.fst).Nodup ∧ (∀ p ∈ stack, p.1 < 16) ∧
        ∀ d n, (d, n) ∈ stack ↔ ∃ x,
          (if d = c then some h.heapTop else slabOf h d) = some x ∧
            x.toNat = n := by
  obtain ⟨stack, hfills, hnodup, hkeys, hmem⟩ := hstock.tiled
  have hfresh : c ∉ stack.map Prod.fst := by
    intro hin
    obtain ⟨p, hp, rfl⟩ := List.mem_map.mp hin
    obtain ⟨x, hx, _⟩ := (hmem p.1 p.2).mp hp
    rw [hnone] at hx
    cases hx
  have hfills' : Fills slabBytes HEAP_START.toNat
      ((c, h.heapTop.toNat) :: stack) (h.heapTop.toNat + slabBytes c) :=
    ⟨rfl, hfills⟩
  have hnodup' : (((c, h.heapTop.toNat) :: stack).map Prod.fst).Nodup :=
    List.nodup_cons.mpr ⟨hfresh, hnodup⟩
  have hkeys' : ∀ p ∈ (c, h.heapTop.toNat) :: stack, p.1 < 16 := by
    intro p hp
    rcases List.mem_cons.mp hp with rfl | hp
    · exact hc
    · exact hkeys p hp
  refine ⟨?_, _, hfills', hnodup', hkeys', ?_⟩
  · have hle := hfills'.top_le hnodup'
      (fun p hp => Finset.mem_range.mpr (hkeys' p hp))
    exact hle.trans_lt slabBytes_sum
  · intro d n
    rw [List.mem_cons, hmem]
    by_cases hd : d = c
    · subst hd
      rw [if_pos rfl, hnone]
      constructor
      · rintro (hsame | ⟨x, hx, _⟩)
        · exact ⟨_, rfl, (congrArg Prod.snd hsame).symm⟩
        · cases hx
      · rintro ⟨x, hx, rfl⟩
        obtain rfl := Option.some.inj hx
        exact .inl rfl
    · rw [if_neg hd]
      exact or_iff_right (fun hsame => hd (congrArg Prod.fst hsame))

/-- The slab that `apply_slab` builds is the top one and has no live objects. -/
theorem Stock.built (hstock : Stock h held) (hpart : h.head c .partialSlabs = none)
    (hfree : h.head c .freeSlabs = none) (hc : c < 16)
    (hkind : (h.caches c).kind = (bootCache c).kind) (pgList : PagePtr)
    (pages : σ) :
    Stock (Slab.placed (grown h (pow2 (h.caches c).order)
      (h.caches c).objPerSlab pgList pages) c h.heapTop) held := by
  have hnone : slabOf h c = none := by
    unfold slabOf
    rw [hpart, hfree]
    rfl
  obtain ⟨hsize, hcap, horder⟩ := size_of_kind hkind
  obtain ⟨hsize_pos, _, hids, _⟩ := bootCache_bounds c hc
  have hroom := bootCache_room c hc
  obtain ⟨hwrap, hstack⟩ := hstock.pushed hnone hc
  have hpages : slabBytes c = 4096 * pow2 (bootCache c).order := rfl
  have htop : (grown h (pow2 (h.caches c).order) (h.caches c).objPerSlab pgList
      pages).heapTop.toNat = h.heapTop.toNat + slabBytes c := by
    change (h.heapTop + BitVec.ofNat 32 (pow2 (h.caches c).order) *
      PGSIZE).toNat = _
    rw [horder, BitVec.toNat_add, BitVec.toNat_mul, BitVec.toNat_ofNat]
    change (_ + _ % 4294967296 * 4096 % 4294967296) % 4294967296 = _
    omega
  have hslab : ∀ d, slabOf (Slab.placed (grown h (pow2 (h.caches c).order)
      (h.caches c).objPerSlab pgList pages) c h.heapTop) d =
        if d = c then some h.heapTop else slabOf h d :=
    fun d => slabOf_placed _ _ _ _
  refine ⟨(hstock.flat.grown _ _ _ _).placed _ _, ?_, ?_, ?_⟩
  · change ∃ stack, Fills _ _ stack (grown h (pow2 (h.caches c).order)
      (h.caches c).objPerSlab pgList pages).heapTop.toNat ∧ _
    rw [htop]
    simp only [hslab]
    exact hstack
  · intro d y hy
    rw [hslab] at hy
    by_cases hd : d = c
    · subst hd
      rw [if_pos rfl] at hy
      obtain rfl := Option.some.inj hy
      have hnew : (Slab.placed (grown h (pow2 (h.caches d).order)
          (h.caches d).objPerSlab pgList pages) d h.heapTop).slabs h.heapTop =
            newSlab (h.slabs h.heapTop) h.heapTop
              (BitVec.ofNat 32 (pow2 (h.caches d).order))
              (h.caches d).objPerSlab pgList :=
        Function.update_self (β := fun _ => SlabT) _ _ _
      rw [hstock.idle d hpart]
      refine ⟨((placed_kinds _ _ _).2 d).trans hkind, ?_, ?_, ?_, ?_⟩
      · rw [hnew]
        exact newSlab_holds _ _ _ _ _ (hcap ▸ hids)
      · rw [hnew]
        exact hcap ▸ hids
      · rw [hnew, ← horder]
        rfl
      · rw [hnew, (placed_kinds _ _ _).size]
        change Adjoining _ _ (h.caches d).size _
        rw [hsize, hcap]
        exact newSlab_adjoining (by omega) (by omega) (by omega) (by omega)
    · rw [if_neg hd] at hy
      have hne : y ≠ h.heapTop := by
        rintro rfl
        have hinside := hstock.inside hy
        have hpos := slabBytes_pos d
        omega
      have hsame : (Slab.placed (grown h (pow2 (h.caches c).order)
          (h.caches c).objPerSlab pgList pages) c h.heapTop).slabs y =
            h.slabs y := Function.update_of_ne hne _ _
      exact (hstock.stocked d y hy).congr ((placed_kinds _ _ _).2 d) hsame
  · intro d hd
    rw [placed_head, if_neg (by simp)] at hd
    split at hd
    · cases hd
    · exact hstock.idle d hd

theorem Supply.stock {h₁ : Heap σ} (hsupply : Supply h c h₁ a)
    (hstock : Stock h held) (hc : c < 16)
    (hkind : (h.caches c).kind = (bootCache c).kind) :
    Stock (Slab.placed h₁ c a) held ∧
      ∀ d, ∀ id ∈ held d, addrOf (Slab.placed h₁ c a) d id = addrOf h d id := by
  cases hsupply with
  | cached hhead =>
      have ha : slabOf h c = some a := by
        rcases hhead with hhead | ⟨hpart, hfree⟩
        · exact slabOf_of_partlyFull hhead
        · unfold slabOf
          rw [hpart, hfree]
          rfl
      refine ⟨hstock.placed ha, fun d id _ => ?_⟩
      refine addrOf_congr ?_ ?_ ?_ id
      · rw [slabOf_placed]
        split
        · next hd => rw [hd, ha]
        · rfl
      · exact fun _ _ => rfl
      · exact (placed_kinds h c a).size d
  | built hpart hfree htop =>
      refine ⟨hstock.built hpart hfree hc hkind _ _, fun d id hid => ?_⟩
      obtain ⟨x, hx⟩ := hstock.partial_of_mem hid
      have hd : d ≠ c := by
        rintro rfl
        rw [hpart] at hx
        cases hx
      refine addrOf_congr ?_ ?_ ?_ id
      · rw [slabOf_placed, if_neg hd]
        rfl
      · intro y hy
        have hne : y ≠ h.heapTop := by
          rintro rfl
          have hinside := hstock.inside hy
          have hpos := slabBytes_pos d
          omega
        exact congrArg SlabT.obj (Function.update_of_ne hne _ _)
      · exact (placed_kinds _ _ _).size d

/-- A call hands out an object that is not live. -/
theorem Stock.afterAlloc (hstock : Stock h held) (hc : c < 16)
    (hkind : (h.caches c).kind = (bootCache c).kind) {r : Option Uint}
    (hrun : initKmemCacheAlloc P h c = .ok (r, h')) :
    ∃ id, id ∉ held c ∧ r = some (addrOf h' c id) ∧
      Stock h' (Function.update held c (insert id (held c))) ∧
      ∀ d, ∀ i ∈ held d, addrOf h' d i = addrOf h d i := by
  obtain ⟨h₁, a, n, ret, slab, hsupply, hget, rfl, rfl⟩ :=
    hstock.flat.alloc_cases hrun
  have hcounted : SameSlabs h (counted h c) := setRefCnt_same h c _
  obtain ⟨hplaced, haddr⟩ := hsupply.stock (hstock.congr hcounted) hc
    ((hcounted.kinds.2 c).trans hkind)
  have hhead : (Slab.placed h₁ c a).head c .partialSlabs = some a := by
    rw [placed_head, if_neg (by simp), if_pos ⟨rfl, rfl⟩]
  have hsize : ((Slab.placed h₁ c a).caches c).size = (h.caches c).size :=
    ((hcounted.kinds.trans hsupply.kinds).trans (placed_kinds h₁ c a)).size c
  rw [← hsize] at hget
  obtain ⟨id, hfresh, rfl, hstock'⟩ := hplaced.get hhead hget
  have hobj : slab.obj = ((Slab.placed h₁ c a).slabs a).obj :=
    (getObj_block hget).obj
  refine ⟨id, hfresh, by rw [addrOf_setSlab hobj], hstock', ?_⟩
  intro d i hi
  rw [addrOf_setSlab hobj, haddr d i hi]
  refine addrOf_congr ?_ ?_ ?_ i
  · unfold slabOf
    rw [hcounted.head, hcounted.head]
  · exact fun _ _ => rfl
  · exact hcounted.kinds.size d

/-! ## Counters -/

theorem setHead_refCnt (h : Heap σ) (c : ℕ) (list : SlabList) (p : SlabPtr)
    (d : ℕ) :
    ((h.setHead c list p).caches d).refCnt = (h.caches d).refCnt := by
  unfold Heap.setHead Heap.setCache
  dsimp only
  by_cases hd : d = c
  · subst hd
    rw [Function.update_self]
  · rw [Function.update_of_ne hd]

theorem setRefCnt_refCnt (h : Heap σ) (c : ℕ) (refCnt : Uint) (d : ℕ) :
    ((h.setRefCnt c refCnt).caches d).refCnt =
      if d = c then refCnt else (h.caches d).refCnt := by
  unfold Heap.setRefCnt Heap.setCache
  dsimp only
  by_cases hd : d = c
  · subst hd
    rw [Function.update_self, if_pos rfl]
  · rw [Function.update_of_ne hd, if_neg hd]

theorem Flat.alloc_refCnt (hflat : Flat h) {r : Option Uint}
    (hrun : initKmemCacheAlloc P h c = .ok (r, h')) (d : ℕ) :
    (h'.caches d).refCnt =
      if d = c then (h.caches d).refCnt + 1 else (h.caches d).refCnt := by
  obtain ⟨h₁, a, n, ret, slab, hsupply, _, _, rfl⟩ := hflat.alloc_cases hrun
  have hcaches : h₁.caches = (counted h c).caches := by
    cases hsupply with
    | cached => rfl
    | built => rfl
  change ((Slab.placed h₁ c a).caches d).refCnt = _
  unfold Slab.placed
  rw [setHead_refCnt, setHead_refCnt, hcaches]
  unfold counted
  rw [setRefCnt_refCnt]
  split
  · next hd => rw [hd]
  · rfl

theorem Flat.alloc_head (hflat : Flat h) {r : Option Uint}
    (hrun : initKmemCacheAlloc P h c = .ok (r, h')) (hd : d ≠ c)
    (list : SlabList) : h'.head d list = h.head d list := by
  obtain ⟨h₁, a, n, ret, slab, hsupply, _, _, rfl⟩ := hflat.alloc_cases hrun
  have hhead : h₁.head d list = (counted h c).head d list := by
    cases hsupply with
    | cached => rfl
    | built => rfl
  rw [Heap.setSlab_head, placed_head, if_neg (fun hboth => hd hboth.1),
    if_neg (fun hboth => hd hboth.1), hhead, counted_head]

/-! ## `init_slab` -/

theorem bootHeapCache_head (pages : σ) (c : ℕ) (list : SlabList) :
    (bootHeapCache pages).head c list = none := by
  unfold bootHeapCache
  rw [setCache_head]
  split
  · rfl
  · rfl

theorem bootHeapCache_refCnt (pages : σ) (c : ℕ) :
    ((bootHeapCache pages).caches c).refCnt = 0 := by
  change (Function.update (bootHeap pages).caches kmemCacheBoot _ c).refCnt = 0
  by_cases hc : c = kmemCacheBoot
  · rw [hc, Function.update_self]
    rfl
  · rw [Function.update_of_ne hc]
    rfl

theorem Stock.boot (pages : σ) : Stock (bootHeapCache pages) (fun _ => ∅) := by
  have hhead := bootHeapCache_head pages
  have hslab : ∀ c, slabOf (bootHeapCache pages) c = none := by
    intro c
    unfold slabOf
    rw [hhead, hhead]
    rfl
  refine ⟨(Flat.boot pages).newCache _ _ _ _, ⟨[], rfl, by simp, by simp, ?_⟩,
    ?_, fun _ _ => rfl⟩
  · intro c n
    simp [hslab]
  · intro c x hx
    rw [hslab] at hx
    cases hx

/-- A cache that comes new to `kmem_caches`. -/
theorem Stock.withCache (hstock : Stock h held)
    (hnew : ∀ list, h.head (h.cacheNum + 1) list = none) (name : String)
    (size : Uint) (pgNum : ℕ) :
    Stock (withCache h (createBootCache name size pgNum)) held := by
  have hhead : ∀ c list, (Slab.withCache h
      (createBootCache name size pgNum)).head c list = h.head c list := by
    intro c list
    change (h.setCache (h.cacheNum + 1) _).head c list = _
    rw [setCache_head]
    split
    · next hc => rw [hc, hnew list]; rfl
    · rfl
  have hslab : ∀ c, slabOf (Slab.withCache h (createBootCache name size pgNum))
      c = slabOf h c := by
    intro c
    unfold slabOf
    rw [hhead, hhead]
  refine ⟨hstock.flat.withCache _ _ _, ?_, ?_, ?_⟩
  · simp only [hslab]
    exact hstock.tiled
  · intro c x hx
    rw [hslab] at hx
    have hc : c ≠ h.cacheNum + 1 := by
      rintro rfl
      unfold slabOf at hx
      rw [hnew, hnew] at hx
      cases hx
    have hsame := withCache_kind_of_ne rfl (createBootCache name size pgNum) hc
    exact (hstock.stocked c x hx).congr hsame rfl
  · intro c hc
    rw [hhead] at hc
    exact hstock.idle c hc

/-- What holds while the caches are being made. -/
structure Booting (h : Heap σ) (held : ℕ → Finset ℕ) : Prop where
  stock : Stock h held
  cacheNum : 1 ≤ h.cacheNum
  kind : (h.caches cacheCache).kind = (bootCache cacheCache).kind
  unmade : ∀ c, h.cacheNum < c → ∀ list, h.head c list = none
  made : (held cacheCache).card + 1 = h.cacheNum
  idle : ∀ c, 2 ≤ c → held c = ∅
  refCnt : ∀ c, (h.caches c).refCnt = BitVec.ofNat 32 (held c).card

theorem refCnt_insert {n : Uint} {ids : Finset ℕ} {id : ℕ} (hfresh : id ∉ ids)
    (hn : n = BitVec.ofNat 32 ids.card) :
    n + 1 = BitVec.ofNat 32 (insert id ids).card := by
  rw [Finset.card_insert_of_notMem hfresh, hn, BitVec.ofNat_add]
  rfl

/-- Every call counts up the counter of its cache. -/
theorem Flat.refCnt_afterAlloc (hflat : Flat h) (held : ℕ → Finset ℕ)
    {r : Option Uint} {id : ℕ} (hfresh : id ∉ held c)
    (hrefCnt : ∀ d, (h.caches d).refCnt = BitVec.ofNat 32 (held d).card)
    (hrun : initKmemCacheAlloc P h c = .ok (r, h')) (d : ℕ) :
    (h'.caches d).refCnt = BitVec.ofNat 32
      (Function.update held c (insert id (held c)) d).card := by
  rw [hflat.alloc_refCnt hrun]
  by_cases hd : d = c
  · subst hd
    rw [if_pos rfl, Function.update_self]
    exact refCnt_insert hfresh (hrefCnt d)
  · rw [if_neg hd, Function.update_of_ne hd]
    exact hrefCnt d

theorem withCache_refCnt (hnew : (h.caches (h.cacheNum + 1)).refCnt = 0)
    (name : String) (size : Uint) (pgNum : ℕ) (d : ℕ) :
    ((withCache h (createBootCache name size pgNum)).caches d).refCnt =
      (h.caches d).refCnt := by
  change (Function.update h.caches (h.cacheNum + 1) _ d).refCnt = _
  by_cases hd : d = h.cacheNum + 1
  · rw [hd, Function.update_self, hnew]
    rfl
  · rw [Function.update_of_ne hd]

theorem Booting.afterStep (hboot : Booting h held) {r : Option Uint}
    {info : String}
    (hrun : initKmemCacheAlloc P h cacheCache = .ok (r, h')) :
    ∃ held', Booting (withCache h' (createBootCache info
      (BitVec.ofNat 32 (calculateBytes info)) (calculatePages info))) held' := by
  obtain ⟨id, hfresh, _, hstock', _⟩ :=
    hboot.stock.afterAlloc (by decide) hboot.kind hrun
  obtain ⟨_, hnum, hkind⟩ := hboot.stock.flat.afterAlloc hrun
  have hpos := hboot.cacheNum
  have hone : cacheCache = 1 := rfl
  have hunmade : ∀ c, h.cacheNum < c → ∀ list, h'.head c list = none := by
    intro c hc list
    rw [hboot.stock.flat.alloc_head hrun (by omega)]
    exact hboot.unmade c hc list
  have hrefCnt := hboot.stock.flat.refCnt_afterAlloc held hfresh hboot.refCnt hrun
  have hidle : ∀ c, 2 ≤ c → Function.update held cacheCache
      (insert id (held cacheCache)) c = ∅ := by
    intro c hc
    rw [Function.update_of_ne (by omega)]
    exact hboot.idle c hc
  refine ⟨Function.update held cacheCache (insert id (held cacheCache)),
    hstock'.withCache (hunmade _ (by omega)) _ _ _, Nat.le_add_left 1 _, ?_, ?_,
    ?_, hidle, ?_⟩
  · rw [withCache_kind_of_ne rfl _ (by omega), hkind, hboot.kind]
  · intro c hc list
    change h'.cacheNum + 1 < c at hc
    change (h'.setCache (h'.cacheNum + 1) _).head c list = none
    rw [setCache_head, if_neg (by omega)]
    exact hunmade c (by omega) list
  · change _ = h'.cacheNum + 1
    rw [Function.update_self, Finset.card_insert_of_notMem hfresh, hboot.made,
      hnum]
  · intro c
    refine (withCache_refCnt ?_ _ _ _ c).trans (hrefCnt c)
    rw [hrefCnt, hidle _ (by omega)]
    rfl

/-- After `init_slab` the objects that are live are the caches. -/
theorem initSlab_stock {pages : σ} (hrun : initSlab P pages = .ok h) :
    ∃ held, Stock h held ∧ (held cacheCache).card = 14 ∧
      (∀ c, 2 ≤ c → held c = ∅) ∧
      ∀ c, (h.caches c).refCnt = BitVec.ofNat 32 (held c).card := by
  have hnum := (initSlab_cases hrun).2.cacheNum
  obtain ⟨r, h₁, halloc, hflat₁, ⟨hnum₁, _⟩, hrest⟩ := initSlab_steps hrun
  change h₁.cacheNum = 0 at hnum₁
  have hstart := Stock.boot pages
  obtain ⟨id, hfresh, _, hstock₁, _⟩ :=
    hstart.afterAlloc (by decide) (setCache_kind_self _ _ _) halloc
  have hrefCnt := hstart.flat.refCnt_afterAlloc (fun _ => ∅) hfresh
    (bootHeapCache_refCnt pages) halloc
  have hidle : ∀ c, 1 ≤ c → Function.update (fun _ : ℕ => (∅ : Finset ℕ))
      kmemCacheBoot (insert id ∅) c = ∅ := by
    intro c hc
    exact Function.update_of_ne (Nat.ne_of_gt hc) _ _
  have hhead : ∀ c, 0 < c → ∀ list, h₁.head c list = none := by
    intro c hc list
    rw [hstart.flat.alloc_head halloc (Nat.ne_of_gt hc)]
    exact bootHeapCache_head pages c list
  have hboot : ∃ held, Booting (withCache h₁ (createBootCache "cache_cache"
      sizeofKmemCache 1)) held := by
    refine ⟨_, hstock₁.withCache (hhead _ (by omega)) _ _ _, Nat.le_add_left 1 _,
      withCache_kind (by rw [hnum₁]; rfl) _, ?_, ?_, ?_, ?_⟩
    · intro c hc list
      change h₁.cacheNum + 1 < c at hc
      change (h₁.setCache (h₁.cacheNum + 1) _).head c list = none
      rw [setCache_head, if_neg (by omega)]
      exact hhead c (by omega) list
    · change _ = h₁.cacheNum + 1
      rw [hidle cacheCache le_rfl, hnum₁]
      rfl
    · exact fun c hc => hidle c (by omega)
    · intro c
      refine (withCache_refCnt ?_ _ _ _ c).trans (hrefCnt c)
      rw [hrefCnt, hidle _ (by omega)]
      rfl
  obtain ⟨held, hbooted⟩ := createKmallocCaches_invariant
    (fun h => ∃ held, Booting h held)
    (fun h r h' info ⟨held, hbooting⟩ halloc => hbooting.afterStep halloc)
    hrest hboot
  have hmade := hbooted.made
  exact ⟨held, hbooted.stock, by omega, hbooted.idle, hbooted.refCnt⟩

end Slab
end OS32
