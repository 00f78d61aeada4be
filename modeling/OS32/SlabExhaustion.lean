import OS32.SlabLists
import OS32.SlabRuns

/-!
# Allocating from one cache again and again

A slab without objects left is put behind the last slab of `full_slabs`.  The
search for this last slab follows a null pointer if `full_slabs` is empty, as it
is for a new cache.
-/

namespace OS32

open NullList NullList.Links

namespace Slab

variable {σ : Type} {P : PageOps σ} {h h' : Heap σ} {c : ℕ} {a x : Uint}
  {full : List Uint} {cache : KmemCache} {n : ℕ}

/-! ## States of a cache -/

/-- The objects that the slab has left, in the order of the free list. -/
def objectsLeft (slab : SlabT) (objSize : Uint) : List Uint :=
  (available slab).map (objAddr slab objSize)

/-- The cache keeps the kind of `cache`, and no slab of it has objects left. -/
structure Emptied (cache : KmemCache) (h : Heap σ) (c : ℕ) (full : List Uint) :
    Prop where
  kind : (h.caches c).kind = cache.kind
  linked : WellLinked h c [] [] full
  top : 0 < h.heapTop.toNat
  below : ∀ y ∈ full, y.toNat < h.heapTop.toNat

/-- The slab `x` is the only one on `partial_slabs`. -/
structure Serving (cache : KmemCache) (h : Heap σ) (c : ℕ) (full : List Uint)
    (x : Uint) : Prop where
  kind : (h.caches c).kind = cache.kind
  linked : WellLinked h c [] [x] full
  active : (h.slabs x).active.toNat ≤ (h.slabs x).objNum.toNat
  nonzero : 0 ∉ objectsLeft (h.slabs x) cache.size
  below : ∀ y ∈ x :: full, y.toNat < h.heapTop.toNat

/-- The object `id` of a new slab at `origin`. -/
def slabObject (cache : KmemCache) (origin : Uint) (id : ℕ) : Uint :=
  origin + sizeofSlab + 2 * cache.objPerSlab + cache.size * BitVec.ofNat 32 id

/-- The objects of a new slab, in the order of its free list.  The entries have
16 bits. -/
def slabObjects (cache : KmemCache) (origin : Uint) : List Uint :=
  (List.range cache.objPerSlab.toNat).map fun i =>
    slabObject cache origin (i % 65536)

/-! ## Members that matter -/

theorem WellLinked.congr {free part : List Uint}
    (hlinked : WellLinked h c free part full) (hlinks : h'.links = h.links)
    (hhead : ∀ list, h'.head c list = h.head c list) :
    WellLinked h' c free part full := by
  obtain ⟨hfree, hpart, hfull, hnodup⟩ := hlinked
  constructor
  · rw [hlinks, hhead]
    exact hfree
  · rw [hlinks, hhead]
    exact hpart
  · rw [hlinks, hhead]
    exact hfull
  · exact hnodup

theorem Serving.counted (hs : Serving cache h c full x) :
    Serving cache (counted h c) c full x := by
  obtain ⟨hkind, hlinked, hactive, hnonzero, hbelow⟩ := hs
  refine ⟨?_, hlinked.congr rfl (fun _ => counted_head _ _ _ _), hactive,
    hnonzero, hbelow⟩
  rw [← hkind]
  exact (setRefCnt_kinds h c _).2 c

theorem Emptied.counted (hs : Emptied cache h c full) :
    Emptied cache (counted h c) c full := by
  obtain ⟨hkind, hlinked, htop, hbelow⟩ := hs
  refine ⟨?_, hlinked.congr rfl (fun _ => counted_head _ _ _ _), htop, hbelow⟩
  rw [← hkind]
  exact (setRefCnt_kinds h c _).2 c

theorem Serving.head (hs : Serving cache h c full x) :
    h.head c .partialSlabs = some x := hs.linked.partialSlabs.1

theorem kind_size (hkind : (h.caches c).kind = cache.kind) :
    (h.caches c).size = cache.size :=
  congrArg Prod.fst hkind

theorem kind_objPerSlab (hkind : (h.caches c).kind = cache.kind) :
    (h.caches c).objPerSlab = cache.objPerSlab :=
  congrArg (fun kind => kind.2.1) hkind

theorem kind_order (hkind : (h.caches c).kind = cache.kind) :
    (h.caches c).order = cache.order :=
  congrArg (fun kind => kind.2.2.2) hkind

theorem objectsLeft_newSlab (old : SlabT) (origin pgNumber : Uint)
    (pgList : PagePtr) :
    objectsLeft (newSlab old origin pgNumber cache.objPerSlab pgList) cache.size =
      slabObjects cache origin := by
  unfold objectsLeft slabObjects
  rw [available_newSlab, List.map_map]
  rfl

/-! ## One call -/

/-- `GetObj` takes the first of the objects that are left. -/
theorem getObj_of_left {slab : SlabT} {objSize : Uint} {rest : List Uint}
    (hactive : slab.active.toNat ≤ slab.objNum.toNat) (hne : a ≠ 0)
    (hleft : objectsLeft slab objSize = a :: rest) :
    ∃ slab', getObj slab objSize = (some a, slab') ∧
      slab'.active.toNat ≤ slab'.objNum.toNat ∧
      objectsLeft slab' objSize = rest := by
  have hbound := slab.objNum.isLt
  have hlt : slab.active.toNat < slab.objNum.toNat := by
    by_contra hge
    have hnone : slab.objNum.toNat - slab.active.toNat = 0 := by omega
    unfold objectsLeft available at hleft
    rw [hnone] at hleft
    cases hleft
  have hroom : slab.active ≠ slab.objNum := by
    rw [Ne, ← BitVec.toNat_inj]
    omega
  unfold objectsLeft at hleft
  rw [available_cons hlt, List.map_cons, ← nextObj_eq] at hleft
  obtain ⟨rfl, rfl⟩ := List.cons.inj hleft
  refine ⟨{ slab with
    active := slab.active + 1
    refNum := slab.refNum + 1 }, ?_, ?_, rfl⟩
  · rw [getObj_of_room _ hroom]
    exact congrArg (·, _) (if_neg hne)
  · change (slab.active + 1).toNat ≤ slab.objNum.toNat
    rw [BitVec.toNat_add]
    change (_ + 1) % 2 ^ 32 ≤ _
    omega

theorem active_of_none_left {slab : SlabT} {objSize : Uint}
    (hactive : slab.active.toNat ≤ slab.objNum.toNat)
    (hleft : objectsLeft slab objSize = []) : slab.active = slab.objNum := by
  rw [← BitVec.toNat_inj]
  by_contra hne
  unfold objectsLeft at hleft
  rw [available_cons (by omega)] at hleft
  cases hleft

/-- With an object left, the slab hands it out. -/
theorem Serving.room (hs : Serving cache h c full x) {rest : List Uint}
    (hleft : objectsLeft (h.slabs x) cache.size = a :: rest) :
    ∃ slab, handOut P h c = .ok (some a, h.setSlab x slab) ∧
      getPartialObj h c = .ok (some a, h.setSlab x slab) ∧
      Serving cache (h.setSlab x slab) c full x ∧
      objectsLeft ((h.setSlab x slab).slabs x) cache.size = rest := by
  have hnonzero := hs.nonzero
  rw [hleft, List.mem_cons, not_or] at hnonzero
  obtain ⟨slab, hget, hactive, hrest⟩ :=
    getObj_of_left hs.active (Ne.symm hnonzero.1) hleft
  have hslab : (h.setSlab x slab).slabs x = slab := setSlab_slabs_self _ _ _
  rw [← kind_size hs.kind] at hget
  refine ⟨slab, handOut_of_room hs.head hget, getPartialObj_eq hs.head hget,
    ⟨hs.kind, hs.linked.congr rfl (fun _ => rfl), ?_, ?_, hs.below⟩, ?_⟩
  · rw [hslab]
    exact hactive
  · rw [hslab, hrest]
    exact hnonzero.2
  · rw [hslab]
    exact hrest

/-- A slab is built. -/
theorem Emptied.refill (hs : Emptied cache h c full)
    (hpos : 1 ≤ pow2 cache.order)
    (hwrap : h.heapTop.toNat + 4096 * pow2 cache.order < 2 ^ 32)
    (hnonzero : 0 ∉ slabObjects cache h.heapTop)
    (hrun : refill P h c = .ok h') :
    Serving cache h' c full h.heapTop ∧ SameKinds h h' ∧
      objectsLeft (h'.slabs h.heapTop) cache.size =
        slabObjects cache h.heapTop ∧
      h'.heapTop.toNat = h.heapTop.toNat + 4096 * pow2 cache.order := by
  have hfree : h.head c .freeSlabs = none := hs.linked.freeSlabs
  have hhead := refill_none_head hfree hrun c
  have hlinks := refill_none_links hfree hrun
  have hkinds := refill_none_kinds hfree hrun
  obtain ⟨pgList, hslabs⟩ := refill_none_slabs hfree hrun
  obtain ⟨hptr, _⟩ := refill_of_none hfree hrun
  have htop : h'.heapTop.toNat = h.heapTop.toNat + 4096 * pow2 cache.order := by
    rw [refill_none_heapTop hfree hrun, kind_order hs.kind, BitVec.toNat_add,
      BitVec.toNat_mul, BitVec.toNat_ofNat]
    change (_ + _ % 4294967296 * 4096 % 4294967296) % 4294967296 = _
    omega
  have hslab : h'.slabs h.heapTop = { newSlab (h.slabs h.heapTop) h.heapTop
      (BitVec.ofNat 32 (pow2 (h.caches c).order)) cache.objPerSlab pgList with
        refNum := 1 } := by
    rw [hslabs, Function.update_self, kind_objPerSlab hs.kind]
  have hleft : objectsLeft (h'.slabs h.heapTop) cache.size =
      slabObjects cache h.heapTop := by
    rw [hslab]
    exact objectsLeft_newSlab (h.slabs h.heapTop) h.heapTop
      (BitVec.ofNat 32 (pow2 (h.caches c).order)) pgList
  have hfresh : h.heapTop ∉ full := fun hmem => lt_irrefl _ (hs.below _ hmem)
  have hapart : ∀ y ∈ full, some y ≠ toPtr h.heapTop := by
    rw [hptr]
    rintro y hy heq
    exact hfresh (Option.some.inj heq ▸ hy)
  refine ⟨⟨(hkinds.2 c).trans hs.kind, ⟨?_, ?_, ?_, ?_⟩, ?_, hleft ▸ hnonzero,
    ?_⟩, hkinds, hleft, htop⟩
  · rw [hhead, if_neg (by simp)]
    exact hfree
  · rw [hhead, if_pos ⟨rfl, rfl⟩, hlinks, hptr]
    exact ⟨rfl, setPrev_prev_self _ _ _, setNext_next_self _ _ _⟩
  · rw [hhead, if_neg (by simp), hlinks]
    exact (hs.linked.fullSlabs.setPrev none hapart).setNext none hapart
  · have hnodup := hs.linked.nodup
    rw [List.append_nil, List.nil_append] at hnodup
    exact List.nodup_cons.mpr ⟨hfresh, hnodup⟩
  · rw [hslab]
    exact Nat.zero_le _
  · intro y hy
    rcases List.mem_cons.mp hy with rfl | hy
    · omega
    · have hbelow := hs.below y hy
      omega

/-- A full slab comes behind the last one of `full_slabs`. -/
theorem Serving.exhausted (hs : Serving cache h c full x)
    (hleft : objectsLeft (h.slabs x) cache.size = []) (hne : full ≠ []) :
    ∃ h₁, Emptied cache h₁ c (full ++ [x]) ∧ SameKinds h h₁ ∧
      h₁.heapTop = h.heapTop ∧ h₁.pages = h.pages ∧
      handOut P h c = refill P h₁ c >>= fun h => getPartialObj h c := by
  obtain ⟨hfree, hpart, hfull, hnodup⟩ := hs.linked
  obtain ⟨_, hprev, hend⟩ := chain_cons.mp hpart
  have hnext := chain_nil.mp hend
  rw [List.nil_append] at hnodup
  have hapart := (List.nodup_cons.mp hnodup).1
  have hlast := lastSlab_of_chain hfull hne
  have hkinds := setHead_kinds (h.setLinks (h.links.join (lastPtr none full)
    (some x))) c .partialSlabs none
  refine ⟨(h.setLinks (h.links.join (lastPtr none full) (some x))).setHead c
    .partialSlabs none, ⟨(hkinds.2 c).trans hs.kind, ⟨?_, ?_, ?_, ?_⟩, ?_, ?_⟩,
    hkinds, rfl, rfl, ?_⟩
  · rw [Heap.setHead_head, if_neg (by simp)]
    exact hfree
  · rw [Heap.setHead_head_self]
    rfl
  · obtain ⟨l, y, rfl⟩ : ∃ l y, full = l ++ [y] :=
      ⟨_, _, (List.dropLast_append_getLast hne).symm⟩
    rw [Heap.setHead_head, if_neg (by simp)]
    change (h.links.join (lastPtr none (l ++ [y])) (some x)).Chain none _ _
    rw [lastPtr_concat]
    refine Chain.join hfull ⟨rfl, hprev, hend⟩ ?_
    intro z hz hmem
    rw [List.mem_singleton.mp hmem] at hz
    exact hapart hz
  · rw [List.append_nil, List.nil_append, List.nodup_append]
    refine ⟨hfull.nodup, List.nodup_singleton x, ?_⟩
    intro y hy z hz heq
    rw [List.mem_singleton.mp hz] at heq
    exact hapart (heq ▸ hy)
  · exact (Nat.zero_le _).trans_lt (hs.below x List.mem_cons_self)
  · intro y hy
    refine hs.below y ?_
    rcases List.mem_append.mp hy with hy | hy
    · exact List.mem_cons_of_mem _ hy
    · rw [List.mem_singleton.mp hy]
      exact List.mem_cons_self
  · rw [handOut_of_full hs.head (active_of_none_left hs.active hleft),
      moveFull_of_last hs.head hlast hnext]

/-- With `full_slabs` empty there is no last slab to be found. -/
theorem Serving.faults (hs : Serving cache h c [] x)
    (hleft : objectsLeft (h.slabs x) cache.size = []) :
    handOut P h c = .error .nullSlab := by
  rw [handOut_of_full hs.head (active_of_none_left hs.active hleft),
    moveFull_of_none hs.head]
  · rfl
  · exact hs.linked.fullSlabs

/-! ## The page layer -/

/-- The page layer in the state `s` maps `n` slabs of `pgNumber` pages, from
`top` on. -/
def Supplies (P : PageOps σ) (pgNumber : ℕ) : ℕ → σ → Uint → Prop
  | 0, _, _ => True
  | n + 1, s, top => ∃ (origin : Uint) (h : Heap σ),
      applySlab P { bootHeap s with heapTop := top } pgNumber 0 =
        .ok (origin, h) ∧ Supplies P pgNumber n h.pages h.heapTop

theorem mapPages_congr {n i : ℕ} {pgList pgList' : PagePtr} {h₁ h₂ : Heap σ}
    (hrun : mapPages P n i pgList h = .ok (pgList', h₁))
    (hpages : h₂.pages = h.pages) (htop : h₂.heapTop = h.heapTop) :
    mapPages P n i pgList h₂ = .ok (pgList', { h₂ with
      pages := h₁.pages
      heapTop := h₁.heapTop }) := by
  induction n generalizing i pgList h h₂ with
  | zero =>
      cases hrun
      unfold mapPages
      rw [← hpages, ← htop]
  | succ n ih =>
      obtain ⟨⟨pg, pages⟩, hmap, hrest⟩ := bind_ok_iff.mp hrun
      unfold mapPages
      dsimp only
      rw [hpages, htop, hmap]
      exact ih hrest rfl rfl

/-- What `apply_slab` asks of the page layer does not depend on the slabs. -/
theorem applySlab_congr {pgNumber : ℕ} {objPerSlab origin : Uint}
    (objPerSlab' : Uint) {h₁ h₂ : Heap σ}
    (hrun : applySlab P h pgNumber objPerSlab = .ok (origin, h₁))
    (hpages : h₂.pages = h.pages) (htop : h₂.heapTop = h.heapTop) :
    ∃ h₃, applySlab P h₂ pgNumber objPerSlab' = .ok (origin, h₃) ∧
      h₃.pages = h₁.pages ∧ h₃.heapTop = h₁.heapTop := by
  obtain ⟨⟨pg, pages⟩, halloc, hrest⟩ := bind_ok_iff.mp hrun
  obtain ⟨⟨pg', g⟩, hmap, hret⟩ := bind_ok_iff.mp hrest
  cases hret
  have hmap' := mapPages_congr (h := { h with pages := pages }) hmap
    (rfl : ({ h₂ with pages := pages } : Heap σ).pages = pages) htop
  rw [← htop]
  unfold applySlab
  rw [hpages, halloc]
  dsimp only [bind, Except.bind]
  rw [hmap']
  exact ⟨_, rfl, rfl, rfl⟩

/-- The page layer supplies the next `n` slabs, and the address space has room
for them. -/
structure Supplied (P : PageOps σ) (cache : KmemCache) (n : ℕ) (h : Heap σ) :
    Prop where
  supplies : Supplies P (pow2 cache.order) n h.pages h.heapTop
  wrap : h.heapTop.toNat + 4096 * pow2 cache.order * n < 2 ^ 32

theorem Supplied.congr (hsupplied : Supplied P cache n h)
    (hpages : h'.pages = h.pages) (htop : h'.heapTop = h.heapTop) :
    Supplied P cache n h' := by
  obtain ⟨hsupplies, hwrap⟩ := hsupplied
  constructor
  · rw [hpages, htop]
    exact hsupplies
  · rw [htop]
    exact hwrap

theorem Emptied.supplied (hs : Emptied cache h c full)
    (hsupplied : Supplied P cache (n + 1) h) :
    ∃ h', Slab.refill P h c = .ok h' ∧ Supplied P cache n h' := by
  obtain ⟨⟨origin, g, happly, hrest⟩, hwrap⟩ := hsupplied
  have hptr : toPtr h.heapTop = some h.heapTop := by
    refine if_neg (fun hzero => ?_)
    have hpos := hs.top
    rw [hzero] at hpos
    exact lt_irrefl _ hpos
  obtain ⟨g', happly', hpages, htop⟩ := applySlab_congr (h.caches c).objPerSlab
    happly (rfl : h.pages = _) (rfl : h.heapTop = _)
  obtain ⟨rfl, _⟩ := applySlab_cases happly'
  have hrun : Slab.refill P h c =
      .ok (taken (g'.setHead c .freeSlabs (some h.heapTop)) c h.heapTop) := by
    have hfree : h.head c .freeSlabs = none := hs.linked.freeSlabs
    unfold Slab.refill
    rw [if_pos hfree, kind_order hs.kind, happly']
    dsimp only [bind, Except.bind]
    rw [hptr]
    exact takeFree_eq (Heap.setHead_head_self _ _ _ _)
  have htop' := refill_none_heapTop hs.linked.freeSlabs hrun
  refine ⟨_, hrun, ?_, ?_⟩
  · change Supplies P _ n g'.pages g'.heapTop
    rw [hpages, htop]
    exact hrest
  · rw [Nat.mul_succ] at hwrap
    rw [htop', kind_order hs.kind, BitVec.toNat_add, BitVec.toNat_mul,
      BitVec.toNat_ofNat]
    change (_ + _ % 4294967296 * 4096 % 4294967296) % 4294967296 + _ < _
    omega

end Slab
end OS32
