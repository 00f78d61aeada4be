import OS32.SlabRuns

/-!
# Addresses that `kfree` refuses

`FreeObj` only checks that the address lies in the objects of the slab, so
`kfree` takes addresses in the middle of an object and of objects that have been
freed before, if their slab is on a list.
-/

namespace OS32

open NullList NullList.Links Transition

namespace Slab

variable {σ : Type} {P : PageOps σ} {h h' : Heap σ} {c : ℕ} {a x : Uint}

/-- `kfree` panics and leaves the objects of every slab as they are. -/
structure Refused (P : PageOps σ) (h : Heap σ) (objAddr : Uint) : Prop where
  panics : kfree P h objAddr =
    .error (.panic "error,obj not in slab management\n")
  unchanged : ∃ h', kfreeFrom P objAddr h h.kmemCaches = .ok (false, h') ∧
    ∀ x, (h'.slabs x).active = (h.slabs x).active ∧
      (h'.slabs x).freeList = (h.slabs x).freeList ∧
      (h'.slabs x).entry = (h.slabs x).entry

/-- The slab is on the list of the cache. -/
def OnList (h : Heap σ) (c : ℕ) (list : SlabList) (x : Uint) : Prop :=
  ∃ n, h.links.advance n (h.head c list) = some x

/-- The address lies between the first and the last byte of the objects. -/
def InObjects (slab : SlabT) (objSize a : Uint) : Prop :=
  (a - slab.obj).toNat < slab.objNum.toNat * objSize.toNat

/-- The address lies in no slab that `kfree` looks at. -/
def Elsewhere (h : Heap σ) (a : Uint) : Prop :=
  ∀ c ∈ h.kmemCaches, ∀ list, list ≠ .freeSlabs → ∀ x, OnList h c list x →
    ¬ InObjects (h.slabs x) (h.caches c).size a

/-- Object ids fit into the entries of the free lists. -/
def SmallIds (h : Heap σ) : Prop := ∀ a, (h.slabs a).objNum.toNat ≤ 65536

theorem SmallIds.afterAlloc (hids : SmallIds h) (hflat : Flat h)
    (hcap : (h.caches c).objPerSlab.toNat ≤ 65536) {r : Option Uint}
    (hrun : initKmemCacheAlloc P h c = .ok (r, h')) : SmallIds h' := by
  obtain ⟨h₁, a, n, ret, slab, hsupply, hget, _, rfl⟩ := hflat.alloc_cases hrun
  have hids₁ : SmallIds h₁ := by
    cases hsupply with
    | cached => exact hids
    | built =>
        intro b
        change (Function.update h.slabs h.heapTop _ b).objNum.toNat ≤ _
        by_cases hb : b = h.heapTop
        · rw [hb, Function.update_self]
          exact (setRefCnt_kinds h c _).objPerSlab c ▸ hcap
        · rw [Function.update_of_ne hb]
          exact hids b
  intro b
  change (Function.update h₁.slabs a slab b).objNum.toNat ≤ _
  by_cases hb : b = a
  · rw [hb, Function.update_self, (getObj_block hget).objNum]
    exact hids₁ a
  · rw [Function.update_of_ne hb]
    exact hids₁ b

theorem Release.slabs (hrelease : Release P h c x h') : h'.slabs = h.slabs := by
  cases hrelease with
  | lost => rfl
  | kept => rfl
  | returned => rfl

theorem SmallIds.afterFree (hids : SmallIds h) {objAddr objSize : Uint}
    {slab : SlabT} (hobj : freeObj objAddr (h.slabs x) objSize = some slab) :
    SmallIds (dropped h c x slab) := by
  intro b
  change (Function.update h.slabs x slab b).objNum.toNat ≤ _
  by_cases hb : b = x
  · rw [hb, Function.update_self, (freeObj_block hobj).objNum]
    exact hids x
  · rw [Function.update_of_ne hb]
    exact hids b

theorem Booted.objPerSlab (hbooted : Booted h) (hc : c < 16) :
    (h.caches c).objPerSlab.toNat ≤ 65536 := by
  obtain ⟨_, hcap, _⟩ := size_of_kind (hbooted.kind c hc)
  obtain ⟨_, _, hids, _⟩ := bootCache_bounds c hc
  rwa [hcap]

theorem Booted.size_pos (hbooted : Booted h) (hc : c < 16) :
    0 < (h.caches c).size.toNat := by
  obtain ⟨hsize, _, _⟩ := size_of_kind (hbooted.kind c hc)
  obtain ⟨hpos, _, _, _⟩ := bootCache_bounds c hc
  rwa [hsize]

theorem Booted.lt_of_mem (hbooted : Booted h) (hc : c ∈ h.kmemCaches) :
    c < 16 := by
  unfold Heap.kmemCaches at hc
  rw [hbooted.cacheNum, List.mem_range'_1] at hc
  omega

/-- What holds between calls. -/
structure Reached (h : Heap σ) : Prop where
  flat : Flat h
  booted : Booted h
  ids : SmallIds h

theorem initSlab_reached {pages : σ} (hrun : initSlab P pages = .ok h) :
    Reached h := by
  obtain ⟨r, h₁, halloc, hflat₁, hkinds, hrest⟩ := initSlab_steps hrun
  obtain ⟨hflat, hbooted⟩ := initSlab_cases hrun
  have hboot := (Flat.boot pages).newCache kmemCacheBoot "kmem_cache"
    sizeofKmemCache 1
  have hids₁ : SmallIds h₁ :=
    SmallIds.afterAlloc (h := bootHeapCache pages) (c := kmemCacheBoot)
      (fun a => Nat.zero_le _) hboot
      (show (createBootCache "kmem_cache" sizeofKmemCache
        1).objPerSlab.toNat ≤ 65536 by decide) halloc
  have hloop := createKmallocCaches_invariant
    (fun h => Flat h ∧ SmallIds h ∧ 1 ≤ h.cacheNum ∧
      (h.caches cacheCache).kind = (bootCache cacheCache).kind)
    (fun h r h' info ⟨hflat, hids, hnum, hkind⟩ halloc => by
      obtain ⟨hflat', hnum', hkind'⟩ := hflat.afterAlloc halloc
      have hcap : (h.caches cacheCache).objPerSlab.toNat ≤ 65536 := by
        obtain ⟨_, hcapKind, _⟩ := size_of_kind hkind
        rw [hcapKind]
        exact (bootCache_bounds 1 (by decide)).2.2.1
      have hids' : SmallIds h' := hids.afterAlloc hflat hcap halloc
      refine ⟨hflat'.withCache _ _ _, hids', Nat.le_add_left 1 h'.cacheNum, ?_⟩
      rw [withCache_kind_of_ne rfl _ (by change 1 ≠ _; omega), hkind', hkind])
    hrest
  refine ⟨hflat, hbooted, (hloop ⟨hflat₁.withCache _ _ _, hids₁,
    Nat.le_add_left 1 h₁.cacheNum, withCache_kind ?_ _⟩).2.1⟩
  have hnum : h₁.cacheNum = 0 := hkinds.1
  rw [hnum]
  rfl

theorem Reached.afterStep (hreached : Reached h) {i : Call}
    (hstep : Step P h i h') : Reached h' := by
  obtain ⟨hflat', hkinds⟩ := hreached.flat.afterStep hstep
  refine ⟨hflat', hkinds.booted hreached.booted, ?_⟩
  obtain ⟨r, hcall⟩ := hstep
  cases i with
  | kmalloc size =>
      obtain ⟨c, hc, _, halloc⟩ := kmalloc_cases hcall
      have hlt := hreached.booted.lt_of_mem (List.mem_of_mem_tail hc)
      exact hreached.ids.afterAlloc hreached.flat
        (hreached.booted.objPerSlab hlt) halloc
  | kfree objAddr =>
      obtain ⟨h₁, hfree, hret⟩ := map_ok_iff.mp hcall
      cases hret
      obtain ⟨first, c, rest, x, slab, _, _, _, hobj, hrelease⟩ :=
        hreached.flat.kfree_cases hfree
      have hsame := searched_same h first
      have hids : SmallIds (searched h first) := by
        intro b
        rw [hsame.slabs]
        exact hreached.ids b
      rw [← hsame.slabs] at hobj
      intro b
      rw [hrelease.slabs]
      exact hids.afterFree hobj b

theorem Reachable.reached (hreachable : Reachable P h) : Reached h := by
  obtain ⟨pages, h₀, calls, hboot, hrun⟩ := hreachable
  exact hrun.invariant Reached (fun _ _ _ hs hstep => hs.afterStep hstep)
    (initSlab_reached hboot)

/-! ## What is refused -/

theorem freeObj_none_iff {slab : SlabT} {objSize objAddr : Uint}
    (hids : slab.objNum.toNat ≤ 65536) (hsize : 0 < objSize.toNat) :
    freeObj objAddr slab objSize = none ↔ ¬ InObjects slab objSize objAddr := by
  rw [← not_iff_not, not_not, ← Ne, Option.ne_none_iff_exists']
  rw [freeObj_eq_some_iff hids, BitVec.lt_def, BitVec.toNat_udiv,
    Nat.div_lt_iff_lt_mul hsize]
  rfl

/-- A list of a flat heap is its head. -/
theorem Flat.onList_iff (hflat : Flat h) (list : SlabList) :
    OnList h c list x ↔ h.head c list = some x := by
  constructor
  · rintro ⟨n, hn⟩
    cases n with
    | zero => exact hn
    | succ n =>
        have hnone : ∀ m, h.links.advance m none = none := by
          intro m
          induction m with
          | zero => rfl
          | succ m ih =>
              unfold Links.advance
              rw [hflat.links] at ih ⊢
              exact ih
        unfold Links.advance at hn
        rw [show h.links.next (h.head c list) = none by rw [hflat.links]; rfl,
          hnone] at hn
        cases hn
  · exact fun hx => ⟨0, hx⟩

theorem Reached.elsewhere_iff (hreached : Reached h) :
    Elsewhere h a ↔ ∀ c ∈ h.kmemCaches, Misses h a c := by
  have hone : ∀ c ∈ h.kmemCaches, ∀ x,
      (freeObj a (h.slabs x) (h.caches c).size = none ↔
        ¬ InObjects (h.slabs x) (h.caches c).size a) := by
    intro c hc x
    exact freeObj_none_iff (hreached.ids x)
      (hreached.booted.size_pos (hreached.booted.lt_of_mem hc))
  constructor
  · intro helse c hc x hx
    exact (hone c hc x).mpr (helse c hc .partialSlabs (by decide) x
      ((hreached.flat.onList_iff _).mpr hx))
  · intro hmiss c hc list hlist x hx
    rw [hreached.flat.onList_iff] at hx
    cases list with
    | freeSlabs => exact absurd rfl hlist
    | partialSlabs => exact (hone c hc x).mp (hmiss c hc x hx)
    | fullSlabs =>
        rw [hreached.flat.full c] at hx
        cases hx

/-- `kfree` refuses an address just when it lies in no object area of a slab
on a list. -/
theorem refused_iff (hreachable : Reachable P h) :
    Refused P h a ↔ Elsewhere h a := by
  have hreached := hreachable.reached
  rw [hreached.elsewhere_iff]
  constructor
  · intro hrefused
    obtain ⟨h', hrun, _⟩ := hrefused.unchanged
    by_contra hhit
    push Not at hhit
    obtain ⟨hfound, _⟩ := hreached.flat.kfreeFrom_cases hrun hhit
    cases hfound
  · intro hmiss
    have hrun := hreached.flat.kfreeFrom_miss (P := P) hmiss
    refine ⟨?_, _, hrun, fun x => ?_⟩
    · unfold kfree
      rw [hrun]
      rfl
    · rw [(searched_same h h.kmemCaches).slabs]
      exact ⟨rfl, rfl, rfl⟩

/-- No object is where the null pointer points to. -/
theorem refused_null :
    ∃ h, Reachable plainPages h ∧ Refused plainPages h 0 := by
  have hrun : (initSlab plainPages ()).map (fun h => h.kmemCaches.all fun c =>
      (h.head c .partialSlabs).all fun x =>
        (freeObj 0 (h.slabs x) (h.caches c).size).isNone) = .ok true := rfl
  obtain ⟨h, hboot, hall⟩ := map_ok_iff.mp hrun
  have hreachable : Reachable plainPages h := ⟨_, h, [], hboot, .nil⟩
  refine ⟨h, hreachable, (refused_iff hreachable).mpr ?_⟩
  rw [hreachable.reached.elsewhere_iff]
  intro c hc x hx
  have hone := List.all_eq_true.mp hall c hc
  rw [hx] at hone
  exact Option.isNone_iff_eq_none.mp hone

/-- After the first object of 32 bytes has been handed out, its second byte is
taken by `kfree`, and the object is handed out again. -/
theorem second_byte_freed :
    (do
      let h ← initSlab plainPages ()
      let (p, h) ← kmalloc plainPages h 10
      let h ← kfree plainPages h 0xE0002117
      let (q, _) ← kmalloc plainPages h 10
      return (p, q)) = .ok (some 0xE0002116, some 0xE0002116) := by
  rfl

/-- Addresses in the middle of a live object are not refused. -/
theorem not_refused_in_object :
    ¬ ∀ (h : Heap Unit) (calls : List Call) (s : Session Unit),
      initSlab plainPages () = .ok h →
      Run (SessionStep plainPages) ⟨h, ∅⟩ calls s →
      ∀ a, (∀ c, (c, a) ∉ s.live) → Refused plainPages s.heap a := by
  intro hall
  obtain ⟨h, hboot, hrest⟩ := bind_ok_iff.mp second_byte_freed
  obtain ⟨⟨p, h₁⟩, hfirst, hrest⟩ := bind_ok_iff.mp hrest
  obtain ⟨h₂, hfree, hrest⟩ := bind_ok_iff.mp hrest
  obtain ⟨⟨q, h₃⟩, hsecond, hret⟩ := bind_ok_iff.mp hrest
  obtain ⟨rfl, rfl⟩ := Prod.mk.inj (Except.ok.inj hret)
  obtain ⟨c, _, hclass, _⟩ := kmalloc_cases hfirst
  have hrun : Run (SessionStep plainPages) ⟨h, ∅⟩ ([] ++ [.kmalloc 10])
      ⟨h₁, {(c, 0xE0002116)}⟩ := .snoc .nil (.kmalloc hclass hfirst)
  have hrefused := hall h _ _ hboot hrun 0xE0002117 (fun d hmem => by
    have hsame : (0xE0002117 : Uint) = 0xE0002116 :=
      congrArg Prod.snd (Finset.mem_singleton.mp hmem)
    exact absurd hsame (by decide))
  cases hrefused.panics.symm.trans hfree

end Slab
end OS32
