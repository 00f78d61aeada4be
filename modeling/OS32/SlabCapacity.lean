import OS32.SlabPlan
import OS32.SlabContract

/-!
# How many objects a cache has

The calls of `kmalloc` for one cache succeed until the first slab has to be put
on an empty `full_slabs`.
-/

namespace OS32

open NullList NullList.Links

namespace Slab

variable {σ : Type} {P : PageOps σ} {h h' : Heap σ} {c : ℕ} {a x : Uint}
  {full : List Uint} {n : ℕ}

/-- The cache `c` has at most one slab on `free_slabs` and `partial_slabs`, the
slabs `full` on `full_slabs`, and its slabs lie below `heap_top`, with no object
at the address 0. -/
structure Ready (h : Heap σ) (c : ℕ) (full : List Uint) : Prop where
  roomy : Roomy (h.caches c)
  lists : ∃ free part, WellLinked h c free part full ∧
    (free ++ part).length ≤ 1
  top : 0 < h.heapTop.toNat
  below : ∀ x, slabOf h c = some x ∨ x ∈ full → x.toNat < h.heapTop.toNat
  active : ∀ x, slabOf h c = some x →
    (h.slabs x).active.toNat ≤ (h.slabs x).objNum.toNat
  ids : ∀ x, slabOf h c = some x → ∀ id ∈ available (h.slabs x),
    id < (h.slabs x).objNum.toNat
  obj : ∀ x, slabOf h c = some x → (h.slabs x).obj ≠ 0
  fence : ∀ x, slabOf h c = some x → (h.slabs x).obj.toNat +
    (h.caches c).size.toNat * (h.slabs x).objNum.toNat ≤ h.heapTop.toNat

/-- The entries of the free list that the next calls take before they need
another slab: those of the slab of the cache, or of a new one. -/
def ahead (h : Heap σ) (c : ℕ) : List ℕ :=
  match slabOf h c with
  | some x => available (h.slabs x)
  | none => (List.range (h.caches c).objPerSlab.toNat).map (· % 65536)

/-- All calls of `kmalloc` for `sizes` bytes return objects, which are distinct,
and every slab that has been replaced is on `full_slabs`. -/
def Serves (P : PageOps σ) (h : Heap σ) (c : ℕ) (sizes : List Uint) : Prop :=
  ∃ (addrs : List Uint) (h' : Heap σ),
    allocs P h sizes = .ok (addrs.map some, h') ∧ addrs.Nodup ∧
    KeepsSlabs P h c sizes h'

/-! ## The first plan -/

/-- The objects that are left in a slab are its own. -/
theorem mem_available_lt {slab : SlabT} {id : ℕ} (hid : id ∈ available slab) :
    id < 65536 := by
  obtain ⟨i, _, rfl⟩ := List.mem_map.mp hid
  exact (slab.entry (BitVec.ofNat 32 i)).isLt

theorem Ready.toNat_objAddr (hready : Ready h c full)
    (hx : slabOf h c = some x) {id : ℕ} (hid : id ∈ available (h.slabs x)) :
    (objAddr (h.slabs x) (h.caches c).size id).toNat =
      (h.slabs x).obj.toNat + (h.caches c).size.toNat * id ∧
    (objAddr (h.slabs x) (h.caches c).size id).toNat < h.heapTop.toNat := by
  have hfence := hready.fence x hx
  have hsize := hready.roomy.size
  have htop := h.heapTop.isLt
  have hshort := mem_available_lt hid
  have hmul : (h.caches c).size.toNat * (id + 1) ≤
      (h.caches c).size.toNat * (h.slabs x).objNum.toNat :=
    Nat.mul_le_mul_left _ (hready.ids x hx id hid)
  rw [Nat.mul_succ] at hmul
  have hoffset : ((h.caches c).size * BitVec.ofNat 32 id).toNat =
      (h.caches c).size.toNat * id := by
    rw [BitVec.toNat_mul, BitVec.toNat_ofNat, Nat.mod_eq_of_lt (a := id)
      (by omega), Nat.mod_eq_of_lt (by omega)]
  rw [objAddr, BitVec.toNat_add, hoffset, Nat.mod_eq_of_lt (by omega)]
  exact ⟨rfl, by omega⟩

theorem Ready.zero_notMem_left (hready : Ready h c full)
    (hx : slabOf h c = some x) :
    0 ∉ objectsLeft (h.slabs x) (h.caches c).size := by
  intro hzero
  obtain ⟨id, hid, haddr⟩ := List.mem_map.mp hzero
  have hsum := (hready.toNat_objAddr hx hid).1
  rw [haddr] at hsum
  refine hready.obj x hx (BitVec.eq_of_toNat_eq ?_)
  change 0 = _ at hsum
  change _ = 0
  omega

theorem Ready.objAddr_inj (hready : Ready h c full) (hx : slabOf h c = some x) :
    ∀ i ∈ available (h.slabs x), ∀ j ∈ available (h.slabs x),
      objAddr (h.slabs x) (h.caches c).size i =
        objAddr (h.slabs x) (h.caches c).size j → i = j := by
  intro i hi j hj hsame
  have heq := congrArg BitVec.toNat hsame
  rw [(hready.toNat_objAddr hx hi).1, (hready.toNat_objAddr hx hj).1] at heq
  exact Nat.eq_of_mul_eq_mul_left hready.roomy.size (by omega)

/-- A plan for the next calls, and when its first objects are distinct. -/
structure FirstPlan (P : PageOps σ) (h : Heap σ) (c : ℕ) (full : List Uint)
    (n : ℕ) (plan : List Uint) : Prop where
  stage : Stage P (h.caches c) h c full (ahead h c).length plan
  length : (h.caches c).objPerSlab.toNat * n ≤ plan.length
  ahead : (ahead h c).length ≤ plan.length
  nodup : ∀ k ≤ plan.length, ((plan.take k).Nodup ↔
    ((Slab.ahead h c).take k).Nodup ∧
      ((h.caches c).objPerSlab.toNat ≤ 65536 ∨
        k ≤ (Slab.ahead h c).length + 65536))

/-- A plan that starts with the slab of the cache. -/
theorem Ready.plan_of_slab (hready : Ready h c full) (hx : slabOf h c = some x)
    {g : Heap σ} (hslab : objectsLeft (g.slabs x) (h.caches c).size =
      objectsLeft (h.slabs x) (h.caches c).size)
    (htop : g.heapTop = h.heapTop) (hsupplied : Supplied P (h.caches c) n h)
    (hstage : Stage P (h.caches c) h c full
      (objectsLeft (g.slabs x) (h.caches c).size).length
      (objectsLeft (g.slabs x) (h.caches c).size ++
        built (h.caches c) n g.heapTop)) :
    ∃ plan, FirstPlan P h c full n plan := by
  have hahead : Slab.ahead h c = available (h.slabs x) := by
    unfold Slab.ahead
    rw [hx]
  have hlength : (objectsLeft (h.slabs x) (h.caches c).size).length =
      (available (h.slabs x)).length := List.length_map _
  rw [hslab, hlength, htop] at hstage
  refine ⟨_, ⟨by rw [hahead]; exact hstage, ?_, ?_, ?_⟩⟩
  · rw [List.length_append, built_length]
    omega
  · rw [hahead, List.length_append, hlength]
    omega
  · intro k hk
    rw [List.length_append, hlength, built_length] at hk
    rw [hahead]
    exact hready.roomy.plan_nodup_iff hsupplied.wrap (hready.objAddr_inj hx)
      (fun i hi => (hready.toNat_objAddr hx hi).2) hk

/-- A plan that starts with a new slab. -/
theorem Ready.plan_of_none (hready : Ready h c full) (hnone : slabOf h c = none)
    (hsupplied : Supplied P (h.caches c) (n + 1) h)
    (hstage : Stage P (h.caches c) h c full (h.caches c).objPerSlab.toNat
      (built (h.caches c) (n + 1) h.heapTop)) :
    ∃ plan, FirstPlan P h c full (n + 1) plan := by
  have hroomy := hready.roomy
  have hwrap := hsupplied.wrap
  rw [Nat.mul_succ] at hwrap
  have hnext := toNat_nextOrigin (h.caches c) h.heapTop
    (by omega)
  have hahead : Slab.ahead h c =
      (List.range (h.caches c).objPerSlab.toNat).map (· % 65536) := by
    unfold Slab.ahead
    rw [hnone]
  have hlength : (Slab.ahead h c).length = (h.caches c).objPerSlab.toNat := by
    rw [hahead, List.length_map, List.length_range]
  have hids : ∀ id ∈ Slab.ahead h c, id < (h.caches c).objPerSlab.toNat := by
    intro id hid
    rw [hahead] at hid
    obtain ⟨i, hi, rfl⟩ := List.mem_map.mp hid
    exact (Nat.mod_le _ _).trans_lt (List.mem_range.mp hi)
  have hobjects : slabObjects (h.caches c) h.heapTop =
      (Slab.ahead h c).map (slabObject (h.caches c) h.heapTop) := by
    rw [hahead, List.map_map]
    rfl
  refine ⟨built (h.caches c) (n + 1) h.heapTop, ?_, ?_, ?_, ?_⟩
  · rw [hlength]
    exact hstage
  · rw [built_length]
  · rw [hlength, built_length, Nat.mul_succ]
    omega
  · intro k hk
    rw [built_length, Nat.mul_succ] at hk
    rw [built_succ, hobjects]
    refine hroomy.plan_nodup_iff (by omega) ?_ ?_ (by omega)
    · intro i hi j hj hsame
      exact hroomy.slabObject_inj (by omega) (hids i hi) (hids j hj) hsame
    · intro i hi
      have hmem : slabObject (h.caches c) h.heapTop i ∈
          slabObjects (h.caches c) h.heapTop := by
        rw [hobjects]
        exact List.mem_map_of_mem hi
      have hbounds := hroomy.slabObjects_bounds (by omega) hmem
      omega

theorem Ready.plan (hready : Ready h c full)
    (hsupplied : Supplied P (h.caches c) (n + 1) h) :
    ∃ plan, FirstPlan P h c full (n + 1) plan := by
  obtain ⟨free, part, hlinked, hone⟩ := hready.lists
  rw [List.length_append] at hone
  have hshort : ∀ (y z : Uint) (l : List Uint), 1 < (y :: z :: l).length :=
    fun _ _ l => Nat.succ_lt_succ (Nat.succ_pos l.length)
  rcases part with _ | ⟨x, _ | ⟨y, part⟩⟩
  · have hpart : h.head c .partialSlabs = none := hlinked.partialSlabs
    rcases free with _ | ⟨x, _ | ⟨y, free⟩⟩
    · have hfree : h.head c .freeSlabs = none := hlinked.freeSlabs
      have hnone : slabOf h c = none := by
        unfold slabOf
        rw [hpart, hfree]
        rfl
      refine hready.plan_of_none hnone hsupplied ?_
      have hempty : Emptied (h.caches c) h c full :=
        ⟨rfl, hlinked, hready.top, fun y hy => hready.below y (.inr hy)⟩
      exact .build (g := counted h c) (initKmemCacheAlloc_of_none hpart)
        (setRefCnt_kinds h c _) hpart hlinked.fullSlabs hempty.counted
        (hsupplied.congr rfl rfl)
    · have hfree : h.head c .freeSlabs = some x := hlinked.freeSlabs.1
      have hx : slabOf h c = some x := by
        unfold slabOf
        rw [hpart, hfree]
        rfl
      have hslab : (movedFirst h c x).slabs x =
          { h.slabs x with refNum := (h.slabs x).refNum + 1 } :=
        taken_slabs_self _ _ _
      have hkinds : SameKinds h (movedFirst h c x) :=
        (setRefCnt_kinds h c _).trans (taken_kinds _ _ _)
      obtain ⟨hfree', hpart', hfull', hnodup'⟩ :=
        hlinked.movedFirst_of_last ((movedFirst h c x).slabs x)
      have hs : Serving (h.caches c) (movedFirst h c x) c full x := by
        refine ⟨hkinds.2 c, ⟨hfree', hpart', hfull', hnodup'⟩, ?_, ?_, ?_⟩
        · rw [hslab]
          exact hready.active x hx
        · rw [hslab]
          exact hready.zero_notMem_left hx
        · intro y hy
          refine hready.below y ?_
          rcases List.mem_cons.mp hy with rfl | hy
          · exact .inl hx
          · exact .inr hy
      refine hready.plan_of_slab (g := movedFirst h c x) hx ?_ rfl hsupplied ?_
      · rw [hslab]
        rfl
      · refine .serve (initKmemCacheAlloc_of_free hpart hfree) hkinds ?_
          hlinked.fullSlabs hs (hsupplied.congr rfl rfl)
        intro y hy
        rw [hpart] at hy
        cases hy
    · have hlong := hshort x y free
      omega
  · obtain rfl : free = [] := by
      rw [List.length_singleton] at hone
      exact List.length_eq_zero_iff.mp (by omega)
    have hx := slabOf_of_partlyFull hlinked.partialSlabs.1
    have hs : Serving (h.caches c) h c full x := by
      refine ⟨rfl, hlinked, hready.active x hx, hready.zero_notMem_left hx, ?_⟩
      intro y hy
      refine hready.below y ?_
      rcases List.mem_cons.mp hy with rfl | hy
      · exact .inl hx
      · exact .inr hy
    exact hready.plan_of_slab hx rfl rfl hsupplied (hs.stage hsupplied)
  · have hlong := hshort x y part
    omega

/-! ## The kernel's caches -/

theorem Holds.mem_available {slab : SlabT} {ids : Finset ℕ}
    (hholds : Holds slab ids) {id : ℕ} (hid : id ∈ available slab) :
    id < slab.objNum.toNat := by
  have hmem : id ∈ (available slab : Multiset ℕ) := hid
  rw [hholds.stack, Finset.mem_val, Finset.mem_sdiff] at hmem
  exact Finset.mem_range.mp hmem.1

/-- As long as no slab has been lost, the caches are ready. -/
theorem Stock.ready {held : ℕ → Finset ℕ} (hstock : Stock h held)
    (hbooted : Booted h) (hc : c < 16) : Ready h c [] := by
  obtain ⟨hsize, hcap, horder⟩ := size_of_kind (hbooted.kind c hc)
  obtain ⟨hpos, hsome, _, _⟩ := bootCache_bounds c hc
  have hroom := bootCache_room c hc
  have hflat := hstock.flat
  have hnext : ∀ p, h.links.next p = none := by
    intro p
    rw [hflat.links]
    rfl
  have hprev : ∀ p, h.links.prev p = none := by
    intro p
    rw [hflat.links]
    rfl
  have hchain : ∀ p : SlabPtr, h.links.Chain none p p.toList := by
    intro p
    cases p with
    | none => rfl
    | some x => exact ⟨rfl, hprev _, hnext _⟩
  have hfull : h.links.Chain none (h.head c .fullSlabs) [] := hflat.full c
  refine ⟨⟨?_, ?_, ?_⟩, ?_, ?_, ?_, ?_, ?_, ?_, ?_⟩
  · rw [hsize]
    exact hpos
  · rw [hcap]
    exact hsome
  · rw [hsize, hcap, horder]
    exact hroom
  · refine ⟨_, _, ⟨hchain _, hchain _, hfull, ?_⟩, ?_⟩
    · rcases hflat.one c with hpart | hfree
      · rw [hpart]
        cases h.head c .freeSlabs <;> simp
      · rw [hfree]
        cases h.head c .partialSlabs <;> simp
    · rcases hflat.one c with hpart | hfree
      · rw [hpart]
        cases h.head c .freeSlabs <;> simp
      · rw [hfree]
        cases h.head c .partialSlabs <;> simp
  · obtain ⟨stack, hfills, _⟩ := hstock.tiled
    have hle := hfills.base_le
    have hstart : HEAP_START.toNat = 0xE0000000 := rfl
    omega
  · rintro x (hx | hx)
    · have hinside := hstock.inside hx
      have hbytes := slabBytes_pos c
      omega
    · cases hx
  · exact fun x hx => (hstock.stocked c x hx).holds.active_le
  · exact fun x hx id hid => (hstock.stocked c x hx).holds.mem_available hid
  · intro x hx hzero
    have hadjoining := (hstock.stocked c x hx).adjoining
    have hobj := hadjoining.obj
    rw [hadjoining.freeList, hzero] at hobj
    change 0 = _ at hobj
    omega
  · intro x hx
    have hfence := (hstock.stocked c x hx).adjoining.fence
    have hinside := hstock.inside hx
    omega

/-! ## A page layer that always supplies pages -/

theorem mapPages_plainPages (n i : ℕ) (pgList : PagePtr) (h : Heap Unit) :
    ∃ r, mapPages plainPages n i pgList h = .ok r := by
  induction n generalizing i pgList h with
  | zero => exact ⟨_, rfl⟩
  | succ n ih => exact ih _ _ _

theorem plainPages_supplies (pgNumber n : ℕ) (s : Unit) (top : Uint) :
    Supplies plainPages pgNumber n s top := by
  induction n generalizing top with
  | zero => trivial
  | succ n ih =>
      obtain ⟨⟨pgList, h⟩, hmap⟩ := mapPages_plainPages pgNumber 0 (some 0)
        { bootHeap s with heapTop := top }
      have happly : ∃ origin h', applySlab plainPages
          { bootHeap s with heapTop := top } pgNumber 0 = .ok (origin, h') := by
        unfold applySlab
        change ∃ origin h', (mapPages plainPages pgNumber 0 (some 0)
          { bootHeap s with heapTop := top } >>= _) = .ok (origin, h')
        rw [hmap]
        exact ⟨_, _, rfl⟩
      obtain ⟨origin, h', happly⟩ := happly
      exact ⟨origin, h', happly, ih _⟩

/-! ## Calls in a row -/

/-- The calls of one cache return distinct objects and keep the replaced slabs
just when `full_slabs` is not empty or the objects ahead are enough, and no
free list has two equal entries among those taken. -/
theorem allocs_serve_iff {sizes : List Uint} (hready : Ready h c full)
    (hclass : ∀ size ∈ sizes, sizeClass h size = some c)
    (hsupplied : Supplied P (h.caches c) (n + 1) h)
    (henough : sizes.length ≤ (h.caches c).objPerSlab.toNat * (n + 1)) :
    Serves P h c sizes ↔
      (full ≠ [] ∨ sizes.length ≤ (ahead h c).length) ∧
        ((ahead h c).take sizes.length).Nodup ∧
        ((h.caches c).objPerSlab.toNat ≤ 65536 ∨
          sizes.length ≤ (ahead h c).length + 65536) := by
  obtain ⟨plan, hstage, hlength, hahead, hnodup⟩ := hready.plan hsupplied
  have hplan : sizes.length ≤ plan.length := henough.trans hlength
  rw [← hnodup sizes.length hplan]
  by_cases hgo : full ≠ [] ∨ sizes.length ≤ (ahead h c).length
  · obtain ⟨h', full', hrun, _, _, hkeeps⟩ :=
      hstage.afterCalls hready.roomy hclass hplan hgo
    constructor
    · rintro ⟨addrs, h'', hrun', haddrs, _⟩
      obtain ⟨hsame, _⟩ := Prod.mk.inj (Except.ok.inj (hrun'.symm.trans hrun))
      rw [← List.map_injective_iff.mpr (Option.some_injective Uint) hsame]
      exact ⟨hgo, haddrs⟩
    · rintro ⟨_, haddrs⟩
      exact ⟨_, h', hrun, haddrs, hkeeps⟩
  · constructor
    · rintro ⟨addrs, h', hrun, _⟩
      push Not at hgo
      obtain ⟨rfl, hmany⟩ := hgo
      rw [hstage.runs_out hready.roomy hclass hmany hahead] at hrun
      cases hrun
    · exact fun hboth => absurd hboth.1 hgo

/-- Two objects of 32 bytes come from one new slab. -/
theorem allocs_serve_two :
    ∃ h : Heap Unit, initSlab plainPages () = .ok h ∧
      Serves plainPages h 2 [10, 10] := by
  have hruns : (do
      let h ← initSlab plainPages ()
      return (sizeClass h 10, slabOf h 2, (h.caches 2).objPerSlab,
        (h.caches 2).order, h.heapTop)) =
      .ok (some 2, none, 119, 0, 0xE0002000) := rfl
  obtain ⟨h, hboot, hret⟩ := bind_ok_iff.mp hruns
  simp only [pure, Except.pure, Except.ok.injEq, Prod.mk.injEq] at hret
  obtain ⟨hclass, hnone, hcap, horder, htop⟩ := hret
  obtain ⟨held, hstock, _⟩ := initSlab_stock hboot
  have hready := hstock.ready (initSlab_cases hboot).2 (c := 2) (by decide)
  have hahead : ahead h 2 = (List.range 119).map (· % 65536) := by
    unfold ahead
    rw [hnone, hcap]
    rfl
  refine ⟨h, hboot, (allocs_serve_iff (n := 0) hready ?_ ⟨?_, ?_⟩ ?_).mpr
    ⟨.inr ?_, ?_, .inl ?_⟩⟩
  · intro size hsize
    rcases List.mem_cons.mp hsize with rfl | hsize
    · exact hclass
    · rw [List.mem_singleton.mp hsize]
      exact hclass
  · exact plainPages_supplies _ _ _ _
  · rw [horder, htop]
    decide
  · rw [hcap]
    decide
  · rw [hahead]
    decide
  · rw [hahead]
    decide
  · rw [hcap]
    decide

/-- A slab for 128KB objects has one of them.  The second call follows a null
pointer. -/
theorem second_large_object_faults :
    ¬ ∀ (h : Heap Unit) (c n : ℕ) (full : List Uint) (sizes : List Uint),
      Ready h c full → (∀ size ∈ sizes, sizeClass h size = some c) →
      Supplied plainPages (h.caches c) (n + 1) h →
      sizes.length ≤ (h.caches c).objPerSlab.toNat * (n + 1) →
      Serves plainPages h c sizes := by
  intro hall
  have hruns : (do
      let h ← initSlab plainPages ()
      return (sizeClass h 100000, (h.caches 15).objPerSlab, (h.caches 15).order,
        h.heapTop, (allocs plainPages h [100000, 100000]).map Prod.fst)) =
      .ok (some 15, 1, 6, 0xE0002000, .error .nullSlab) := rfl
  obtain ⟨h, hboot, hret⟩ := bind_ok_iff.mp hruns
  simp only [pure, Except.pure, Except.ok.injEq, Prod.mk.injEq] at hret
  obtain ⟨hclass, hcap, horder, htop, hfault⟩ := hret
  obtain ⟨held, hstock, _⟩ := initSlab_stock hboot
  have hready := hstock.ready (initSlab_cases hboot).2 (c := 15) (by decide)
  obtain ⟨addrs, h', hrun, _⟩ := hall h 15 1 [] [100000, 100000] hready (by
      intro size hsize
      rcases List.mem_cons.mp hsize with rfl | hsize
      · exact hclass
      · rw [List.mem_singleton.mp hsize]
        exact hclass)
    ⟨plainPages_supplies _ _ _ _, by rw [horder, htop]; decide⟩
    (by rw [hcap]; decide)
  rw [hrun] at hfault
  cases hfault

end Slab
end OS32
