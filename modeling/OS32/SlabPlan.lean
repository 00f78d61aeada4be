import OS32.SlabExhaustion
import OS32.SlabStock
import OS32.SlabRefusal

/-!
# The addresses that calls of `kmalloc` hand out

As long as a full slab finds a last one on `full_slabs`, the calls hand out the
objects left in the slab of the cache and then those of one new slab after the
other.
-/

namespace OS32

open NullList NullList.Links

namespace Slab

variable {σ : Type} {P : PageOps σ} {h h' : Heap σ} {c : ℕ} {a x origin : Uint}
  {full : List Uint} {cache : KmemCache} {n k : ℕ}

/-! ## The objects of new slabs -/

/-- The slabs of the cache have objects, which have room in their pages. -/
structure Roomy (cache : KmemCache) : Prop where
  size : 1 ≤ cache.size.toNat
  capacity : 1 ≤ cache.objPerSlab.toNat
  room : cache.objPerSlab.toNat * (cache.size.toNat + 2) + 40 ≤
    4096 * pow2 cache.order

/-- The address behind a new slab at `origin`. -/
def nextOrigin (cache : KmemCache) (origin : Uint) : Uint :=
  origin + BitVec.ofNat 32 (pow2 cache.order) * PGSIZE

/-- The objects of `n` new slabs, from `origin` on. -/
def built (cache : KmemCache) : ℕ → Uint → List Uint
  | 0, _ => []
  | n + 1, origin =>
      slabObjects cache origin ++ built cache n (nextOrigin cache origin)

theorem built_succ (cache : KmemCache) (n : ℕ) (origin : Uint) :
    built cache (n + 1) origin =
      slabObjects cache origin ++ built cache n (nextOrigin cache origin) := rfl

theorem toNat_nextOrigin (cache : KmemCache) (origin : Uint)
    (hwrap : origin.toNat + 4096 * pow2 cache.order < 2 ^ 32) :
    (nextOrigin cache origin).toNat =
      origin.toNat + 4096 * pow2 cache.order := by
  rw [nextOrigin, BitVec.toNat_add, BitVec.toNat_mul, BitVec.toNat_ofNat]
  change (_ + _ % 4294967296 * 4096 % 4294967296) % 4294967296 = _
  omega

theorem built_length (cache : KmemCache) (n : ℕ) (origin : Uint) :
    (built cache n origin).length = cache.objPerSlab.toNat * n := by
  induction n generalizing origin with
  | zero => rfl
  | succ n ih =>
      unfold built
      rw [List.length_append, ih, slabObjects, List.length_map,
        List.length_range, Nat.mul_succ, Nat.add_comm]

theorem Roomy.toNat_slabObject (hroomy : Roomy cache)
    (hwrap : origin.toNat + 4096 * pow2 cache.order < 2 ^ 32) {id : ℕ}
    (hid : id < cache.objPerSlab.toNat) :
    (slabObject cache origin id).toNat =
      origin.toNat + 40 + 2 * cache.objPerSlab.toNat + cache.size.toNat * id := by
  have hsize := hroomy.size
  have hroom := hroomy.room
  have hmul : cache.size.toNat * (id + 1) ≤
      cache.size.toNat * cache.objPerSlab.toNat := Nat.mul_le_mul_left _ hid
  have hpos : 1 * id ≤ cache.size.toNat * id := Nat.mul_le_mul_right _ hsize
  rw [Nat.mul_succ] at hmul
  rw [Nat.mul_add, Nat.mul_comm cache.objPerSlab.toNat cache.size.toNat] at hroom
  have hoffset : (cache.size * BitVec.ofNat 32 id).toNat =
      cache.size.toNat * id := by
    rw [BitVec.toNat_mul, BitVec.toNat_ofNat, Nat.mod_eq_of_lt (a := id)
      (by omega), Nat.mod_eq_of_lt (by omega)]
  have hdouble : (2 * cache.objPerSlab : Uint).toNat =
      2 * cache.objPerSlab.toNat := by
    rw [BitVec.toNat_mul]
    change 2 * _ % 4294967296 = _
    omega
  rw [slabObject, BitVec.toNat_add, hoffset, BitVec.toNat_add, hdouble,
    BitVec.toNat_add]
  change (((_ + 40) % 4294967296 + _) % 4294967296 + _) % 4294967296 = _
  omega

theorem Roomy.slabObjects_bounds (hroomy : Roomy cache)
    (hwrap : origin.toNat + 4096 * pow2 cache.order < 2 ^ 32)
    (ha : a ∈ slabObjects cache origin) :
    origin.toNat < a.toNat ∧
      a.toNat < origin.toNat + 4096 * pow2 cache.order := by
  obtain ⟨i, hi, rfl⟩ := List.mem_map.mp ha
  have hlt : i % 65536 < cache.objPerSlab.toNat :=
    (Nat.mod_le _ _).trans_lt (List.mem_range.mp hi)
  have hsize := hroomy.size
  have hroom := hroomy.room
  have hmul : cache.size.toNat * (i % 65536 + 1) ≤
      cache.size.toNat * cache.objPerSlab.toNat := Nat.mul_le_mul_left _ hlt
  rw [Nat.mul_succ] at hmul
  rw [Nat.mul_add, Nat.mul_comm cache.objPerSlab.toNat cache.size.toNat] at hroom
  rw [hroomy.toNat_slabObject hwrap hlt]
  omega

theorem Roomy.slabObject_inj (hroomy : Roomy cache)
    (hwrap : origin.toNat + 4096 * pow2 cache.order < 2 ^ 32) {id id' : ℕ}
    (hid : id < cache.objPerSlab.toNat) (hid' : id' < cache.objPerSlab.toNat)
    (hsame : slabObject cache origin id = slabObject cache origin id') :
    id = id' := by
  have heq := congrArg BitVec.toNat hsame
  rw [hroomy.toNat_slabObject hwrap hid, hroomy.toNat_slabObject hwrap hid'] at heq
  exact Nat.eq_of_mul_eq_mul_left hroomy.size (by omega)

theorem Roomy.slabObjects_take_nodup (hroomy : Roomy cache)
    (hwrap : origin.toNat + 4096 * pow2 cache.order < 2 ^ 32)
    (hids : cache.objPerSlab.toNat ≤ 65536 ∨ k ≤ 65536) :
    ((slabObjects cache origin).take k).Nodup := by
  unfold slabObjects
  rw [← List.map_take, List.take_range]
  refine List.Nodup.map_on ?_ List.nodup_range
  intro i hi j hj hsame
  have hi' := List.mem_range.mp hi
  have hj' := List.mem_range.mp hj
  have heq := hroomy.slabObject_inj hwrap
    ((Nat.mod_le i 65536).trans_lt (by omega))
    ((Nat.mod_le j 65536).trans_lt (by omega)) hsame
  omega

theorem Roomy.built_bound (hroomy : Roomy cache)
    (hwrap : origin.toNat + 4096 * pow2 cache.order * n < 2 ^ 32)
    (ha : a ∈ built cache n origin) : origin.toNat < a.toNat := by
  induction n generalizing origin with
  | zero => cases ha
  | succ n ih =>
      rw [Nat.mul_succ] at hwrap
      rcases List.mem_append.mp ha with ha | ha
      · exact (hroomy.slabObjects_bounds (by omega) ha).1
      · have hnext := toNat_nextOrigin cache origin
          (by omega)
        have hlt := ih (by omega) ha
        omega

/-- The new slabs hand out distinct objects as long as no free list has two
equal entries. -/
theorem Roomy.built_take_nodup (hroomy : Roomy cache)
    (hwrap : origin.toNat + 4096 * pow2 cache.order * n < 2 ^ 32)
    (hids : cache.objPerSlab.toNat ≤ 65536 ∨ k ≤ 65536) :
    ((built cache n origin).take k).Nodup := by
  induction n generalizing origin k with
  | zero =>
      unfold built
      rw [List.take_nil]
      exact List.nodup_nil
  | succ n ih =>
      rw [Nat.mul_succ] at hwrap
      unfold built
      rw [List.take_append, List.nodup_append]
      refine ⟨hroomy.slabObjects_take_nodup (by omega) hids, ?_, ?_⟩
      · have hnext := toNat_nextOrigin cache origin
          (by omega)
        refine ih (by omega) ?_
        exact hids.imp_right fun hk => (Nat.sub_le _ _).trans hk
      · rintro y hy z hz rfl
        have hnext := toNat_nextOrigin cache origin
          (by omega)
        have hlow := (hroomy.slabObjects_bounds (by omega)
          (List.mem_of_mem_take hy)).2
        have hhigh := hroomy.built_bound (by omega) (List.mem_of_mem_take hz)
        omega

theorem Roomy.built_take_nodup_iff (hroomy : Roomy cache)
    (hwrap : origin.toNat + 4096 * pow2 cache.order * n < 2 ^ 32)
    (hk : k ≤ cache.objPerSlab.toNat * n) :
    ((built cache n origin).take k).Nodup ↔
      cache.objPerSlab.toNat ≤ 65536 ∨ k ≤ 65536 := by
  refine ⟨?_, hroomy.built_take_nodup hwrap⟩
  intro hnodup
  by_contra hboth
  push Not at hboth
  obtain ⟨n, rfl⟩ : ∃ m, n = m + 1 := by
    refine Nat.exists_eq_succ_of_ne_zero ?_
    rintro rfl
    omega
  -- the entry 65536 of the first free list is 0 again
  have hlength : (slabObjects cache origin).length = cache.objPerSlab.toNat := by
    unfold slabObjects
    rw [List.length_map, List.length_range]
  have hentry : ∀ i < 65537, ((built cache (n + 1) origin).take k)[i]? =
      some (slabObject cache origin (i % 65536)) := by
    intro i hi
    unfold built
    rw [List.getElem?_take_of_lt (by omega), List.getElem?_append_left (by omega)]
    unfold slabObjects
    rw [List.getElem?_map, List.getElem?_range (by omega)]
    rfl
  have hzero := hentry 0 (by omega)
  have hagain := hentry 65536 (by omega)
  have hlt : 65536 < ((built cache (n + 1) origin).take k).length := by
    rw [List.length_take, built_length]
    omega
  have hsame := (List.getElem?_inj hlt hnodup).mp (hagain.trans hzero.symm)
  cases hsame

/-- The objects left in a slab below `origin`, and those of new slabs. -/
theorem Roomy.plan_nodup_iff (hroomy : Roomy cache)
    (hwrap : origin.toNat + 4096 * pow2 cache.order * n < 2 ^ 32)
    {ids : List ℕ} {addr : ℕ → Uint}
    (hinj : ∀ i ∈ ids, ∀ j ∈ ids, addr i = addr j → i = j)
    (hbelow : ∀ i ∈ ids, (addr i).toNat < origin.toNat)
    (hk : k ≤ ids.length + cache.objPerSlab.toNat * n) :
    ((ids.map addr ++ built cache n origin).take k).Nodup ↔
      (ids.take k).Nodup ∧
        (cache.objPerSlab.toNat ≤ 65536 ∨ k ≤ ids.length + 65536) := by
  rw [List.take_append, List.nodup_append, List.length_map,
    hroomy.built_take_nodup_iff hwrap (by omega), ← List.map_take]
  constructor
  · rintro ⟨hfirst, hbuilt, _⟩
    exact ⟨hfirst.of_map _, hbuilt.imp_right (fun hle => by omega)⟩
  · rintro ⟨hfirst, hbuilt⟩
    refine ⟨?_, hbuilt.imp_right (fun hle => by omega), ?_⟩
    · refine List.Nodup.map_on ?_ hfirst
      exact fun i hi j hj => hinj i (List.mem_of_mem_take hi) j
        (List.mem_of_mem_take hj)
    · rintro y hy z hz rfl
      obtain ⟨i, hi, rfl⟩ := List.mem_map.mp hy
      have hlow := hbelow i (List.mem_of_mem_take hi)
      have hhigh := hroomy.built_bound hwrap (List.mem_of_mem_take hz)
      omega

/-! ## One call -/

/-- The calls of the cache go on with the objects `plan`, of which the first `k`
need no slab behind another one on `full_slabs`. -/
inductive Stage (P : PageOps σ) (cache : KmemCache) (h : Heap σ) (c : ℕ)
    (full : List Uint) : ℕ → List Uint → Prop
  | serve {g : Heap σ} {x : Uint} {n : ℕ} :
      initKmemCacheAlloc P h c = handOut P g c → SameKinds h g →
      (∀ y, h.head c .partialSlabs = some y → y = x) →
      h.links.Chain none (h.head c .fullSlabs) full →
      Serving cache g c full x → Supplied P cache n g →
      Stage P cache h c full (objectsLeft (g.slabs x) cache.size).length
        (objectsLeft (g.slabs x) cache.size ++ built cache n g.heapTop)
  | build {g : Heap σ} {n : ℕ} :
      initKmemCacheAlloc P h c = refill P g c >>= (fun h => handOut P h c) →
      SameKinds h g → h.head c .partialSlabs = none →
      h.links.Chain none (h.head c .fullSlabs) full →
      Emptied cache g c full → Supplied P cache (n + 1) g →
      Stage P cache h c full cache.objPerSlab.toNat
        (built cache (n + 1) g.heapTop)

theorem Stage.listed {plan : List Uint} (hstage : Stage P cache h c full k plan) :
    h.links.Chain none (h.head c .fullSlabs) full := by
  cases hstage with
  | serve _ _ _ hlisted => exact hlisted
  | build _ _ _ hlisted => exact hlisted

/-- A slab on `partial_slabs` serves the next calls. -/
theorem Serving.stage (hs : Serving cache h c full x)
    (hsupplied : Supplied P cache n h) :
    Stage P cache h c full (objectsLeft (h.slabs x) cache.size).length
      (objectsLeft (h.slabs x) cache.size ++ built cache n h.heapTop) := by
  refine .serve (g := Slab.counted h c) (initKmemCacheAlloc_of_some hs.head)
    (setRefCnt_kinds h c _) ?_ hs.linked.fullSlabs hs.counted
    (hsupplied.congr rfl rfl)
  intro y hy
  exact Option.some.inj (hy.symm.trans hs.head)

/-- What a call of `kmalloc` for the cache does. -/
structure Served (P : PageOps σ) (cache : KmemCache) (h : Heap σ) (c : ℕ)
    (full : List Uint) (k : ℕ) (plan : List Uint) (h' : Heap σ)
    (full' : List Uint) (k' : ℕ) : Prop where
  stage : Stage P cache h' c full' k' plan
  kinds : SameKinds h h'
  keeps : full ⊆ full'
  moved : ∀ x, h.head c .partialSlabs = some x →
    h'.head c .partialSlabs = some x ∨ x ∈ full'
  left : full = [] → full' = [] ∧ k' + 1 = k

theorem Serving.served {g : Heap σ} {plan rest : List Uint}
    (hs : Serving cache g c full x) (hsupplied : Supplied P cache n g)
    (hleft : objectsLeft (g.slabs x) cache.size = a :: rest)
    (hplan : rest ++ built cache n g.heapTop = plan) :
    ∃ h', handOut P g c = .ok (some a, h') ∧
      getPartialObj g c = .ok (some a, h') ∧
      SameKinds g h' ∧ h'.head c .partialSlabs = some x ∧
      Stage P cache h' c full rest.length plan := by
  obtain ⟨slab, hget, hsecond, hs', hrest⟩ := hs.room (P := P) hleft
  subst hplan
  refine ⟨_, hget, hsecond, ⟨rfl, fun _ => rfl⟩, hs'.head, ?_⟩
  have hstage := hs'.stage (hsupplied.congr rfl rfl)
  rw [hrest] at hstage
  exact hstage

theorem Emptied.build {g : Heap σ} (hs : Emptied cache g c full)
    (hroomy : Roomy cache) (hsupplied : Supplied P cache (n + 1) g) :
    ∃ g' a rest, Slab.refill P g c = .ok g' ∧ SameKinds g g' ∧
      Serving cache g' c full g.heapTop ∧ Supplied P cache n g' ∧
      objectsLeft (g'.slabs g.heapTop) cache.size = a :: rest ∧
      built cache (n + 1) g.heapTop = a :: (rest ++ built cache n g'.heapTop) ∧
      rest.length + 1 = cache.objPerSlab.toNat := by
  have hcapacity := hroomy.capacity
  have hroom := hroomy.room
  have hwrap := hsupplied.wrap
  rw [Nat.mul_succ] at hwrap
  obtain ⟨g', hrefill, hsupplied'⟩ := hs.supplied hsupplied
  have hnonzero : 0 ∉ slabObjects cache g.heapTop := fun hzero =>
    Nat.not_lt_zero _ (hroomy.slabObjects_bounds (by omega) hzero).1
  obtain ⟨hserving, hkinds, hobjects, htop⟩ :=
    hs.refill (by omega) (by omega) hnonzero hrefill
  have hnext : nextOrigin cache g.heapTop = g'.heapTop := by
    rw [← BitVec.toNat_inj, htop, toNat_nextOrigin _ _ (by omega)]
  have hlength : (slabObjects cache g.heapTop).length =
      cache.objPerSlab.toNat := by
    unfold slabObjects
    rw [List.length_map, List.length_range]
  cases hlist : slabObjects cache g.heapTop with
  | nil =>
      rw [hlist, List.length_nil] at hlength
      omega
  | cons a rest =>
      rw [hlist] at hlength hobjects
      refine ⟨g', a, rest, hrefill, hkinds, hserving, hsupplied', hobjects, ?_,
        hlength⟩
      rw [built_succ, hlist, hnext]
      rfl

/-- A call hands out the next object of the plan. -/
theorem Stage.afterCall (hroomy : Roomy cache) {plan : List Uint}
    (hstage : Stage P cache h c full k (a :: plan)) (hgo : full ≠ [] ∨ 0 < k) :
    ∃ h' full' k', initKmemCacheAlloc P h c = .ok (some a, h') ∧
      Served P cache h c full k plan h' full' k' := by
  generalize hplan : a :: plan = whole at hstage
  cases hstage with
  | @serve g x n hcall hkinds hhead hlisted hs hsupplied =>
      rw [hcall]
      cases hleft : objectsLeft (g.slabs x) cache.size with
      | cons b rest =>
          rw [hleft] at hplan
          obtain ⟨rfl, hrest⟩ := List.cons.inj hplan
          obtain ⟨h', hget, _, hkinds', hhead', hstage⟩ :=
            hs.served (P := P) hsupplied hleft hrest.symm
          refine ⟨h', full, rest.length, hget, hstage, hkinds.trans hkinds',
            List.Subset.refl _, ?_, fun hnil => ⟨hnil, rfl⟩⟩
          intro y hy
          rw [hhead y hy]
          exact .inl hhead'
      | nil =>
          rw [hleft] at hplan hgo
          have hne : full ≠ [] := hgo.resolve_right (lt_irrefl 0)
          obtain ⟨h₁, hempty, hkinds₁, htop, hpages, hout⟩ :=
            hs.exhausted (P := P) hleft hne
          rw [hout]
          rw [List.nil_append, ← htop] at hplan
          cases n with
          | zero => cases hplan
          | succ n =>
              obtain ⟨g', b, rest, hrefill, hkinds₂, hserving, hsupplied', hobjects,
                hbuilt, _⟩ := hempty.build hroomy (hsupplied.congr hpages htop)
              obtain ⟨rfl, hrest⟩ := List.cons.inj (hplan.trans hbuilt)
              obtain ⟨h', _, hsecond, hkinds', hhead', hstage⟩ :=
                hserving.served (P := P) hsupplied' hobjects hrest.symm
              rw [hrefill]
              refine ⟨h', full ++ [x], rest.length, hsecond, hstage,
                ((hkinds.trans hkinds₁).trans hkinds₂).trans hkinds',
                List.subset_append_left _ _, ?_, fun hnil => absurd hnil hne⟩
              intro y hy
              rw [hhead y hy]
              exact .inr (List.mem_append_right _ List.mem_cons_self)
  | @build g n hcall hkinds hhead hlisted hs hsupplied =>
      rw [hcall]
      obtain ⟨g', b, rest, hrefill, hkinds₂, hserving, hsupplied', hobjects,
        hbuilt, hlength⟩ := hs.build hroomy hsupplied
      obtain ⟨rfl, hrest⟩ := List.cons.inj (hplan.trans hbuilt)
      obtain ⟨h', hget, _, hkinds', hhead', hstage⟩ :=
        hserving.served (P := P) hsupplied' hobjects hrest.symm
      rw [hrefill]
      refine ⟨h', full, rest.length, hget, hstage,
        (hkinds.trans hkinds₂).trans hkinds', List.Subset.refl _, ?_,
        fun hnil => ⟨hnil, hlength⟩⟩
      intro y hy
      rw [hhead] at hy
      cases hy

/-- The first slab to be exhausted follows a null pointer. -/
theorem Stage.faults (hroomy : Roomy cache) {plan : List Uint}
    (hstage : Stage P cache h c [] 0 plan) :
    initKmemCacheAlloc P h c = .error .nullSlab := by
  have hcapacity := hroomy.capacity
  generalize hk : 0 = k at hstage
  cases hstage with
  | serve hcall _ _ _ hs _ =>
      rw [hcall]
      exact hs.faults (List.length_eq_zero_iff.mp hk.symm)
  | build => omega

/-! ## Calls in a row -/

/-- Calls of `kmalloc` for `sizes` bytes, and what they return. -/
def allocs (P : PageOps σ) :
    Heap σ → List Uint → Except Fault (List (Option Uint) × Heap σ)
  | h, [] => .ok ([], h)
  | h, size :: sizes => do
      let (ret, h) ← kmalloc P h size
      let (rets, h) ← allocs P h sizes
      return (ret :: rets, h)

theorem SameKinds.sizeClass (hkinds : SameKinds h h') (size : Uint) :
    Slab.sizeClass h' size = Slab.sizeClass h size := by
  have hname : ∀ c, (h'.caches c).name = (h.caches c).name := fun c =>
    congrArg (fun kind => kind.2.2.1) (hkinds.2 c)
  unfold Slab.sizeClass Heap.kmemCaches
  rw [hkinds.1]
  simp only [hname]

theorem kmalloc_eq {size : Uint} (hclass : sizeClass h size = some c) :
    kmalloc P h size = initKmemCacheAlloc P h c := by
  unfold kmalloc
  rw [hclass]

theorem allocs_cons {size : Uint} {sizes : List Uint} {ret : Option Uint}
    (hrun : kmalloc P h size = .ok (ret, h')) :
    allocs P h (size :: sizes) =
      (allocs P h' sizes).map fun r => (ret :: r.1, r.2) := by
  rw [allocs, hrun]
  dsimp only [bind, Except.bind]
  cases allocs P h' sizes <;> rfl

/-- The slabs that have been on `partial_slabs` during the calls `sizes` are
there or on `full_slabs` in the end. -/
def KeepsSlabs (P : PageOps σ) (h : Heap σ) (c : ℕ) (sizes : List Uint)
    (h' : Heap σ) : Prop :=
  ∀ first rets h₁ x, first <+: sizes → allocs P h first = .ok (rets, h₁) →
    h₁.head c .partialSlabs = some x →
    h'.head c .partialSlabs = some x ∨ OnList h' c .fullSlabs x

theorem onList_of_mem {list : SlabList} {before : SlabPtr} {l : List Uint}
    (hchain : h.links.Chain before (h.head c list) l) (hx : x ∈ l) :
    OnList h c list x := by
  unfold OnList
  generalize h.head c list = p at hchain
  induction l generalizing before p with
  | nil => cases hx
  | cons y l ih =>
      obtain ⟨rfl, _, hrest⟩ := chain_cons.mp hchain
      rcases List.mem_cons.mp hx with rfl | hx
      · exact ⟨0, rfl⟩
      · obtain ⟨n, hn⟩ := ih hx _ hrest
        exact ⟨n + 1, hn⟩

/-- The calls hand out the objects of the plan, one after the other. -/
theorem Stage.afterCalls (hroomy : Roomy cache) {plan : List Uint}
    {sizes : List Uint} (hstage : Stage P cache h c full k plan)
    (hclass : ∀ size ∈ sizes, sizeClass h size = some c)
    (hplan : sizes.length ≤ plan.length)
    (hgo : full ≠ [] ∨ sizes.length ≤ k) :
    ∃ h' full', allocs P h sizes =
        .ok ((plan.take sizes.length).map some, h') ∧
      h'.links.Chain none (h'.head c .fullSlabs) full' ∧ full ⊆ full' ∧
      KeepsSlabs P h c sizes h' := by
  induction sizes generalizing h full k plan with
  | nil =>
      refine ⟨h, full, rfl, hstage.listed, List.Subset.refl _, ?_⟩
      intro first rets h₁ x hfirst hrun hx
      obtain rfl := List.prefix_nil.mp hfirst
      cases hrun
      exact .inl hx
  | cons size sizes ih =>
      cases plan with
      | nil => cases hplan
      | cons a plan =>
          rw [List.length_cons, List.length_cons] at hplan
          rw [List.length_cons] at hgo
          obtain ⟨h₁, full₁, k₁, hcall, hserved⟩ :=
            hstage.afterCall hroomy (hgo.imp_right fun hle => by omega)
          rw [← kmalloc_eq (hclass size List.mem_cons_self)] at hcall
          have hgo₁ : full₁ ≠ [] ∨ sizes.length ≤ k₁ := by
            by_cases hnil : full = []
            · obtain ⟨_, hk⟩ := hserved.left hnil
              have hle := hgo.resolve_left (fun hne => hne hnil)
              right
              omega
            · obtain ⟨y, hy⟩ := List.exists_mem_of_ne_nil _ hnil
              exact .inl (List.ne_nil_of_mem (hserved.keeps hy))
          obtain ⟨h', full', hruns, hlist, hsub, hkept⟩ := ih hserved.stage
            (fun size' hsize' => (hserved.kinds.sizeClass size').trans
              (hclass size' (List.mem_cons_of_mem _ hsize')))
            (by omega) hgo₁
          refine ⟨h', full', ?_, hlist, List.Subset.trans hserved.keeps hsub, ?_⟩
          · rw [allocs_cons hcall, hruns]
            rfl
          · intro first rets h₂ x hfirst hrun hx
            cases first with
            | nil =>
                cases hrun
                -- where the slab is after the first call
                rcases hserved.moved x hx with hstill | hfull
                · exact hkept [] [] h₁ x List.nil_prefix rfl hstill
                · exact .inr (onList_of_mem hlist (hsub hfull))
            | cons size' first =>
                obtain ⟨rfl, hfirst'⟩ := List.cons_prefix_cons.mp hfirst
                rw [allocs_cons hcall] at hrun
                cases hmore : allocs P h₁ first with
                | error fault =>
                    rw [hmore] at hrun
                    cases hrun
                | ok r =>
                    rw [hmore] at hrun
                    cases hrun
                    exact hkept first _ _ x hfirst' hmore hx

/-- With `full_slabs` empty the objects before the first new slab are the only
ones. -/
theorem Stage.runs_out (hroomy : Roomy cache) {plan : List Uint}
    {sizes : List Uint} (hstage : Stage P cache h c [] k plan)
    (hclass : ∀ size ∈ sizes, sizeClass h size = some c)
    (hmany : k < sizes.length) (hplan : k ≤ plan.length) :
    allocs P h sizes = .error .nullSlab := by
  induction k generalizing h plan sizes with
  | zero =>
      cases sizes with
      | nil => cases hmany
      | cons size sizes =>
          unfold allocs
          rw [kmalloc_eq (hclass size List.mem_cons_self), hstage.faults hroomy]
          rfl
  | succ k ih =>
      cases sizes with
      | nil => cases hmany
      | cons size sizes =>
          cases plan with
          | nil => cases hplan
          | cons a plan =>
              rw [List.length_cons] at hmany hplan
              obtain ⟨h₁, full₁, k₁, hcall, hserved⟩ :=
                hstage.afterCall hroomy (.inr (Nat.succ_pos k))
              obtain ⟨rfl, hk⟩ := hserved.left rfl
              obtain rfl : k₁ = k := by omega
              rw [← kmalloc_eq (hclass size List.mem_cons_self)] at hcall
              rw [allocs_cons hcall, ih hserved.stage (fun size' hsize' =>
                (hserved.kinds.sizeClass size').trans
                  (hclass size' (List.mem_cons_of_mem _ hsize')))
                (by omega) (by omega)]
              rfl

end Slab
end OS32
