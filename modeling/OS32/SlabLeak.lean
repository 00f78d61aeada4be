import OS32.SlabRefusal
import OS32.SlabStock
import OS32.SlabTally

/-!
# The pages of an emptied slab

`_check_free_buddy` calls `free_buddy` before it unmaps the pages of the slab.
The page in `pg_list` still has the reference that `map` has counted, so
`free_buddy` refuses, and the frames are lost when `heap_top` goes down.
-/

namespace OS32

open BuddyTable NullList Transition

namespace Slab

open Vm

variable {h h' : Heap Vm} {free : Table ℕ} {clock : List ℕ} {f : ℕ → ℕ}
  {spot : ℕ → ℕ × ℕ} {c d j m n : ℕ} {a x y : Uint}

/-! ## Slabs and their pages -/

/-- The members of a slab that say which pages are its own. -/
def SlabT.region (slab : SlabT) : PagePtr × Uint × Uint :=
  (slab.pgList, slab.slabSize, slab.freeList)

theorem getObj_region {slab slab' : SlabT} {objSize k : Uint}
    (hget : getObj { slab with refNum := k } objSize = (some a, slab')) :
    slab'.region = slab.region := by
  obtain ⟨_, _, _, rfl⟩ := getObj_some hget
  rfl

theorem freeObj_region {slab slab' : SlabT} {objSize : Uint}
    (hfree : freeObj a slab objSize = some slab') :
    slab'.region = slab.region := by
  obtain ⟨entry, rfl⟩ := freeObj_some hfree
  rfl

/-- The slab `x` has the `m` pages of the heap from page `j` on, and `pg_list`
is the frame of the last of them. -/
structure Standing (h : Heap Vm) (f : ℕ → ℕ) (x : Uint) (j m : ℕ) : Prop where
  origin : x = pageAt HEAP_START j
  pos : 0 < m
  region : (h.slabs x).region =
    (some (f (j + m - 1)), BitVec.ofNat 32 m, x + sizeofSlab)

/-- The `n` pages of the heap are mapped, and the slabs that are on a list have
pages of their own: the slab of the cache `c` has `spot c`. -/
structure Backed (h : Heap Vm) (free : Table ℕ) (clock : List ℕ) (f : ℕ → ℕ)
    (n : ℕ) (spot : ℕ → ℕ × ℕ) : Prop where
  tallied : Tallied h.pages free clock f (Finset.range n)
  room : n + (frames 17 free).card < 131072
  heapTop : h.heapTop = pageAt HEAP_START n
  standing : ∀ c x, slabOf h c = some x →
    Standing h f x (spot c).1 (spot c).2 ∧ (spot c).1 + (spot c).2 ≤ n
  apart : ∀ c d x y, slabOf h c = some x → slabOf h d = some y → c ≠ d →
    (spot c).1 + (spot c).2 ≤ (spot d).1 ∨
      (spot d).1 + (spot d).2 ≤ (spot c).1

theorem Standing.congr (hx : Standing h f x j m)
    (hregion : (h'.slabs x).region = (h.slabs x).region) :
    Standing h' f x j m :=
  ⟨hx.origin, hx.pos, hregion.trans hx.region⟩

/-- Slabs may leave the lists and change their objects. -/
theorem Backed.congr (hh : Backed h free clock f n spot)
    (hpages : h'.pages = h.pages) (htop : h'.heapTop = h.heapTop)
    (hslab : ∀ c x, slabOf h' c = some x → slabOf h c = some x)
    (hregion : ∀ x, (h'.slabs x).region = (h.slabs x).region) :
    Backed h' free clock f n spot := by
  refine ⟨?_, hh.room, htop.trans hh.heapTop, ?_, ?_⟩
  · rw [hpages]
    exact hh.tallied
  · intro c x hx
    obtain ⟨hstanding, hend⟩ := hh.standing c x (hslab c x hx)
    exact ⟨hstanding.congr (hregion x), hend⟩
  · intro c d x y hx hy hne
    exact hh.apart c d x y (hslab c x hx) (hslab d y hy) hne

theorem toNat_heapPage (hn : n < 131072) :
    (pageAt HEAP_START n).toNat = 0xE0000000 + 4096 * n := by
  rw [toNat_pageAt]
  change (3758096384 + 4096 * n) % 4294967296 = _
  omega

theorem setSlab_region (h : Heap Vm) {slab : SlabT}
    (hslab : slab.region = (h.slabs a).region) (x : Uint) :
    ((h.setSlab a slab).slabs x).region = (h.slabs x).region := by
  change (Function.update h.slabs a slab x).region = _
  by_cases hx : x = a
  · rw [hx, Function.update_self, hslab]
  · rw [Function.update_of_ne hx]

/-! ## `apply_slab` -/

theorem requestOrder_pages {k : ℕ} (hk : k ≤ 16) :
    Pmm.requestOrder (Pmm.requestPages (BitVec.ofNat 32 (2 ^ k) <<< 2)) = k := by
  have hpow : 2 ^ k ≤ 2 ^ 16 := Nat.pow_le_pow_right (by norm_num) hk
  have hnat : (BitVec.ofNat 32 (2 ^ k)).toNat = 2 ^ k := by
    rw [BitVec.toNat_ofNat, Nat.mod_eq_of_lt (by omega)]
  rw [BuddySession.requestPages_shift (by omega), hnat,
    order_eq_clog Nat.one_le_two_pow (by omega), Nat.clog_pow _ _ (by norm_num)]

/-- The slabs below `heap_top` stay where they are. -/
theorem Backed.standing_below (hh : Backed h free clock f n spot)
    (hx : slabOf h d = some x) {f' : ℕ → ℕ} (hsame : ∀ i < n, f' i = f i)
    (hslabs : ∀ y, y ≠ h.heapTop → h'.slabs y = h.slabs y) :
    Standing h' f' x (spot d).1 (spot d).2 := by
  obtain ⟨⟨horigin, hpos, hregion⟩, hend⟩ := hh.standing d x hx
  have hroom := hh.room
  have hne : x ≠ h.heapTop := by
    intro heq
    have hnat := congrArg BitVec.toNat heq
    rw [horigin, hh.heapTop, toNat_heapPage (by omega),
      toNat_heapPage (by omega)] at hnat
    omega
  refine ⟨horigin, hpos, ?_⟩
  rw [hslabs x hne, hsame _ (by omega), hregion]

/-- A slab from `heap_top` on has no page of another slab. -/
theorem Backed.apart_above (hh : Backed h free clock f n spot) {m : ℕ}
    (hslab : ∀ d, slabOf h' d = if d = c then some a else slabOf h d)
    (hy : slabOf h' d = some x) {e : ℕ} (hz : slabOf h' e = some y)
    (hde : d ≠ e) :
    let spot' := Function.update spot c (n, m)
    (spot' d).1 + (spot' d).2 ≤ (spot' e).1 ∨
      (spot' e).1 + (spot' e).2 ≤ (spot' d).1 := by
  intro spot'
  have hold : ∀ k, k ≠ c → spot' k = spot k :=
    fun k hk => Function.update_of_ne hk _ _
  have hnew : spot' c = (n, m) := Function.update_self ..
  rw [hslab] at hy hz
  by_cases hd : d = c
  · have he : e ≠ c := fun heq => hde (hd.trans heq.symm)
    rw [if_neg he] at hz
    rw [hd, hnew, hold e he]
    exact .inr (hh.standing e y hz).2
  · rw [if_neg hd] at hy
    rw [hold d hd]
    by_cases he : e = c
    · rw [he, hnew]
      exact .inl (hh.standing d x hy).2
    · rw [if_neg he] at hz
      rw [hold e he]
      exact hh.apart d e x y hy hz hde

/-- A slab of the pages from `heap_top` on. -/
theorem standing_grown (htop : h.heapTop = pageAt HEAP_START n) (hpos : 0 < m)
    (f' : ℕ → ℕ) (objPerSlab : Uint) (pages : Vm) (c : ℕ) :
    Standing (placed (grown h m objPerSlab (some (f' (n + m - 1))) pages) c
      h.heapTop) f' h.heapTop n m := by
  refine ⟨htop, hpos, ?_⟩
  change SlabT.region (Function.update h.slabs h.heapTop _ h.heapTop) = _
  rw [Function.update_self]
  rfl

/-- The slab that `apply_slab` builds is the top one. -/
theorem Backed.built (hh : Backed h free clock f n spot) {k : ℕ} (hk : k ≤ 16)
    {objPerSlab : Uint} {pgList : PagePtr} {pages : Vm}
    (happly : applySlab vmPages h (pow2 k) objPerSlab =
      .ok (h.heapTop, grown h (pow2 k) objPerSlab pgList pages))
    (htables : TablesDistinct pages) (c : ℕ) :
    ∃ free' f' n' spot', Backed (placed (grown h (pow2 k) objPerSlab pgList
      pages) c h.heapTop) free' clock f' n' spot' := by
  obtain ⟨⟨q, vm⟩, halloc, _⟩ := bind_ok_iff.mp happly
  have halloc' : h.pages.allocPages (BitVec.ofNat 32 (pow2 k)) = .ok (q, vm) :=
    halloc
  obtain ⟨pg, h₁, hloop, hpages, _, hpg⟩ := applySlab_parts halloc' happly
  obtain ⟨free₁, hq, hvm, hcard⟩ := hh.tallied.alloc halloc'
  rw [pow2_eq, requestOrder_pages hk, ← pow2_eq] at hcard
  have hroom := hh.room
  have hsamePages : pages = h₁.pages := hpages
  obtain ⟨free', f', hvm', hsame, hfewer, hlast⟩ := Tallied.mapPages
    (h := { h with pages := vm }) hvm hh.heapTop (by omega) hq hloop
    (hsamePages ▸ htables)
  have hpos : 0 < pow2 k := by
    rw [pow2_eq]
    positivity
  have hlist : pgList = some (f' (n + pow2 k - 1)) := by
    have hgrown : ((grown h (pow2 k) objPerSlab pgList pages).slabs
        h.heapTop).pgList = pgList :=
      congrArg SlabT.pgList (Function.update_self (β := fun _ => SlabT) _ _ _)
    exact (hgrown.symm.trans hpg).trans (hlast hpos)
  have hslab : ∀ d, slabOf (placed (grown h (pow2 k) objPerSlab pgList pages) c
      h.heapTop) d = if d = c then some h.heapTop else slabOf h d :=
    slabOf_placed _ c h.heapTop
  refine ⟨free', f', n + pow2 k, Function.update spot c (n, pow2 k), ?_, ?_, ?_,
    ?_, ?_⟩
  · change Tallied pages _ _ _ _
    rw [hsamePages]
    exact hvm'
  · omega
  · change pageAt h.heapTop (pow2 k) = _
    rw [hh.heapTop, pageAt_add]
  · intro d y hy
    rw [hslab] at hy
    by_cases hd : d = c
    · subst hd
      rw [if_pos rfl] at hy
      obtain rfl := Option.some.inj hy
      rw [Function.update_self, hlist]
      exact ⟨standing_grown hh.heapTop hpos f' objPerSlab pages d, le_rfl⟩
    · rw [if_neg hd] at hy
      have hend := (hh.standing d y hy).2
      rw [Function.update_of_ne hd]
      exact ⟨hh.standing_below hy hsame
        fun z hz => Function.update_of_ne hz _ _, by omega⟩
  · intro d e y z hy hz hde
    exact hh.apart_above hslab hy hz hde

/-! ## `init_kmem_cache_alloc` -/

theorem slabOf_setRefCnt (h : Heap Vm) (c : ℕ) (refCnt : Uint) (d : ℕ) :
    slabOf (h.setRefCnt c refCnt) d = slabOf h d := by
  unfold slabOf
  rw [Heap.setRefCnt_head, Heap.setRefCnt_head]

theorem Backed.counted (hh : Backed h free clock f n spot) (c : ℕ) :
    Backed (counted h c) free clock f n spot := by
  refine hh.congr rfl rfl ?_ fun _ => rfl
  intro d x hx
  rw [← hx]
  exact (slabOf_setRefCnt h c _ d).symm

theorem Backed.setSlab (hh : Backed h free clock f n spot) {slab : SlabT}
    (hslab : slab.region = (h.slabs a).region) :
    Backed (h.setSlab a slab) free clock f n spot :=
  hh.congr rfl rfl (fun _ _ hx => hx) (setSlab_region h hslab)

theorem initKmemCacheAlloc_keeps (hflat : Flat h) {r : Option Uint}
    (hrun : initKmemCacheAlloc vmPages h c = .ok (r, h')) :
    KeepsTables h.pages h'.pages := by
  cases hsome : slabOf h c with
  | none =>
      obtain ⟨hpart, hfree⟩ := Option.or_eq_none_iff.mp hsome
      obtain ⟨h₁, _, _, _, _, _, _, happly, _, rfl⟩ :=
        hflat.alloc_built hpart hfree hrun
      exact applySlab_keeps happly
  | some x =>
      obtain ⟨h₁, b, _, _, _, hsupply, _, _, rfl⟩ := hflat.alloc_cases hrun
      cases hsupply with
      | cached => exact .of_pgd rfl
      | built hpart hfree =>
          rw [counted_head] at hpart hfree
          have hnone : slabOf h c = none :=
            Option.or_eq_none_iff.mpr ⟨hpart, hfree⟩
          exact absurd (hsome.symm.trans hnone) (Option.some_ne_none x)

theorem Backed.afterAlloc (hflat : Flat h) (hh : Backed h free clock f n spot)
    (horder : (h.caches c).order ≤ 16) {r : Option Uint}
    (hrun : initKmemCacheAlloc vmPages h c = .ok (r, h'))
    (htables : TablesDistinct h'.pages) :
    ∃ free' f' n' spot', Backed h' free' clock f' n' spot' := by
  have hcounted := hh.counted c
  by_cases hsome : slabOf h c = none
  · have hboth : h.head c .partialSlabs = none ∧ h.head c .freeSlabs = none := by
      unfold slabOf at hsome
      exact Option.or_eq_none_iff.mp hsome
    obtain ⟨h₁, pgList, pages, k, ret, slab, hgrown, happly, hget, rfl⟩ :=
      hflat.alloc_built hboth.1 hboth.2 hrun
    have horder' : ((Slab.counted h c).caches c).order ≤ 16 :=
      ((setRefCnt_kinds h c _).order c).le.trans horder
    rw [hgrown] at happly htables
    obtain ⟨free', f', n', spot', hbuilt⟩ :=
      hcounted.built horder' happly htables c
    refine ⟨free', f', n', spot', ?_⟩
    rw [hgrown] at hget ⊢
    exact hbuilt.setSlab (getObj_region hget)
  · obtain ⟨h₁, b, k, ret, slab, hsupply, hget, _, rfl⟩ := hflat.alloc_cases hrun
    cases hsupply with
    | cached hcase =>
        have hb : slabOf (Slab.counted h c) c = some b := by
          unfold slabOf
          rcases hcase with hpart | ⟨hpart, hfree⟩
          · rw [hpart]
            rfl
          · rw [hpart, hfree]
            rfl
        have hplaced : Backed (Slab.placed (Slab.counted h c) c b) free clock f n
            spot := by
          refine hcounted.congr rfl rfl ?_ fun _ => rfl
          intro d y hy
          rw [slabOf_placed] at hy
          by_cases hd : d = c
          · rw [if_pos hd] at hy
            rw [hd, hb, hy]
          · rw [if_neg hd] at hy
            exact hy
        exact ⟨free, f, n, spot, hplaced.setSlab (getObj_region hget)⟩
    | built hpart hfree =>
        rw [counted_head] at hpart hfree
        exact absurd (Option.or_eq_none_iff.mpr ⟨hpart, hfree⟩) hsome

/-! ## `kfree` -/

/-- `free_buddy` refuses a page with a reference. -/
theorem freeBuddy_refuses {s : Pmm} {i : ℕ} (hpos : 0 < s.refNum (some i)) :
    s.freeBuddy (some i) = .ok s := by
  have hcheck : s.checkFreePages (some i) = .ok false := by
    change s.checkFreePagesFrom (4294967295 + 1) (some i) = _
    unfold Pmm.checkFreePagesFrom
    rw [if_pos hpos]
  unfold Pmm.freeBuddy
  rw [hcheck]
  rfl

/-- The page in `pg_list` is mapped, so `free_buddy` leaves all as it is. -/
theorem Backed.freeBuddy (hh : Backed h free clock f n spot)
    (hx : Standing h f x j m) (hend : j + m ≤ n) {pages : Vm}
    (hfree : vmPages.freeBuddy h.pages (h.slabs x).pgList = .ok pages) :
    pages = h.pages := by
  have hpos := hx.pos
  have hlist : (h.slabs x).pgList = some (f (j + m - 1)) :=
    congrArg Prod.fst hx.region
  have hmem : j + m - 1 ∈ Finset.range n := Finset.mem_range.mpr (by omega)
  have hcount : 0 < (h.pages.pmm.refNum (some (f (j + m - 1)))).toNat :=
    (tally_pos hmem).trans_le (hh.tallied.lower _)
  change (h.pages.pmm.freeBuddy (h.slabs x).pgList).map h.pages.setPmm = _
    at hfree
  rw [hlist, freeBuddy_refuses hcount] at hfree
  exact (Except.ok.inj hfree).symm

theorem Standing.slabEnd (hx : Standing h f x j m) :
    slabEnd (h.slabs x) = pageAt HEAP_START (j + m) := by
  obtain ⟨rfl, hpos, hregion⟩ := hx
  have hsize : (h.slabs (pageAt HEAP_START j)).slabSize = BitVec.ofNat 32 m :=
    congrArg (fun region => region.2.1) hregion
  have hlist : (h.slabs (pageAt HEAP_START j)).freeList =
      pageAt HEAP_START j + sizeofSlab :=
    congrArg (fun region => region.2.2) hregion
  unfold Slab.slabEnd
  rw [hsize, hlist, ← pageAt_add]
  unfold pageAt
  rw [BitVec.mul_comm PGSIZE]
  generalize BitVec.ofNat 32 m * PGSIZE = size
  generalize HEAP_START + BitVec.ofNat 32 j * PGSIZE = origin
  generalize sizeofSlab = header
  bv_omega

/-- A slab that ends at `heap_top` gives its pages back, but not its frames. -/
theorem Backed.returned (hh : Backed h free clock f n spot)
    (hx : Standing h f x (spot c).1 (spot c).2)
    (hend : (spot c).1 + (spot c).2 = n)
    (hapart : ∀ d y, slabOf h d = some y →
      (spot c).1 + (spot c).2 ≤ (spot d).1 ∨
        (spot d).1 + (spot d).2 ≤ (spot c).1) :
    Backed { h with
      pages := unmapPages vmPages h.pages
        (h.heapTop - PGSIZE * (h.slabs x).slabSize)
        (h.slabs x).slabSize.toInt.toNat
      heapTop := h.heapTop - PGSIZE * (h.slabs x).slabSize }
      free clock f (spot c).1 spot := by
  have hpos := hx.pos
  have hroom := hh.room
  have hsize : (h.slabs x).slabSize = BitVec.ofNat 32 (spot c).2 :=
    congrArg (fun region => region.2.1) hx.region
  have hint : (h.slabs x).slabSize.toInt.toNat = (spot c).2 := by
    rw [hsize, BitVec.toInt_eq_toNat_cond, BitVec.toNat_ofNat,
      Nat.mod_eq_of_lt (by omega), if_pos (by omega), Int.toNat_natCast]
  have htop : h.heapTop - PGSIZE * (h.slabs x).slabSize =
      pageAt HEAP_START (spot c).1 := by
    rw [hh.heapTop, hsize, ← hend, ← pageAt_add, BitVec.mul_comm PGSIZE]
    exact BitVec.add_sub_cancel _ _
  obtain ⟨S, hvm, hmem⟩ := hh.tallied.unmapPages (m := (spot c).2)
    (n := (spot c).1) (fun k _ hk => Finset.mem_range.mpr (by omega))
  have hS : S = Finset.range (spot c).1 := by
    ext k
    rw [hmem, Finset.mem_range, Finset.mem_range]
    omega
  subst hS
  refine ⟨?_, by omega, htop, ?_, hh.apart⟩
  · rw [htop, hint]
    exact hvm
  · intro d y hy
    obtain ⟨hstanding, hle⟩ := hh.standing d y hy
    have hposd := hstanding.pos
    refine ⟨⟨hstanding.origin, hposd, hstanding.region⟩, ?_⟩
    rcases hapart d y hy with hcase | hcase <;> omega

/-- The lists once the slab `x` of the cache `c` is off them. -/
theorem Flat.slabOf_dropped (hflat : Flat h) (hx : h.head c .partialSlabs = some x)
    (first : List ℕ) (slab : SlabT) (d : ℕ) :
    slabOf (Slab.dropped (searched h first) c x slab) d =
      if d = c then none else slabOf h d := by
  have hsame := searched_same h first
  unfold slabOf
  rw [dropped_head, dropped_head, hsame.head, hsame.head]
  by_cases hd : d = c
  · have hfree : h.head c .freeSlabs = none := (hflat.one c).resolve_left
      (by rw [hx]; exact Option.some_ne_none x)
    rw [if_pos ⟨hd, rfl⟩, if_neg (by simp), if_pos hd, hd, hfree]
    rfl
  · rw [if_neg (fun hboth => hd hboth.1), if_neg (fun hboth => hd hboth.1),
      if_neg hd]

theorem dropped_region {slab : SlabT} (hslab : slab.region = (h.slabs x).region)
    (first : List ℕ) (c : ℕ) (y : Uint) :
    ((Slab.dropped (searched h first) c x slab).slabs y).region =
      (h.slabs y).region := by
  have hsame := searched_same h first
  rw [← hsame.slabs] at hslab ⊢
  exact setSlab_region (searched h first) hslab y

/-- The slab `x` is made the free slab of its cache again. -/
theorem slabOf_setFree (h : Heap Vm) (hnone : slabOf h c = none) (d : ℕ) :
    slabOf (h.setHead c .freeSlabs (some x)) d =
      if d = c then some x else slabOf h d := by
  unfold slabOf at hnone ⊢
  rw [Heap.setHead_head, Heap.setHead_head, if_neg (by simp)]
  by_cases hd : d = c
  · rw [if_pos ⟨hd, rfl⟩, if_pos hd, hd, (Option.or_eq_none_iff.mp hnone).1]
    rfl
  · rw [if_neg (fun hboth => hd hboth.1), if_neg hd]

theorem unmapPages_keeps (vm : Vm) (a : Uint) (n : ℕ) :
    KeepsTables vm (unmapPages vmPages vm a n) := by
  induction n generalizing vm a with
  | zero => exact .of_pgd rfl
  | succ n ih => exact (unmap_keeps vm a).trans (ih _ _)

theorem kfree_keeps (hflat : Flat h) (hrun : kfree vmPages h a = .ok h') :
    KeepsTables h.pages h'.pages := by
  obtain ⟨first, c, rest, x, slab, _, _, _, _, hrelease⟩ := hflat.kfree_cases hrun
  have hpages : (Slab.dropped (searched h first) c x slab).pages = h.pages :=
    (searched_same h first).pages
  generalize Slab.dropped (searched h first) c x slab = h₁ at *
  rw [← hpages]
  cases hrelease with
  | lost => exact .of_pgd rfl
  | kept => exact .of_pgd rfl
  | returned _ _ hfree =>
      obtain ⟨t, _, rfl⟩ := map_ok_iff.mp hfree
      have hunmapped := unmapPages_keeps (h₁.pages.setPmm t)
        (h₁.heapTop - PGSIZE * (h₁.slabs x).slabSize)
        (h₁.slabs x).slabSize.toInt.toNat
      exact (KeepsTables.of_pgd rfl).trans hunmapped

/-- No call of `kfree` changes which frames are free. -/
theorem Backed.afterKfree (hflat : Flat h) (hh : Backed h free clock f n spot)
    (hrun : kfree vmPages h a = .ok h') :
    ∃ n', Backed h' free clock f n' spot := by
  obtain ⟨first, c, rest, x, slab, _, _, hx, hobj, hrelease⟩ :=
    hflat.kfree_cases hrun
  have hsame := searched_same h first
  have hxc : slabOf h c = some x := slabOf_of_partlyFull hx
  obtain ⟨hstanding, hle⟩ := hh.standing c x hxc
  have hslabOf := hflat.slabOf_dropped hx first slab
  have hregion := dropped_region (freeObj_region hobj) first c
  have hpages : (Slab.dropped (searched h first) c x slab).pages = h.pages :=
    hsame.pages
  have htop : (Slab.dropped (searched h first) c x slab).heapTop = h.heapTop :=
    hsame.heapTop
  generalize Slab.dropped (searched h first) c x slab = h₁ at *
  have hnone : slabOf h₁ c = none := by rw [hslabOf, if_pos rfl]
  have hdropped : Backed h₁ free clock f n spot := by
    refine hh.congr hpages htop ?_ hregion
    intro d y hy
    rw [hslabOf] at hy
    split at hy
    next => cases hy
    next => exact hy
  have hstanding' := hstanding.congr (hregion x)
  cases hrelease with
  | lost => exact ⟨n, hdropped⟩
  | kept =>
      refine ⟨n, hh.congr hpages htop ?_ hregion⟩
      intro d y hy
      rw [slabOf_setFree h₁ hnone, hslabOf] at hy
      split at hy
      next hd => rw [hd, hxc, hy]
      next => exact hy
  | returned _ hend hfree =>
      obtain rfl := hdropped.freeBuddy hstanding' hle hfree
      have hlast : (spot c).1 + (spot c).2 = n := by
        have hroom := hh.room
        rw [hstanding'.slabEnd, hdropped.heapTop, BitVec.lt_def,
          toNat_heapPage (by omega), toNat_heapPage (by omega)] at hend
        omega
      refine ⟨(spot c).1, hdropped.returned hstanding' hlast ?_⟩
      intro d y hy
      rw [hslabOf] at hy
      split at hy
      next => cases hy
      next hd => exact hh.apart c d x y hxc hy (Ne.symm hd)

/-! ## Runs -/

/-- What `init_slab` finds: sound free lists, page tables that do not overlap and
no references. -/
structure HeapBoot (vm : Vm) (free : Table ℕ) (clock : List ℕ) : Prop where
  mappable : Mappable vm free clock []
  few : (frames 17 free).card < 131072
  aligned : ∀ i, Aligned (vm.pmm.startAddr (some i))
  refNum : ∀ i, vm.pmm.refNum (some i) = 0

def IsBacked (clock : List ℕ) (h : Heap Vm) : Prop :=
  ∃ free f n spot, Backed h free clock f n spot

variable {vm₀ : Vm} {h₀ : Heap Vm} {calls : List Call}

theorem HeapBoot.backed (hboot : HeapBoot vm₀ free clock) :
    Backed (bootHeapCache vm₀) free clock (fun _ => 0) 0 (fun _ => (0, 0)) := by
  have hslab : ∀ c, slabOf (bootHeapCache vm₀) c = none := by
    intro c
    unfold slabOf
    rw [bootHeapCache_head, bootHeapCache_head]
    rfl
  have hfew := hboot.few
  have hmax : MAX_PG_NUM = 131072 := rfl
  refine ⟨⟨hboot.mappable, hboot.aligned, ?_, ?_, ?_, ?_⟩, by omega,
    (pageAt_zero _).symm, ?_, ?_⟩
  · intro j hj
    cases hj
  · intro j hj
    cases hj
  · intro i
    exact Nat.zero_le _
  · intro i
    change (vm₀.pmm.refNum (some i)).toNat + _ ≤ _
    rw [hboot.refNum]
    change 0 + _ ≤ _
    omega
  · intro c x hx
    rw [hslab] at hx
    cases hx
  · intro c d x y hx
    rw [hslab] at hx
    cases hx

theorem Backed.withCache (hh : Backed h free clock f n spot) (name : String)
    (size : Uint) (pgNum : ℕ) :
    Backed (withCache h (createBootCache name size pgNum)) free clock f n
      spot := by
  refine hh.congr rfl rfl ?_ fun _ => rfl
  intro c x hx
  have hhead : ∀ list, (Slab.withCache h (createBootCache name size pgNum)).head
      c list = if c = h.cacheNum + 1 then none else h.head c list := by
    intro list
    change (h.setCache (h.cacheNum + 1) _).head c list = _
    rw [setCache_head]
    rfl
  unfold slabOf at hx ⊢
  rw [hhead, hhead] at hx
  split at hx
  next => cases hx
  next => exact hx

theorem IsBacked.withCache (hh : IsBacked clock h) (name : String) (size : Uint)
    (pgNum : ℕ) :
    IsBacked clock (withCache h (createBootCache name size pgNum)) := by
  obtain ⟨free, f, n, spot, hh⟩ := hh
  exact ⟨free, f, n, spot, hh.withCache name size pgNum⟩

theorem HeapBoot.afterInit (hboot : HeapBoot vm₀ free clock)
    (hinit : initSlab vmPages vm₀ = .ok h₀) (htables : TablesDistinct h₀.pages) :
    IsBacked clock h₀ := by
  obtain ⟨r, h₁, halloc, hflat₁, hkinds, hrest⟩ := initSlab_steps hinit
  have hflat₀ := (Flat.boot vm₀).newCache kmemCacheBoot "kmem_cache"
    sizeofKmemCache 1
  have hkind : ((bootHeapCache vm₀).caches kmemCacheBoot).kind =
      (bootCache 0).kind := setCache_kind_self _ _ _
  have horder : ((bootHeapCache vm₀).caches kmemCacheBoot).order ≤ 16 := by
    rw [(size_of_kind hkind).2.2]
    exact (bootCache_bounds 0 (by decide)).2.2.2
  have hbacked₁ : TablesDistinct h₁.pages → IsBacked clock h₁ :=
    hboot.backed.afterAlloc hflat₀ horder halloc
  have hloop := createKmallocCaches_invariant
    (fun h => Flat h ∧ (TablesDistinct h.pages → IsBacked clock h) ∧
      1 ≤ h.cacheNum ∧ (h.caches cacheCache).kind = (bootCache cacheCache).kind)
    (fun h r h' info ⟨hflat, hbacked, hnum, hkind⟩ halloc => by
      obtain ⟨hflat', hnum', hkind'⟩ := hflat.afterAlloc halloc
      have horder : (h.caches cacheCache).order ≤ 16 := by
        rw [(size_of_kind hkind).2.2]
        exact (bootCache_bounds 1 (by decide)).2.2.2
      refine ⟨hflat'.withCache _ _ _, fun htables => ?_,
        Nat.le_add_left 1 h'.cacheNum, ?_⟩
      · obtain ⟨_, _, _, _, hh⟩ :=
          hbacked ((initKmemCacheAlloc_keeps hflat halloc).distinct htables)
        have hh' := hh.afterAlloc hflat horder halloc htables
        exact IsBacked.withCache hh' _ _ _
      · rw [withCache_kind_of_ne rfl _ (by change 1 ≠ _; omega), hkind', hkind])
    hrest
  refine (hloop ⟨hflat₁.withCache _ _ _,
    fun htables => (hbacked₁ htables).withCache _ _ _,
    Nat.le_add_left 1 h₁.cacheNum, withCache_kind ?_ _⟩).2.1 htables
  have hnum : h₁.cacheNum = 0 := hkinds.1
  rw [hnum]
  rfl

/-- What holds between calls, as long as no frame becomes a page table twice. -/
theorem HeapBoot.run (hboot : HeapBoot vm₀ free clock)
    (hinit : initSlab vmPages vm₀ = .ok h₀)
    (hrun : Run (Step vmPages) h₀ calls h) :
    Reached h ∧ (TablesDistinct h.pages → IsBacked clock h) := by
  refine hrun.invariant
    (fun h => Reached h ∧ (TablesDistinct h.pages → IsBacked clock h)) ?_
    ⟨initSlab_reached hinit, hboot.afterInit hinit⟩
  rintro h i h' ⟨hreached, hbacked⟩ hstep
  refine ⟨hreached.afterStep hstep, fun htables => ?_⟩
  obtain ⟨r, hcall⟩ := hstep
  cases i with
  | kmalloc size =>
      obtain ⟨c, hc, _, halloc⟩ := kmalloc_cases hcall
      have hlt := hreached.booted.lt_of_mem (List.mem_of_mem_tail hc)
      have horder : (h.caches c).order ≤ 16 := by
        rw [(size_of_kind (hreached.booted.kind c hlt)).2.2]
        exact (bootCache_bounds c hlt).2.2.2
      obtain ⟨free, f, n, spot, hh⟩ := hbacked
        ((initKmemCacheAlloc_keeps hreached.flat halloc).distinct htables)
      exact hh.afterAlloc hreached.flat horder halloc htables
  | kfree a =>
      obtain ⟨h₁, hfree, hret⟩ := map_ok_iff.mp hcall
      cases hret
      obtain ⟨free, f, n, spot, hh⟩ :=
        hbacked ((kfree_keeps hreached.flat hfree).distinct htables)
      obtain ⟨n', hh'⟩ := hh.afterKfree hreached.flat hfree
      exact ⟨free, f, n', spot, hh'⟩

/-! ## What is lost -/

/-- The page is on a list of `buddy_table`. -/
def OnFreeList (s : Pmm) (i : ℕ) : Prop :=
  ∃ k < 17, ∃ pages, s.pagesFrom (s.pageBlkList k) = .ok pages ∧ i ∈ pages

theorem onFreeList_iff {s : Pmm} (hs : s.Represents free) {i : ℕ} :
    OnFreeList s i ↔ i ∈ frames 17 free := by
  have hpages : ∀ k < 17, s.pagesFrom (s.pageBlkList k) = .ok (free k) :=
    fun k hk => Pmm.pagesFrom_eq (hs.chain k hk)
      (fun a ha => hs.bound a (mem_frames.mpr ⟨k, hk, ha⟩))
  rw [mem_frames]
  constructor
  · rintro ⟨k, hk, pages, hlist, hi⟩
    obtain rfl := Except.ok.inj ((hpages k hk).symm.trans hlist)
    exact ⟨k, hk, hi⟩
  · rintro ⟨k, hk, hi⟩
    exact ⟨k, hk, free k, hpages k hk, hi⟩

/-- `kfree(a)` frees the last live object of the slab `x`, which ends at
`heap_top`. -/
def LastOfTop (h : Heap Vm) (a x : Uint) : Prop :=
  ∃ first c rest slab, h.kmemCaches = first ++ c :: rest ∧
    (∀ d ∈ first, Misses h a d) ∧ h.head c .partialSlabs = some x ∧
    freeObj a (h.slabs x) (h.caches c).size = some slab ∧ slab.active = 0 ∧
    slabEnd (h.slabs x) = h.heapTop

/-- The memory of the slab `x` has gone back: as many frames as the slab has
pages, or more, were in use and are free now. -/
structure MemoryBack (h h' : Heap Vm) (x : Uint) : Prop where
  frames : ∃ block : List ℕ, block.Nodup ∧
    (h.slabs x).slabSize.toNat ≤ block.length ∧
    ∀ i ∈ block, ¬ OnFreeList h.pages.pmm i ∧ OnFreeList h'.pages.pmm i ∧
      h'.pages.pmm.refNum (some i) = 0
  unmapped : ∀ k < (h.slabs x).slabSize.toNat,
    h'.pages.getmapping (pageAt x k) = none
  lowered : h'.heapTop = h.heapTop - PGSIZE * (h.slabs x).slabSize

theorem IsBacked.not_memoryBack (hh : IsBacked clock h) (hflat : Flat h)
    (hx : slabOf h c = some x) (hfree : kfree vmPages h a = .ok h') :
    ¬ MemoryBack h h' x := by
  rintro ⟨⟨block, _, hlength, hblock⟩, _, _⟩
  obtain ⟨free, f, n, spot, hh⟩ := hh
  obtain ⟨n', hh'⟩ := hh.afterKfree hflat hfree
  obtain ⟨hstanding, hle⟩ := hh.standing c x hx
  have hpos := hstanding.pos
  have hroom := hh.room
  have hsize : (h.slabs x).slabSize = BitVec.ofNat 32 (spot c).2 :=
    congrArg (fun region => region.2.1) hstanding.region
  rw [hsize, BitVec.toNat_ofNat, Nat.mod_eq_of_lt (by omega)] at hlength
  obtain ⟨i, hi⟩ := List.exists_mem_of_length_pos (hpos.trans_le hlength)
  obtain ⟨hused, hback, _⟩ := hblock i hi
  rw [onFreeList_iff hh'.tallied.mappable.listed.represents] at hback
  exact hused ((onFreeList_iff hh.tallied.mappable.listed.represents).mpr hback)

/-- No slab that ends at `heap_top` gives its memory back, as long as no two
directory entries have come to share a page table. -/
theorem emptied_slab_leaks (hboot : HeapBoot vm₀ free clock)
    (hinit : initSlab vmPages vm₀ = .ok h₀)
    (hrun : Run (Step vmPages) h₀ calls h) (htables : TablesDistinct h.pages)
    (hlast : LastOfTop h a x)
    (hfree : kfree vmPages h a = .ok h') : ¬ MemoryBack h h' x := by
  obtain ⟨hreached, hbacked⟩ := hboot.run hinit hrun
  obtain ⟨_, c, _, _, _, _, hx, _⟩ := hlast
  exact (hbacked htables).not_memoryBack hreached.flat (slabOf_of_partlyFull hx)
    hfree

theorem bare_heapBoot {p : Pmm}
    (hinit : Pmm.initBuddy (BuddySession.frameMap 6)
      (.boot BuddySession.zeroPage) = .ok p) :
    ∃ free, HeapBoot (bare p) free [] := by
  obtain ⟨free, hmappable, hcard⟩ := bare_mappable hinit
  obtain ⟨_, hinitial, _, _⟩ := Swap.sixFrames_initial hinit
  refine ⟨free, hmappable, by omega, fun i => ?_, hinitial.recorded.refNum⟩
  change Aligned (p.startAddr (some i))
  by_cases hi : i < p.phyPageNum
  · exact (hinitial.recorded.frame i hi).aligned
  · rw [hinitial.recorded.unused i (by omega)]
    rfl

/-- One object is allocated after `init_slab`: what `kfree` finds for it, and
whether there is no page table but one. -/
def freeAtBoot (s : BuddySession.State) :
    Option (Uint × Uint × List ℕ × Bool × Bool) := do
  let h₀ ← (initSlab vmPages (bare s.pmm)).toOption
  let (r, h) ← (kmalloc vmPages h₀ 10).toOption
  let a ← r
  let x ← h.head 2 .partialSlabs
  let other ← h.head 1 .partialSlabs
  let slab ← freeObj a (h.slabs x) (h.caches 2).size
  let _ ← (kfree vmPages h a).toOption
  return (a, x, h.kmemCaches, decide (slab.active = 0 ∧
    slabEnd (h.slabs x) = h.heapTop ∧
    freeObj a (h.slabs other) (h.caches 1).size = none),
    decide (OneTable h.pages))

theorem one_object_freed : ∃ vm₀ free h₀ h h',
    HeapBoot vm₀ free [] ∧ initSlab vmPages vm₀ = .ok h₀ ∧
      Run (Step vmPages) h₀ [.kmalloc 10] h ∧ TablesDistinct h.pages ∧
      LastOfTop h 0xE0002116 0xE0002000 ∧
      kfree vmPages h 0xE0002116 = .ok h' := by
  have hlook : BuddySession.trace BuddySession.next 6 [] freeAtBoot =
      some (0xE0002116, 0xE0002000, List.range' 1 15, true, true) := by
    decide +kernel
  obtain ⟨p, s, hinit, hrun, hlook⟩ := BuddySession.run_of_trace hlook
    fun _ _ _ => BuddySession.step_of_next
  obtain rfl := Transition.run_nil hrun
  obtain ⟨free, hboot⟩ := bare_heapBoot hinit
  obtain ⟨h₀, hheap, hlook⟩ := Option.bind_eq_some_iff.mp hlook
  obtain ⟨⟨r, h⟩, halloc, hlook⟩ := Option.bind_eq_some_iff.mp hlook
  obtain ⟨a, hr, hlook⟩ := Option.bind_eq_some_iff.mp hlook
  obtain ⟨x, hx, hlook⟩ := Option.bind_eq_some_iff.mp hlook
  obtain ⟨other, hother, hlook⟩ := Option.bind_eq_some_iff.mp hlook
  obtain ⟨slab, hslab, hlook⟩ := Option.bind_eq_some_iff.mp hlook
  obtain ⟨h', hfree, hlook⟩ := Option.bind_eq_some_iff.mp hlook
  obtain ⟨ha, hlook⟩ := Prod.mk.inj (Option.some.inj hlook)
  obtain ⟨hslabAddr, hlook⟩ := Prod.mk.inj hlook
  obtain ⟨hcaches, hlook⟩ := Prod.mk.inj hlook
  obtain ⟨hfound, hone⟩ := Prod.mk.inj hlook
  obtain ⟨hactive, hend, hmiss⟩ := of_decide_eq_true hfound
  subst ha hslabAddr
  have hstep : Step vmPages h₀ (.kmalloc 10) h :=
    ⟨_, BuddySession.eq_ok_of_toOption halloc⟩
  refine ⟨_, free, h₀, h, h', hboot, BuddySession.eq_ok_of_toOption hheap,
    .snoc .nil hstep, (of_decide_eq_true hone).tablesDistinct, ?_,
    BuddySession.eq_ok_of_toOption hfree⟩
  refine ⟨[1], 2, List.range' 3 13, slab, hcaches, ?_, hx, hslab, hactive, hend⟩
  intro d hd y hy
  obtain rfl := List.mem_singleton.mp hd
  obtain rfl := Option.some.inj (hother.symm.trans hy)
  exact hmiss

/-- The frame of the slab is not free after the call. -/
theorem one_object_leaks : ∃ vm₀ h₀ h h',
    initSlab vmPages vm₀ = .ok h₀ ∧ Run (Step vmPages) h₀ [.kmalloc 10] h ∧
      LastOfTop h 0xE0002116 0xE0002000 ∧
      kfree vmPages h 0xE0002116 = .ok h' ∧ ¬ MemoryBack h h' 0xE0002000 := by
  obtain ⟨vm₀, free, h₀, h, h', hboot, hinit, hrun, htables, hlast, hfree⟩ :=
    one_object_freed
  exact ⟨vm₀, h₀, h, h', hinit, hrun, hlast, hfree,
    emptied_slab_leaks hboot hinit hrun htables hlast hfree⟩

theorem emptied_slab_not_returned : ¬ ∀ (vm₀ : Vm) (free : Table ℕ)
    (clock : List ℕ) (h₀ h h' : Heap Vm) (calls : List Call) (a x : Uint),
    HeapBoot vm₀ free clock → initSlab vmPages vm₀ = .ok h₀ →
    Run (Step vmPages) h₀ calls h → TablesDistinct h.pages → LastOfTop h a x →
    kfree vmPages h a = .ok h' → MemoryBack h h' x := by
  intro hall
  obtain ⟨vm₀, free, h₀, h, h', hboot, hinit, hrun, htables, hlast, hfree⟩ :=
    one_object_freed
  obtain ⟨hreached, hbacked⟩ := hboot.run hinit hrun
  have hback := hall vm₀ free [] h₀ h h' _ _ _ hboot hinit hrun htables hlast
    hfree
  obtain ⟨_, c, _, _, _, _, hx, _⟩ := hlast
  exact (hbacked htables).not_memoryBack hreached.flat (slabOf_of_partlyFull hx)
    hfree hback

end Slab

end OS32
