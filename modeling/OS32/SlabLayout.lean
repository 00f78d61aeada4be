import OS32.SlabObjects
import OS32.BuddyRepresentation

/-!
# Where the parts of a slab lie

The header, the entries of the free list and the objects follow each other in
the pages of a slab, and `FreeObj` accepts the addresses in the objects and no
others.  The capacity is that of `create_boot_cache`, whose divisor `2 + size`
must not overflow.
-/

namespace OS32

namespace Slab

variable {slab t : SlabT} {objSize a origin : Uint} {id pgNum : ℕ}

/-- A stretch of memory. -/
structure Part where
  start : ℕ
  len : ℕ

def Part.Before (p q : Part) : Prop := p.start + p.len ≤ q.start

def entryPart (slab : SlabT) (i : ℕ) : Part :=
  ⟨(slab.freeList + 2 * BitVec.ofNat 32 i).toNat, 2⟩

def objPart (slab : SlabT) (objSize : Uint) (id : ℕ) : Part :=
  ⟨(objAddr slab objSize id).toNat, objSize.toNat⟩

/-- The header, the free list and the objects of the slab at `origin`. -/
def parts (slab : SlabT) (origin objSize : Uint) : List Part :=
  ⟨origin.toNat, sizeofSlab.toNat⟩ ::
    ((List.range slab.objNum.toNat).map (entryPart slab) ++
      (List.range slab.objNum.toNat).map (objPart slab objSize))

/-- The address lies in the object `id`. -/
def InObject (slab : SlabT) (objSize a : Uint) (id : ℕ) : Prop :=
  (objAddr slab objSize id).toNat ≤ a.toNat ∧
    a.toNat < (objAddr slab objSize id).toNat + objSize.toNat

structure Layout (slab : SlabT) (origin objSize : Uint) (pgNum : ℕ) :
    Prop where
  disjoint : (parts slab origin objSize).Pairwise Part.Before
  inside : ∀ p ∈ parts slab origin objSize, origin.toNat ≤ p.start ∧
    p.start + p.len ≤ origin.toNat + 4096 * pgNum
  accepts : ∀ t : SlabT, t.obj = slab.obj → t.objNum = slab.objNum → ∀ a,
    (∃ t', freeObj a t objSize = some t') ↔
      ∃ id < slab.objNum.toNat, InObject slab objSize a id
  computes : ∀ t : SlabT, t.obj = slab.obj → t.objNum = slab.objNum →
    ∀ a, ∀ id < slab.objNum.toNat, InObject slab objSize a id →
      ∃ t', freeObj a t objSize = some t' ∧
        t'.entry t'.active = BitVec.ofNat 16 id

/-! ## Addresses in objects -/

theorem Fits.toNat_objAddr (hfits : Fits slab objSize)
    (hid : id < slab.objNum.toNat) :
    (objAddr slab objSize id).toNat = slab.obj.toNat + objSize.toNat * id := by
  have hroom := hfits.room
  have hsize := hfits.size_pos
  have hend := obj_end_le objSize hid
  rw [objAddr, BitVec.toNat_add, hfits.toNat_offset hid,
    Nat.mod_eq_of_lt (by omega)]

/-- The objects are the addresses for which the division gives an id, also
where the difference wraps around. -/
theorem Fits.inObject_iff (hfits : Fits slab objSize)
    (hid : id < slab.objNum.toNat) :
    InObject slab objSize a id ↔
      ((a - slab.obj) / objSize).toNat = id := by
  have hroom := hfits.room
  have hsize := hfits.size_pos
  have hend := obj_end_le objSize hid
  have ha := a.isLt
  have hobj := slab.obj.isLt
  unfold InObject
  rw [hfits.toNat_objAddr hid, BitVec.toNat_udiv, Nat.div_eq_iff hsize,
    BitVec.toNat_sub, Nat.mul_comm id]
  generalize objSize.toNat * id = offset at *
  omega

theorem Fits.accepts_iff (hfits : Fits slab objSize) :
    (∃ t', freeObj a slab objSize = some t') ↔
      ∃ id < slab.objNum.toNat, InObject slab objSize a id := by
  rw [freeObj_eq_some_iff hfits.ids, BitVec.lt_def]
  constructor
  · intro hlt
    exact ⟨_, hlt, (hfits.inObject_iff hlt).mpr rfl⟩
  · rintro ⟨id, hid, hin⟩
    rwa [(hfits.inObject_iff hid).mp hin]

/-- `FreeObj` computes the id of the object that the address lies in. -/
theorem Fits.computes_id (hfits : Fits slab objSize)
    (hid : id < slab.objNum.toNat) (hin : InObject slab objSize a id) :
    ∃ t', freeObj a slab objSize = some t' ∧
      t'.entry t'.active = BitVec.ofNat 16 id := by
  obtain ⟨t', hfree⟩ := hfits.accepts_iff.mpr ⟨id, hid, hin⟩
  refine ⟨t', hfree, ?_⟩
  have hquot : (a - slab.obj) / objSize = BitVec.ofNat 32 id := by
    rw [← (hfits.inObject_iff hid).mp hin, BitVec.ofNat_toNat,
      BitVec.setWidth_eq]
  unfold freeObj at hfree
  dsimp only at hfree
  split at hfree
  · cases hfree
  · cases hfree
    dsimp only
    rw [Function.update_self, hquot, BitVec.setWidth_ofNat_of_le (by omega)]

/-! ## The parts -/

/-- The header, the free list and the objects fill the space up to `fence`. -/
structure Adjoining (slab : SlabT) (origin objSize : Uint) (fence : ℕ) : Prop where
  freeList : slab.freeList.toNat = origin.toNat + 40
  obj : slab.obj.toNat = slab.freeList.toNat + 2 * slab.objNum.toNat
  fence : slab.obj.toNat + objSize.toNat * slab.objNum.toNat ≤ fence

variable {fence : ℕ}

theorem Adjoining.toNat_entry (hslab : Adjoining slab origin objSize fence)
    (hi : id < slab.objNum.toNat) :
    (entryPart slab id).start = slab.freeList.toNat + 2 * id := by
  have hobj := hslab.obj
  have hlt := slab.obj.isLt
  unfold entryPart
  rw [BitVec.toNat_add, BitVec.toNat_mul, BitVec.toNat_ofNat]
  change (_ + 2 * _ % _) % _ = _
  omega

theorem Adjoining.layout (hfits : Fits slab objSize)
    (hslab : Adjoining slab origin objSize (origin.toNat + 4096 * pgNum)) :
    Layout slab origin objSize pgNum := by
  have hfree := hslab.freeList
  have hobj := hslab.obj
  have hfence := hslab.fence
  have hheader : sizeofSlab.toNat = 40 := rfl
  have hmul : ∀ id < slab.objNum.toNat, objSize.toNat * id + objSize.toNat ≤
      objSize.toNat * slab.objNum.toNat := fun _ => obj_end_le objSize
  have hstart : ∀ id < slab.objNum.toNat, (objPart slab objSize id).start =
      slab.obj.toNat + objSize.toNat * id := fun id => hfits.toNat_objAddr
  constructor
  · refine List.pairwise_cons.mpr ⟨?_, List.pairwise_append.mpr ⟨?_, ?_, ?_⟩⟩
    · intro p hp
      unfold Part.Before
      dsimp only
      rcases List.mem_append.mp hp with hp | hp
      · obtain ⟨i, hi, rfl⟩ := List.mem_map.mp hp
        rw [hslab.toNat_entry (List.mem_range.mp hi)]
        omega
      · obtain ⟨id, hid, rfl⟩ := List.mem_map.mp hp
        rw [hstart id (List.mem_range.mp hid)]
        omega
    · refine List.pairwise_map.mpr (List.pairwise_lt_range.imp_of_mem ?_)
      intro i j hi hj hij
      unfold Part.Before
      rw [hslab.toNat_entry (List.mem_range.mp hi),
        hslab.toNat_entry (List.mem_range.mp hj)]
      change _ + 2 ≤ _
      omega
    · refine List.pairwise_map.mpr (List.pairwise_lt_range.imp_of_mem ?_)
      intro i j hi hj hij
      have hstep : objSize.toNat * (i + 1) ≤ objSize.toNat * j :=
        Nat.mul_le_mul_left _ hij
      rw [Nat.mul_succ] at hstep
      unfold Part.Before
      rw [hstart i (List.mem_range.mp hi), hstart j (List.mem_range.mp hj)]
      change _ + objSize.toNat ≤ _
      omega
    · intro p hp q hq
      obtain ⟨i, hi, rfl⟩ := List.mem_map.mp hp
      obtain ⟨id, hid, rfl⟩ := List.mem_map.mp hq
      have hlt := List.mem_range.mp hi
      unfold Part.Before
      rw [hslab.toNat_entry hlt, hstart id (List.mem_range.mp hid)]
      change _ + 2 ≤ _
      omega
  · intro p hp
    rcases List.mem_cons.mp hp with rfl | hp
    · dsimp only
      omega
    · rcases List.mem_append.mp hp with hp | hp
      · obtain ⟨i, hi, rfl⟩ := List.mem_map.mp hp
        have hlt := List.mem_range.mp hi
        rw [hslab.toNat_entry hlt]
        change _ ∧ _ + 2 ≤ _
        omega
      · obtain ⟨id, hid, rfl⟩ := List.mem_map.mp hp
        have hlt := List.mem_range.mp hid
        have hend := hmul id hlt
        rw [hstart id hlt]
        change _ ∧ _ + objSize.toNat ≤ _
        omega
  · intro t hobj hnum a
    have haccepts := (hfits.congr hobj hnum).accepts_iff (a := a)
    simp only [InObject, objAddr_congr hobj, hnum] at haccepts ⊢
    exact haccepts
  · intro t hobj hnum a id hid hin
    refine (hfits.congr hobj hnum).computes_id (by rwa [hnum]) ?_
    unfold InObject at *
    rwa [objAddr_congr hobj]

/-! ## Slabs of `create_boot_cache` and `apply_slab` -/

/-- The capacity is what the pages have room for. -/
theorem capacity_le (name : String) {k : ℕ} (hk : k ≤ 20)
    (hsize : objSize.toNat ≤ 2 ^ 32 - 3) :
    (createBootCache name objSize (2 ^ k)).objPerSlab.toNat *
      (objSize.toNat + 2) + 40 ≤ 4096 * 2 ^ k := by
  have hpos : 1 ≤ 2 ^ k := Nat.one_le_two_pow
  have hle : 2 ^ k ≤ 2 ^ 20 := Nat.pow_le_pow_right (by omega) hk
  have hspace : (PGSIZE * BitVec.ofNat 32 (2 ^ k) - sizeofSlab).toNat =
      4096 * 2 ^ k - 40 := by
    rw [BitVec.toNat_sub, BitVec.toNat_mul, BitVec.toNat_ofNat]
    change (4294967296 - 40 + 4096 * (2 ^ k % 4294967296) % 4294967296) %
      4294967296 = _
    omega
  have hdivisor : (2 + objSize).toNat = objSize.toNat + 2 := by
    rw [BitVec.toNat_add]
    change (2 + _) % 4294967296 = _
    omega
  have hdiv := Nat.div_mul_le_self (4096 * 2 ^ k - 40) (objSize.toNat + 2)
  unfold createBootCache
  rw [BitVec.toNat_udiv, hspace, hdivisor]
  omega

theorem newSlab_adjoining {old : SlabT} {pgNumber objPerSlab : Uint}
    {pgList : PagePtr} {fence : ℕ} (hfence : fence ≤ 2 ^ 32)
    (hheader : origin.toNat + 40 < fence)
    (hroom : origin.toNat + objPerSlab.toNat * (objSize.toNat + 2) + 40 ≤ fence)
    (hsize : 1 ≤ objSize.toNat) :
    Adjoining (newSlab old origin pgNumber objPerSlab pgList) origin objSize
      fence := by
  have hmul := Nat.mul_comm objSize.toNat objPerSlab.toNat
  have hpos : objPerSlab.toNat * 1 ≤ objPerSlab.toNat * objSize.toNat :=
    Nat.mul_le_mul_left _ hsize
  rw [Nat.mul_add] at hroom
  have hlist : (origin + sizeofSlab).toNat = origin.toNat + 40 := by
    rw [BitVec.toNat_add]
    change (_ + 40) % 4294967296 = _
    omega
  have hobj : (origin + sizeofSlab + 2 * objPerSlab).toNat =
      origin.toNat + 40 + 2 * objPerSlab.toNat := by
    rw [BitVec.toNat_add, hlist, BitVec.toNat_mul]
    change (_ + 2 * _ % 4294967296) % 4294967296 = _
    omega
  refine ⟨hlist, ?_, ?_⟩
  · change (origin + sizeofSlab + 2 * objPerSlab).toNat =
      (origin + sizeofSlab).toNat + 2 * objPerSlab.toNat
    rw [hobj, hlist]
  · change (origin + sizeofSlab + 2 * objPerSlab).toNat +
      objSize.toNat * objPerSlab.toNat ≤ fence
    rw [hobj]
    omega

/-- The layout of the slabs of a cache with objects of `objSize` bytes and
`2 ^ k` pages a slab. -/
theorem slab_layout {σ : Type} {P : PageOps σ} {h h' : Heap σ}
    {name : String} {k : ℕ} (hpos : 1 ≤ objSize.toNat)
    (hsize : objSize.toNat ≤ 2 ^ 32 - 3)
    (hwrap : h.heapTop.toNat + 4096 * 2 ^ k ≤ 2 ^ 32)
    (hids : (createBootCache name objSize (2 ^ k)).objPerSlab.toNat ≤ 65536)
    (happly : applySlab P h (pow2 (createBootCache name objSize (2 ^ k)).order)
      (createBootCache name objSize (2 ^ k)).objPerSlab = .ok (origin, h')) :
    origin = h.heapTop ∧
      h'.heapTop = h.heapTop + BitVec.ofNat 32 (2 ^ k) * PGSIZE ∧
      Layout (h'.slabs origin) origin objSize (2 ^ k) := by
  have hk : k ≤ 20 := by
    by_contra hlarge
    have hle : 2 ^ 21 ≤ 2 ^ k := Nat.pow_le_pow_right (by omega) (by omega)
    omega
  have hcapacity := capacity_le name hk hsize
  have horder : pow2 (createBootCache name objSize (2 ^ k)).order = 2 ^ k := by
    unfold createBootCache
    rw [log2_two_pow (by omega), pow2_eq]
  rw [horder] at happly
  obtain ⟨rfl, pgList, pages, rfl⟩ := applySlab_cases happly
  refine ⟨rfl, rfl, ?_⟩
  have hslab : (grown h (2 ^ k) (createBootCache name objSize (2 ^ k)).objPerSlab
      pgList pages).slabs h.heapTop = newSlab (h.slabs h.heapTop) h.heapTop
        (BitVec.ofNat 32 (2 ^ k))
        (createBootCache name objSize (2 ^ k)).objPerSlab pgList :=
    Function.update_self _ _ _
  rw [hslab]
  have hadjoining : Adjoining (newSlab (h.slabs h.heapTop) h.heapTop
      (BitVec.ofNat 32 (2 ^ k))
      (createBootCache name objSize (2 ^ k)).objPerSlab pgList) h.heapTop objSize
      (h.heapTop.toNat + 4096 * 2 ^ k) :=
    newSlab_adjoining hwrap (by omega) (by omega) hpos
  exact hadjoining.layout ⟨hpos, hids, hadjoining.fence.trans hwrap⟩

/-- The layout of the slabs for 32-byte objects. -/
theorem slab_layout_32_bytes :
    ∃ h' : Heap Unit,
      applySlab plainPages (bootHeap ())
        (pow2 (createBootCache "cache_32B" 32 (2 ^ 0)).order)
        (createBootCache "cache_32B" 32 (2 ^ 0)).objPerSlab =
          .ok (HEAP_START, h') ∧
      Layout (h'.slabs HEAP_START) HEAP_START 32 (2 ^ 0) := by
  have happly : applySlab plainPages (bootHeap ())
      (pow2 (createBootCache "cache_32B" 32 (2 ^ 0)).order)
      (createBootCache "cache_32B" 32 (2 ^ 0)).objPerSlab =
        .ok (HEAP_START, grown (bootHeap ()) 1 119 (some 0) ()) := rfl
  have hlayout := slab_layout (by decide) (by decide) (by decide) (by decide)
    happly
  exact ⟨_, happly, hlayout.2.2⟩

/-- For the largest size the divisor of `create_boot_cache` is 1, and there are
ids of objects outside the pages. -/
theorem slab_layout_overflow :
    ¬ ∀ (objSize : Uint) (k : ℕ) (h h' : Heap Unit) (origin : Uint),
      1 ≤ objSize.toNat → h.heapTop.toNat + 4096 * 2 ^ k ≤ 2 ^ 32 →
      (createBootCache "cache" objSize (2 ^ k)).objPerSlab.toNat ≤ 65536 →
      applySlab plainPages h
        (pow2 (createBootCache "cache" objSize (2 ^ k)).order)
        (createBootCache "cache" objSize (2 ^ k)).objPerSlab =
          .ok (origin, h') →
      Layout (h'.slabs origin) origin objSize (2 ^ k) := by
  intro hall
  have hlayout := hall 0xFFFFFFFF 0 (bootHeap ())
    (grown (bootHeap ()) 1 4056 (some 0) ()) HEAP_START (by decide) (by decide)
    (by decide) rfl
  have hinside := hlayout.inside
    (objPart _ 0xFFFFFFFF 1) (List.mem_cons_of_mem _ (List.mem_append_right _
      (List.mem_map_of_mem (List.mem_range.mpr (by decide)))))
  revert hinside
  decide

end Slab
end OS32
