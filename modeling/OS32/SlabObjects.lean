import OS32.SlabSteps
import OS32.Run

/-!
# The objects of one slab

`free_list` is a stack of object ids, and `active` counts the ids that have
been popped.  The ids from `active` on are those of the objects that are not
live, in whatever order they were freed; the ones below are stale.
-/

namespace OS32

open Transition

namespace Slab

/-- The address of the object `id`. -/
def objAddr (slab : SlabT) (objSize : Uint) (id : ℕ) : Uint :=
  slab.obj + objSize * BitVec.ofNat 32 id

/-- `free_list[active..obj_num-1]` -/
def available (slab : SlabT) : List ℕ :=
  (List.range' slab.active.toNat (slab.objNum.toNat - slab.active.toNat)).map
    fun i => (slab.entry (BitVec.ofNat 32 i)).toNat

/-! ## The invariant -/

/-- The objects of a slab have 16-bit ids and lie in the address space. -/
structure Fits (slab : SlabT) (objSize : Uint) : Prop where
  size_pos : 0 < objSize.toNat
  ids : slab.objNum.toNat ≤ 65536
  room : slab.obj.toNat + objSize.toNat * slab.objNum.toNat ≤ 2 ^ 32

/-- The objects with the ids `ids` are live. -/
structure Holds (slab : SlabT) (ids : Finset ℕ) : Prop where
  subset : ids ⊆ Finset.range slab.objNum.toNat
  active : slab.active.toNat = ids.card
  stack : (available slab : Multiset ℕ) =
    (Finset.range slab.objNum.toNat \ ids).val

variable {slab slab' : SlabT} {objSize a : Uint} {ids : Finset ℕ} {id : ℕ}

theorem obj_end_le (objSize : Uint) (hid : id < slab.objNum.toNat) :
    objSize.toNat * id + objSize.toNat ≤
      objSize.toNat * slab.objNum.toNat := by
  rw [← Nat.mul_succ]
  exact Nat.mul_le_mul_left _ hid

theorem Fits.offset_lt (hfits : Fits slab objSize)
    (hid : id < slab.objNum.toNat) : objSize.toNat * id < 2 ^ 32 := by
  have hroom := hfits.room
  have hsize := hfits.size_pos
  have hend := obj_end_le objSize hid
  omega

theorem Fits.toNat_offset (hfits : Fits slab objSize)
    (hid : id < slab.objNum.toNat) :
    (objSize * BitVec.ofNat 32 id).toNat = objSize.toNat * id := by
  have hids := hfits.ids
  rw [BitVec.toNat_mul, BitVec.toNat_ofNat, Nat.mod_eq_of_lt (a := id) (by omega),
    Nat.mod_eq_of_lt (hfits.offset_lt hid)]

/-- `FreeObj` computes the id of the object from its address. -/
theorem Fits.objId (hfits : Fits slab objSize) (hid : id < slab.objNum.toNat) :
    (objAddr slab objSize id - slab.obj) / objSize = BitVec.ofNat 32 id := by
  have hids := hfits.ids
  have hsub : objAddr slab objSize id - slab.obj =
      objSize * BitVec.ofNat 32 id := by
    rw [objAddr, BitVec.add_comm, BitVec.add_sub_cancel]
  rw [hsub, ← BitVec.toNat_inj, BitVec.toNat_udiv, hfits.toNat_offset hid,
    Nat.mul_div_cancel_left _ hfits.size_pos, BitVec.toNat_ofNat]
  omega

theorem Fits.objAddr_inj (hfits : Fits slab objSize) {id' : ℕ}
    (hid : id < slab.objNum.toNat) (hid' : id' < slab.objNum.toNat)
    (heq : objAddr slab objSize id = objAddr slab objSize id') : id = id' := by
  have hids := hfits.ids
  have hsame := hfits.objId hid
  rw [heq, hfits.objId hid', ← BitVec.toNat_inj, BitVec.toNat_ofNat,
    BitVec.toNat_ofNat] at hsame
  omega

theorem Fits.objAddr_ne_zero (hfits : Fits slab objSize) (hobj : slab.obj ≠ 0)
    (hid : id < slab.objNum.toNat) : objAddr slab objSize id ≠ 0 := by
  have hend := obj_end_le objSize hid
  have hroom := hfits.room
  have hsize := hfits.size_pos
  rw [Ne, ← BitVec.toNat_inj] at hobj ⊢
  rw [objAddr, BitVec.toNat_add, hfits.toNat_offset hid]
  change slab.obj.toNat ≠ 0 at hobj
  change _ % 2 ^ 32 ≠ 0
  omega

theorem Holds.active_le (hslab : Holds slab ids) :
    slab.active.toNat ≤ slab.objNum.toNat := by
  have hcard := Finset.card_le_card hslab.subset
  rwa [Finset.card_range, ← hslab.active] at hcard

/-- All objects of the slab are live. -/
theorem Holds.active_eq_iff (hslab : Holds slab ids) :
    slab.active = slab.objNum ↔ ids = Finset.range slab.objNum.toNat := by
  rw [← BitVec.toNat_inj, hslab.active]
  constructor
  · intro hcard
    exact Finset.eq_of_subset_of_card_le hslab.subset
      (by rw [Finset.card_range, hcard])
  · intro hall
    conv_lhs => rw [hall]
    exact Finset.card_range _

/-! ## `GetObj` -/

theorem available_cons (hlt : slab.active.toNat < slab.objNum.toNat) :
    available slab = (slab.entry slab.active).toNat ::
      available { slab with
        active := slab.active + 1
        refNum := slab.refNum + 1 } := by
  have hbound := slab.objNum.isLt
  have hnext : (slab.active + 1).toNat = slab.active.toNat + 1 := by
    rw [BitVec.toNat_add]
    change (_ + 1) % 2 ^ 32 = _
    omega
  have hlength : slab.objNum.toNat - slab.active.toNat =
      slab.objNum.toNat - (slab.active.toNat + 1) + 1 := by
    omega
  unfold available
  rw [hlength, List.range'_succ, List.map_cons, BitVec.ofNat_toNat,
    BitVec.setWidth_eq]
  simp only [hnext]

theorem nextObj_eq (slab : SlabT) (objSize : Uint) :
    nextObj slab objSize =
      objAddr slab objSize (slab.entry slab.active).toNat := by
  rw [nextObj, objAddr, BitVec.ofNat_toNat]

theorem Holds.active_lt (hslab : Holds slab ids)
    (hroom : slab.active ≠ slab.objNum) :
    slab.active.toNat < slab.objNum.toNat := by
  have hle := hslab.active_le
  rw [Ne, ← BitVec.toNat_inj] at hroom
  omega

/-- The object that `GetObj` comes to is not live. -/
theorem Holds.next_mem (hslab : Holds slab ids)
    (hroom : slab.active ≠ slab.objNum) :
    (slab.entry slab.active).toNat ∈ Finset.range slab.objNum.toNat \ ids := by
  rw [← Finset.mem_val, ← hslab.stack, available_cons (hslab.active_lt hroom)]
  exact List.mem_cons_self

/-- With no object at the address 0, `GetObj` gives NULL only if no object is
left. -/
theorem getObj_eq_none_iff (hfits : Fits slab objSize) (hobj : slab.obj ≠ 0)
    (hslab : Holds slab ids) :
    (getObj slab objSize).1 = none ↔ ids = Finset.range slab.objNum.toNat := by
  rw [← hslab.active_eq_iff, getObj_null_iff, or_iff_left_of_imp]
  intro hzero
  by_contra hroom
  have hid := (Finset.mem_sdiff.mp (hslab.next_mem hroom)).1
  rw [nextObj_eq] at hzero
  exact hfits.objAddr_ne_zero hobj (Finset.mem_range.mp hid) hzero

/-- `GetObj` hands out an object that is not live. -/
theorem Holds.afterGet (hslab : Holds slab ids)
    (hget : getObj slab objSize = (some a, slab')) :
    ∃ id, id ∈ Finset.range slab.objNum.toNat ∧ id ∉ ids ∧
      a = objAddr slab objSize id ∧ Holds slab' (insert id ids) := by
  obtain ⟨hroom, rfl, _, rfl⟩ := getObj_some hget
  have hlt := hslab.active_lt hroom
  obtain ⟨hrange, hfresh⟩ := Finset.mem_sdiff.mp (hslab.next_mem hroom)
  have havailable := hslab.stack
  rw [available_cons hlt, ← Multiset.cons_coe] at havailable
  refine ⟨(slab.entry slab.active).toNat, hrange, hfresh, nextObj_eq _ _, ?_, ?_,
    ?_⟩
  · exact Finset.insert_subset hrange hslab.subset
  · have hbound := slab.objNum.isLt
    rw [Finset.card_insert_of_notMem hfresh, ← hslab.active]
    change (slab.active + 1).toNat = _
    rw [BitVec.toNat_add]
    change (_ + 1) % 2 ^ 32 = _
    omega
  · rw [Finset.sdiff_insert, Finset.erase_val, ← havailable,
      Multiset.erase_cons_head]

/-! ## `FreeObj` -/

/-- `FreeObj` refuses an address unless the division gives the id of an object
of the slab. -/
theorem freeObj_eq_some_iff (hids : slab.objNum.toNat ≤ 65536) :
    (∃ slab', freeObj a slab objSize = some slab') ↔
      (a - slab.obj) / objSize < slab.objNum := by
  have hsmall : ∀ q : Uint, q < slab.objNum → ¬ q.toInt < 0 := by
    intro q hq
    rw [BitVec.lt_def] at hq
    rw [BitVec.toInt_eq_toNat_of_lt (by omega)]
    omega
  unfold freeObj
  dsimp only
  constructor
  · rintro ⟨slab', hfree⟩
    split at hfree
    · cases hfree
    next hnot =>
      exact BitVec.not_le.mp (not_or.mp hnot).2
  · intro hlt
    rw [if_neg (not_or.mpr ⟨hsmall _ hlt, BitVec.not_le.mpr hlt⟩)]
    exact ⟨_, rfl⟩

/-- `FreeObj` on the address of an object. -/
theorem freeObj_objAddr (hfits : Fits slab objSize)
    (hid : id < slab.objNum.toNat) :
    freeObj (objAddr slab objSize id) slab objSize = some { slab with
      active := slab.active - 1
      refNum := slab.refNum - 1
      entry := Function.update slab.entry (slab.active - 1)
        (BitVec.ofNat 16 id) } := by
  have hids := hfits.ids
  have hnat : (BitVec.ofNat 32 id).toNat = id := by
    rw [BitVec.toNat_ofNat]
    omega
  have hsign : ¬ (BitVec.ofNat 32 id).toInt < 0 := by
    rw [BitVec.toInt_eq_toNat_of_lt (by omega)]
    omega
  have hbound : ¬ slab.objNum ≤ BitVec.ofNat 32 id := by
    rw [BitVec.le_def, hnat]
    omega
  have hentry : (BitVec.ofNat 32 id).setWidth 16 = BitVec.ofNat 16 id :=
    BitVec.setWidth_ofNat_of_le (by omega) id
  unfold freeObj
  dsimp only
  rw [hfits.objId hid, if_neg (not_or.mpr ⟨hsign, hbound⟩), hentry]

/-- The object goes on top of the stack of ids. -/
theorem available_afterFree (hpos : 0 < slab.active.toNat)
    (hle : slab.active.toNat ≤ slab.objNum.toNat)
    (hid : id < 65536) :
    available { slab with
      active := slab.active - 1
      refNum := slab.refNum - 1
      entry := Function.update slab.entry (slab.active - 1)
        (BitVec.ofNat 16 id) } = id :: available slab := by
  have hbound := slab.objNum.isLt
  have hprev : (slab.active - 1).toNat = slab.active.toNat - 1 := by
    rw [BitVec.toNat_sub]
    change (2 ^ 32 - 1 + _) % 2 ^ 32 = _
    omega
  have hlength : slab.objNum.toNat - (slab.active.toNat - 1) =
      slab.objNum.toNat - slab.active.toNat + 1 := by
    omega
  have hactive : slab.active.toNat - 1 + 1 = slab.active.toNat := by omega
  have hself : BitVec.ofNat 32 (slab.active.toNat - 1) = slab.active - 1 := by
    rw [← hprev, BitVec.ofNat_toNat, BitVec.setWidth_eq]
  unfold available
  simp only [hprev]
  rw [hlength, List.range'_succ, List.map_cons, hself, Function.update_self,
    hactive, BitVec.toNat_ofNat, Nat.mod_eq_of_lt (by omega)]
  congr 1
  apply List.map_congr_left
  intro i hi
  rw [List.mem_range'_1] at hi
  have hne : BitVec.ofNat 32 i ≠ slab.active - 1 := by
    rw [Ne, ← BitVec.toNat_inj, hprev, BitVec.toNat_ofNat]
    omega
  rw [Function.update_of_ne hne]

/-- `FreeObj` makes the object it is given available again. -/
theorem Holds.afterFree (hfits : Fits slab objSize) (hslab : Holds slab ids)
    (hid : id ∈ ids) :
    ∃ slab', freeObj (objAddr slab objSize id) slab objSize = some slab' ∧
      available slab' = id :: available slab ∧ slab'.obj = slab.obj ∧
      slab'.objNum = slab.objNum ∧ Holds slab' (ids.erase id) := by
  have hids := hfits.ids
  have hrange := Finset.mem_range.mp (hslab.subset hid)
  have hpos : 0 < slab.active.toNat := by
    rw [hslab.active]
    exact Finset.card_pos.mpr ⟨id, hid⟩
  have havailable := available_afterFree hpos hslab.active_le
    (show id < 65536 by omega)
  refine ⟨_, freeObj_objAddr hfits hrange, havailable, rfl, rfl, ?_, ?_, ?_⟩
  · exact (Finset.erase_subset _ _).trans hslab.subset
  · rw [Finset.card_erase_of_mem hid, ← hslab.active]
    change (slab.active - 1).toNat = _
    rw [BitVec.toNat_sub]
    change (2 ^ 32 - 1 + _) % 2 ^ 32 = _
    have hbound := slab.active.isLt
    omega
  · rw [havailable, ← Multiset.cons_coe, hslab.stack]
    change id ::ₘ (Finset.range slab.objNum.toNat \ ids).val =
      (Finset.range slab.objNum.toNat \ ids.erase id).val
    rw [Finset.sdiff_erase (hslab.subset hid), Finset.insert_val_of_notMem]
    exact fun hmem => (Finset.mem_sdiff.mp hmem).2 hid

/-! ## Runs -/

/-- A slab with the addresses of its live objects. -/
structure Objects where
  slab : SlabT
  live : Finset Uint

inductive ObjectCall where
  | get
  | free (objAddr : Uint)

/-- `GetObj` and `FreeObj` on objects of the size `objSize`, the latter on a
live object. -/
inductive ObjectStep (objSize : Uint) : Objects → ObjectCall → Objects → Prop
  | get {s : Objects} {a : Uint} {slab' : SlabT} :
      getObj s.slab objSize = (some a, slab') →
      ObjectStep objSize s .get ⟨slab', insert a s.live⟩
  | null {s : Objects} {slab' : SlabT} :
      getObj s.slab objSize = (none, slab') →
      ObjectStep objSize s .get ⟨slab', s.live⟩
  | free {s : Objects} {a : Uint} {slab' : SlabT} :
      a ∈ s.live → freeObj a s.slab objSize = some slab' →
      ObjectStep objSize s (.free a) ⟨slab', s.live.erase a⟩

/-- What holds between calls. -/
structure Objects.Inv (objSize : Uint) (n : ℕ) (s : Objects) : Prop where
  fits : Fits s.slab objSize
  obj : s.slab.obj ≠ 0
  objNum : s.slab.objNum.toNat = n
  held : ∃ ids, Holds s.slab ids ∧ s.live = ids.image (objAddr s.slab objSize)

theorem available_newSlab (old : SlabT) (origin pgNumber objPerSlab : Uint)
    (pgList : PagePtr) :
    available (newSlab old origin pgNumber objPerSlab pgList) =
      (List.range objPerSlab.toNat).map (· % 65536) := by
  unfold available newSlab
  dsimp only
  change (List.range' 0 _).map _ = _
  rw [← List.range_eq_range']
  refine List.map_congr_left ?_
  intro i hi
  have hlt := List.mem_range.mp hi
  have hmem : BitVec.ofNat 32 i < objPerSlab := by
    rw [BitVec.lt_def, BitVec.toNat_ofNat]
    omega
  rw [if_pos hmem, BitVec.toNat_setWidth, BitVec.toNat_ofNat]
  omega

theorem newSlab_holds (old : SlabT) (origin pgNumber objPerSlab : Uint)
    (pgList : PagePtr) (hids : objPerSlab.toNat ≤ 65536) :
    Holds (newSlab old origin pgNumber objPerSlab pgList) ∅ := by
  refine ⟨Finset.empty_subset _, rfl, ?_⟩
  have hentries : available (newSlab old origin pgNumber objPerSlab pgList) =
      List.range objPerSlab.toNat := by
    rw [available_newSlab]
    refine (List.map_congr_left ?_).trans (List.map_id _)
    intro i hi
    have hlt := List.mem_range.mp hi
    exact Nat.mod_eq_of_lt (by omega)
  rw [hentries, Finset.sdiff_empty]
  rfl

theorem objAddr_congr (hobj : slab'.obj = slab.obj) :
    objAddr slab' objSize = objAddr slab objSize := by
  funext id
  rw [objAddr, objAddr, hobj]

theorem Fits.congr (hfits : Fits slab objSize) (hobj : slab'.obj = slab.obj)
    (hnum : slab'.objNum = slab.objNum) : Fits slab' objSize := by
  refine ⟨hfits.size_pos, ?_, ?_⟩
  · rw [hnum]
    exact hfits.ids
  · rw [hobj, hnum]
    exact hfits.room

/-- Different ids have different addresses. -/
theorem Fits.image_erase (hfits : Fits slab objSize)
    (hsub : ids ⊆ Finset.range slab.objNum.toNat) (hid : id ∈ ids) :
    (ids.erase id).image (objAddr slab objSize) =
      (ids.image (objAddr slab objSize)).erase (objAddr slab objSize id) := by
  have hlt : ∀ i ∈ ids, i < slab.objNum.toNat :=
    fun i hi => Finset.mem_range.mp (hsub hi)
  ext a
  simp only [Finset.mem_image, Finset.mem_erase]
  constructor
  · rintro ⟨i, ⟨hne, hi⟩, rfl⟩
    exact ⟨fun heq => hne (hfits.objAddr_inj (hlt i hi) (hlt id hid) heq),
      i, hi, rfl⟩
  · rintro ⟨hne, i, hi, rfl⟩
    exact ⟨i, ⟨fun heq => hne (by rw [heq]), hi⟩, rfl⟩

variable {n : ℕ} {s t : Objects}

theorem Objects.Inv.afterStep (hs : s.Inv objSize n) {call : ObjectCall}
    (hstep : ObjectStep objSize s call t) : t.Inv objSize n := by
  obtain ⟨ids, hheld, hlive⟩ := hs.held
  cases hstep with
  | get hget =>
      obtain ⟨hobj, hnum, _, _⟩ := getObj_block hget
      obtain ⟨id, _, _, rfl, hheld'⟩ := hheld.afterGet hget
      refine ⟨hs.fits.congr hobj hnum, hobj ▸ hs.obj, by rw [hnum, hs.objNum], _,
        hheld', ?_⟩
      rw [objAddr_congr hobj, Finset.image_insert, hlive]
  | null hnull =>
      have hall := (getObj_eq_none_iff hs.fits hs.obj hheld).mp
        (congrArg Prod.fst hnull)
      rw [getObj_of_full _ (hheld.active_eq_iff.mpr hall)] at hnull
      obtain rfl := (Prod.mk.inj hnull).2
      exact hs
  | free hmem hfree =>
      rw [hlive, Finset.mem_image] at hmem
      obtain ⟨id, hid, rfl⟩ := hmem
      obtain ⟨slab', hfree', _, hobj, hnum, hheld'⟩ :=
        hheld.afterFree hs.fits hid
      obtain rfl := Option.some.inj (hfree.symm.trans hfree')
      refine ⟨hs.fits.congr hobj hnum, hobj ▸ hs.obj, by rw [hnum, hs.objNum], _,
        hheld', ?_⟩
      rw [objAddr_congr hobj, hs.fits.image_erase hheld.subset hid, hlive]

/-- The free list of a slab with `n` objects of which `live` are live. -/
structure Discipline (objSize : Uint) (n : ℕ) (slab : SlabT)
    (live : Finset Uint) : Prop where
  active : slab.active.toNat = live.card
  stack : (available slab).Perm
    ((List.range n).filter fun id => objAddr slab objSize id ∉ live)
  null : (getObj slab objSize).1 = none ↔
    ∀ id < n, objAddr slab objSize id ∈ live
  get : ∀ a slab', getObj slab objSize = (some a, slab') →
    (∃ id < n, a = objAddr slab objSize id) ∧ a ∉ live
  free : ∀ a ∈ live, ∃ id slab', id < n ∧ a = objAddr slab objSize id ∧
    freeObj a slab objSize = some slab' ∧
      available slab' = id :: available slab

theorem Objects.Inv.discipline (hs : s.Inv objSize n) :
    Discipline objSize n s.slab s.live := by
  obtain ⟨ids, hheld, hlive⟩ := hs.held
  have hnum := hs.objNum
  have hmem : ∀ id < n, (objAddr s.slab objSize id ∈ s.live ↔ id ∈ ids) := by
    intro id hid
    rw [hlive, Finset.mem_image]
    constructor
    · rintro ⟨i, hi, heq⟩
      have hlt := Finset.mem_range.mp (hheld.subset hi)
      rwa [← hs.fits.objAddr_inj hlt (by omega) heq]
    · exact fun hi => ⟨id, hi, rfl⟩
  constructor
  · have hinj : Set.InjOn (objAddr s.slab objSize) ids := by
      intro i hi j hj heq
      exact hs.fits.objAddr_inj (Finset.mem_range.mp (hheld.subset hi))
        (Finset.mem_range.mp (hheld.subset hj)) heq
    rw [hheld.active, hlive, Finset.card_image_of_injOn hinj]
  · rw [← Multiset.coe_eq_coe, hheld.stack, hnum, ← Finset.filter_notMem_eq_sdiff,
      ← Multiset.filter_coe]
    change Multiset.filter (fun id => id ∉ ids) (Multiset.range n) = _
    refine Multiset.filter_congr ?_
    intro id hid
    rw [hmem id (Multiset.mem_range.mp hid)]
  · rw [getObj_eq_none_iff hs.fits hs.obj hheld, hnum]
    constructor
    · intro hall id hid
      rw [hmem id hid, hall]
      exact Finset.mem_range.mpr hid
    · intro hall
      refine Finset.Subset.antisymm (hnum ▸ hheld.subset) ?_
      intro id hid
      have hlt := Finset.mem_range.mp hid
      exact (hmem id hlt).mp (hall id hlt)
  · intro a slab' hget
    obtain ⟨id, hrange, hfresh, rfl, _⟩ := hheld.afterGet hget
    have hlt : id < n := by
      rw [← hnum]
      exact Finset.mem_range.mp hrange
    exact ⟨⟨id, hlt, rfl⟩, mt (hmem id hlt).mp hfresh⟩
  · intro a ha
    rw [hlive, Finset.mem_image] at ha
    obtain ⟨id, hid, rfl⟩ := ha
    have hlt : id < n := by
      rw [← hnum]
      exact Finset.mem_range.mp (hheld.subset hid)
    obtain ⟨slab', hfree, hstack, _⟩ := hheld.afterFree hs.fits hid
    exact ⟨id, slab', hlt, rfl, hfree, hstack⟩

/-- The free-list discipline of a slab that `apply_slab` has built, unless an
object of it would be at the address 0. -/
theorem free_list_discipline {σ : Type} {P : PageOps σ} {h h' : Heap σ}
    {pgNumber : ℕ} {origin objNum : Uint} {calls : List ObjectCall}
    (happly : applySlab P h pgNumber objNum = .ok (origin, h'))
    (hids : objNum.toNat ≤ 65536) (hsize : 1 ≤ objSize.toNat)
    (hroom : (h'.slabs origin).obj.toNat + objSize.toNat * objNum.toNat ≤
      2 ^ 32)
    (hobj : (h'.slabs origin).obj ≠ 0)
    (hrun : Run (ObjectStep objSize) ⟨h'.slabs origin, ∅⟩ calls t) :
    Discipline objSize objNum.toNat t.slab t.live := by
  obtain ⟨rfl, pgList, pages, rfl⟩ := applySlab_cases happly
  have hslab : (grown h pgNumber objNum pgList pages).slabs h.heapTop =
      newSlab (h.slabs h.heapTop) h.heapTop (BitVec.ofNat 32 pgNumber) objNum
        pgList := Function.update_self _ _ _
  rw [hslab] at hroom hobj hrun
  have hinv : t.Inv objSize objNum.toNat := by
    refine hrun.invariant (fun s => s.Inv objSize objNum.toNat)
      (fun _ _ _ hs hstep => hs.afterStep hstep) ?_
    refine ⟨⟨hsize, hids, hroom⟩, hobj, rfl, ∅, ?_, rfl⟩
    exact newSlab_holds _ _ _ _ _ hids
  exact hinv.discipline

/-- A slab with two objects of 8 bytes: both are handed out and the first one
is freed. -/
theorem free_list_discipline_two_objects :
    ∃ (h' : Heap Unit) (t : Objects),
      applySlab plainPages (bootHeap ()) 1 2 = .ok (HEAP_START, h') ∧
      Run (ObjectStep 8) ⟨h'.slabs HEAP_START, ∅⟩
        [.get, .get, .free 0xE000002C] t ∧
      Discipline 8 2 t.slab t.live := by
  have happly : applySlab plainPages (bootHeap ()) 1 2 =
      .ok (HEAP_START, grown (bootHeap ()) 1 2 (some 0) ()) := rfl
  have hfree : (0xE000002C : Uint) ∈
      insert 0xE0000034 (insert 0xE000002C (∅ : Finset Uint)) := by decide
  have hrun : Run (ObjectStep 8)
      ⟨(grown (bootHeap ()) 1 2 (some 0) ()).slabs HEAP_START, ∅⟩
      ([] ++ [.get] ++ [.get] ++ [.free 0xE000002C]) _ :=
    .snoc (.snoc (.snoc .nil (.get rfl)) (.get rfl)) (.free hfree rfl)
  have hdiscipline := free_list_discipline happly (by decide) (by decide)
    (by decide) (by decide) hrun
  exact ⟨_, _, happly, hrun, hdiscipline⟩

end Slab
end OS32
