import OS32.SwapList

/-!
# Reference counts

The entries of an address space are seen through `frameAt`, the frame a page is
mapped to.  Every call changes it at one page at most, so that what the call
does to the counts can be compared with one update of a function.
-/

namespace OS32

open Transition Vm

namespace RefCount

/-! ## Counting the points of a function -/

section Counting

variable {α β : Type*} [Fintype α] [DecidableEq α] [DecidableEq β]

/-- How many points are mapped to `y`. -/
def fiber (f : α → β) (y : β) : ℕ := (Finset.univ.filter fun x => f x = y).card

theorem fiber_update (f : α → β) (a : α) (b y : β) :
    fiber (Function.update f a b) y + (if f a = y then 1 else 0) =
      fiber f y + (if b = y then 1 else 0) := by
  unfold fiber
  rw [Finset.card_filter, Finset.card_filter,
    ← Finset.add_sum_erase _ _ (Finset.mem_univ a),
    ← Finset.add_sum_erase _ (fun x => if f x = y then 1 else 0)
      (Finset.mem_univ a)]
  have hrest :
      ∑ x ∈ Finset.univ.erase a,
          (if Function.update f a b x = y then 1 else 0) =
        ∑ x ∈ Finset.univ.erase a, (if f x = y then 1 else 0) := by
    apply Finset.sum_congr rfl
    intro x hx
    rw [Function.update_of_ne (Finset.ne_of_mem_erase hx)]
  rw [hrest, Function.update_self]
  omega

omit [DecidableEq α] in
theorem fiber_le_card (f : α → β) (y : β) : fiber f y ≤ Fintype.card α :=
  Finset.card_le_univ _

omit [DecidableEq α] in
theorem fiber_pos {f : α → β} {a : α} {y : β} (ha : f a = y) :
    0 < fiber f y :=
  Finset.card_pos.mpr ⟨a, Finset.mem_filter.mpr ⟨Finset.mem_univ a, ha⟩⟩

end Counting

/-! ## What a frame is referred to by -/

/-- The number of a virtual page. -/
abbrev PageNo := Fin (2 ^ 20)

def pageOf (v : Uint) : PageNo :=
  ⟨v.toNat / 4096, by have hv := v.isLt; omega⟩

def pageAt (q : PageNo) : Uint := BitVec.ofNat 32 (4096 * q)

theorem samePage_pageAt {q : PageNo} {v : Uint} :
    SamePage (pageAt q) v ↔ q = pageOf v := by
  have hq := q.isLt
  rw [SamePage, ← BitVec.toNat_inj, toNat_and_pageMask, toNat_and_pageMask,
    pageAt, BitVec.toNat_ofNat, Fin.ext_iff, pageOf]
  dsimp only
  omega

/-- The index of the frame with the address `pa`, if it is one of those
`init_pages` recorded. -/
def managedIndex (s : Pmm) (pa : Uint) : Option ℕ :=
  if findPageIndex s pa < s.phyPageNum then some (findPageIndex s pa) else none

/-- The frame a present entry points to. -/
def frameOf (s : Pmm) (entry : Uint) : Option ℕ :=
  if entry &&& PTE_P = 0 then none else managedIndex s (entry &&& PAGE_MASK)

def frameAt (vm : Vm) (q : PageNo) : Option ℕ :=
  frameOf vm.pmm (vm.entryOf (pageAt q))

/-- The frame is a page table. -/
def IsTable (vm : Vm) (i : ℕ) : Prop :=
  ∃ a, vm.tableOf a = vm.pmm.startAddr (some i)

instance (vm : Vm) (i : ℕ) : Decidable (IsTable vm i) :=
  decidable_of_iff _ exists_tableOf_iff.symm

/-- How many present entries point to the frame. -/
def pointers (vm : Vm) (i : ℕ) : ℕ := fiber (frameAt vm) (some i)

/-- The present entries that point to the frame, plus one if it is a page
table. -/
def references (vm : Vm) (i : ℕ) : ℕ :=
  pointers vm i + if IsTable vm i then 1 else 0

/-- The count of each frame is right, where `base` entries to the frame were
there before anybody counted: those of the kernel's own mapping. -/
def Balanced (base : ℕ → ℕ) (vm : Vm) : Prop :=
  ∀ i < vm.pmm.phyPageNum,
    (vm.pmm.refNum (some i)).toNat + base i = references vm i

/-! ## Calls -/

inductive Call where
  | alloc (n : Uint)
  | map (flags p v : Uint)
  | unmap (v : Uint)
  | swapOut (n : ℕ)
  | swapIn (va flags : Uint)
  /-- `sw_manager.map_swappable`, which makes a page a victim for `swap_out`. -/
  | mapSwappable (page : PagePtr)

def call (vm : Vm) : Call → Except Fault Vm
  | .alloc n => (vm.allocPages n).map Prod.snd
  | .map flags p v => (vm.map flags p v).map Prod.snd
  | .unmap v => .ok (vm.unmap v)
  | .swapOut n => (vm.swapOut n).map Prod.snd
  | .swapIn va flags => (vm.swapIn va flags).map fun r => r.2.2
  | .mapSwappable page => vm.mapSwappable page

/-- A call that returns. -/
def Step (vm : Vm) (c : Call) (vm' : Vm) : Prop := call vm c = .ok vm'

/-- The frame whose count goes down when a reference to the page `pg` is
dropped. -/
def released (s : Pmm) (pg : ℕ) : Option ℕ :=
  if pg < s.phyPageNum ∧ 0 < s.refNum (some pg) then some pg else none

/-- The frame `alloc_pages(1)` hands out is a recorded one and not a page
table already. -/
def TableFits (vm : Vm) : Prop :=
  ∀ pg vm₁, vm.allocPages 1 = .ok (pg, vm₁) →
    ∃ i < vm.pmm.phyPageNum, pg = some i ∧ ¬ IsTable vm i

/-- `map` writes over no present entry of a frame, the entry it writes is
present and points to the frame it counts, and the page table is there or
`alloc_pages` has a frame for it. -/
structure MapFits (vm : Vm) (flags p v : Uint) : Prop where
  old : frameOf vm.pmm (vm.entryOf v) = none
  new : frameOf vm.pmm (p &&& PAGE_MASK ||| flags) = managedIndex vm.pmm p
  table : vm.tableOf v = 0 → TableFits vm

/-- When a call keeps the counts right. -/
def Fits (vm : Vm) : Call → Prop
  | .alloc _ => True
  | .map flags p v => MapFits vm flags p v
  | .unmap v =>
      vm.tableOf v = 0 ∨ frameOf vm.pmm (vm.entryOf v) =
        released vm.pmm (findPageIndex vm.pmm (vm.entryOf v &&& PAGE_MASK))
  | .swapOut n =>
      n = 0 ∨ ∀ page, Victim vm.pmm vm.clockPoint page →
        frameOf vm.pmm (vm.entryOf (vm.pmm.va (some page))) =
          released vm.pmm page
  | .swapIn va flags =>
      ∀ pg vm₁, vm.allocPages 1 = .ok (pg, vm₁) →
        MapFits vm₁ flags (vm₁.pmm.startAddr pg) (roundDown va)
  | .mapSwappable _ => True

/-! ## One entry at a time -/

/-- What the counts rely on: page tables do not overlap, `FindPageIndex` finds
every recorded frame, and `getpte` every page table. -/
structure Sound (vm : Vm) : Prop where
  tables : TablesDistinct vm
  found : ∀ i < vm.pmm.phyPageNum,
    findPageIndex vm.pmm (vm.pmm.startAddr (some i)) = i
  frame : ∀ i < vm.pmm.phyPageNum, Pmm.FrameAddr (vm.pmm.startAddr (some i))
  reached : ∀ a, (vm.getpte a).2 = true

variable {vm vm' : Vm} {base : ℕ → ℕ}

section Frames

theorem managedIndex_congr {s t : Pmm} (hstart : t.startAddr = s.startAddr)
    (hnum : t.phyPageNum = s.phyPageNum) (pa : Uint) :
    managedIndex t pa = managedIndex s pa := by
  unfold managedIndex
  rw [findPageIndex_congr hstart, hnum]

theorem frameOf_congr {s t : Pmm} (hstart : t.startAddr = s.startAddr)
    (hnum : t.phyPageNum = s.phyPageNum) (entry : Uint) :
    frameOf t entry = frameOf s entry := by
  unfold frameOf
  rw [managedIndex_congr hstart hnum]

theorem frameOf_zero (s : Pmm) : frameOf s 0 = none := rfl

theorem frameOf_notPresent (s : Pmm) (entry : Uint) :
    frameOf s (entry &&& ~~~PTE_P) = none := by
  have hbit : entry &&& ~~~PTE_P &&& PTE_P = 0 := by
    have hzero : ~~~PTE_P &&& PTE_P = 0#32 := by decide
    rw [BitVec.and_assoc, hzero]
    exact BitVec.and_zero
  rw [frameOf, if_pos hbit]

theorem managedIndex_lt {s : Pmm} {pa : Uint} {i : ℕ}
    (hindex : managedIndex s pa = some i) : i < s.phyPageNum := by
  unfold managedIndex at hindex
  split at hindex
  · obtain rfl := Option.some.inj hindex
    assumption
  · cases hindex

theorem managedIndex_eq_some_iff {s : Pmm} {pa : Uint} {i : ℕ}
    (hi : i < s.phyPageNum) :
    managedIndex s pa = some i ↔ findPageIndex s pa = i := by
  unfold managedIndex
  split
  · exact Option.some_inj
  next hlarge =>
    constructor
    · intro h
      cases h
    · rintro rfl
      exact absurd hi hlarge

theorem frameOf_lt {s : Pmm} {entry : Uint} {i : ℕ}
    (hframe : frameOf s entry = some i) : i < s.phyPageNum := by
  unfold frameOf at hframe
  split at hframe
  · cases hframe
  · exact managedIndex_lt hframe

theorem frameAt_congr (hentry : ∀ a, vm'.entryOf a = vm.entryOf a)
    (hstart : vm'.pmm.startAddr = vm.pmm.startAddr)
    (hnum : vm'.pmm.phyPageNum = vm.pmm.phyPageNum) :
    frameAt vm' = frameAt vm := by
  funext q
  rw [frameAt, frameAt, hentry, frameOf_congr hstart hnum]

theorem frameAt_pageOf (vm : Vm) (v : Uint) :
    frameAt vm (pageOf v) = frameOf vm.pmm (vm.entryOf v) := by
  rw [frameAt, entryOf_congr (samePage_pageAt.mpr rfl)]

theorem frameAt_store (htables : TablesDistinct vm) {v : Uint}
    (htable : vm.tableOf v ≠ 0) (w : Uint) :
    frameAt (vm.store (pteAddr (vm.tableOf v) v) w) =
      Function.update (frameAt vm) (pageOf v) (frameOf vm.pmm w) := by
  funext q
  rw [frameAt, entryOf_store htables htable]
  by_cases hq : q = pageOf v
  · rw [if_pos (samePage_pageAt.mpr hq), hq, Function.update_self]
    rfl
  · rw [if_neg (fun h => hq (samePage_pageAt.mp h)), Function.update_of_ne hq]
    rfl

/-- Writing behind a missing page table changes no entry. -/
theorem frameAt_store_missing {v : Uint} (hmissing : vm.tableOf v = 0)
    (w : Uint) :
    frameAt (vm.store (pteAddr (vm.tableOf v) v) w) = frameAt vm := by
  funext q
  have hentry : (vm.store (pteAddr (vm.tableOf v) v) w).entryOf (pageAt q) =
      vm.entryOf (pageAt q) := by
    have hsame : (vm.store (pteAddr (vm.tableOf v) v) w).tableOf (pageAt q) =
        vm.tableOf (pageAt q) := rfl
    unfold entryOf
    rw [hsame]
    by_cases hzero : vm.tableOf (pageAt q) = 0
    · rw [if_pos hzero, if_pos hzero]
    · rw [if_neg hzero, if_neg hzero]
      have haddr : pteAddr (vm.tableOf (pageAt q)) (pageAt q) ≠
          pteAddr (vm.tableOf v) v := by
        intro heq
        have htab := ((pteAddr_inj (vm.tableOf_aligned _)
          (vm.tableOf_aligned _)).mp heq).1
        exact hzero (htab.trans hmissing)
      simp [store, haddr]
  rw [frameAt, hentry]
  rfl

end Frames

/-! ## Counts -/

theorem references_le (vm : Vm) (i : ℕ) : references vm i ≤ 2 ^ 20 + 1 := by
  have hcard : pointers vm i ≤ 2 ^ 20 :=
    (fiber_le_card _ _).trans_eq (Fintype.card_fin _)
  unfold references
  split <;> omega

theorem Balanced.refNum_lt (hvm : Balanced base vm) {i : ℕ}
    (hi : i < vm.pmm.phyPageNum) :
    (vm.pmm.refNum (some i)).toNat ≤ 2 ^ 20 + 1 := by
  have hle := references_le vm i
  have hcount := hvm i hi
  omega

/-- The counts stay right when one entry is changed iff they follow the frames
it pointed to and points to. -/
theorem Balanced.update_iff (hvm : Balanced base vm) {q : PageNo}
    {new : Option ℕ}
    (hframes : frameAt vm' = Function.update (frameAt vm) q new)
    (htable : ∀ i, IsTable vm' i ↔ IsTable vm i)
    (hnum : vm'.pmm.phyPageNum = vm.pmm.phyPageNum) :
    Balanced base vm' ↔ ∀ i < vm.pmm.phyPageNum,
      (vm'.pmm.refNum (some i)).toNat +
          (if frameAt vm q = some i then 1 else 0) =
        (vm.pmm.refNum (some i)).toNat + (if new = some i then 1 else 0) := by
  unfold Balanced
  rw [hnum]
  refine forall₂_congr fun i hi => ?_
  have hcount := hvm i hi
  have hfiber : pointers vm' i + (if frameAt vm q = some i then 1 else 0) =
      pointers vm i + (if new = some i then 1 else 0) := by
    unfold pointers
    rw [hframes]
    exact fiber_update (frameAt vm) q new (some i)
  unfold references at hcount ⊢
  simp only [htable]
  omega

theorem Balanced.congr (hvm : Balanced base vm)
    (hframes : frameAt vm' = frameAt vm)
    (htable : ∀ i, IsTable vm' i ↔ IsTable vm i)
    (hnum : vm'.pmm.phyPageNum = vm.pmm.phyPageNum)
    (hrefs : ∀ i < vm.pmm.phyPageNum,
      vm'.pmm.refNum (some i) = vm.pmm.refNum (some i)) :
    Balanced base vm' := by
  intro i hi
  rw [hnum] at hi
  rw [hrefs i hi, hvm i hi, references, references, pointers, pointers, hframes]
  simp only [htable]

theorem released_lt {s : Pmm} {pg i : ℕ} (hi : released s pg = some i) :
    i < s.phyPageNum := by
  unfold released at hi
  split at hi
  next hpg =>
    obtain rfl := Option.some.inj hi
    exact hpg.1
  next => cases hi

theorem released_congr {s t : Pmm} (hnum : t.phyPageNum = s.phyPageNum)
    (hrefs : t.refNum = s.refNum) (pg : ℕ) : released t pg = released s pg := by
  rw [released, released, hnum, hrefs]

theorem frameOf_eq_released_congr (vm vm' : Vm) (hpgd : vm'.pgd = vm.pgd)
    (hmem : vm'.mem = vm.mem) (hmembers : vm'.pmm.members = vm.pmm.members)
    {a : Uint} {pg : ℕ}
    (hreleased : frameOf vm.pmm (vm.entryOf a) = released vm.pmm pg) :
    frameOf vm'.pmm (vm'.entryOf a) = released vm'.pmm pg := by
  have hnum := Pmm.phyPageNum_eq hmembers
  rw [frameOf_congr (Pmm.startAddr_eq hmembers) hnum, entryOf_eq hpgd hmem,
    released_congr hnum (Pmm.refNum_eq hmembers), hreleased]

/-- Dropping a reference lowers the count of the released frame. -/
theorem dropRef_count (s : Pmm) (pg : ℕ) {i : ℕ} (hi : i < s.phyPageNum) :
    ((dropRef s pg).refNum (some i)).toNat +
        (if released s pg = some i then 1 else 0) =
      (s.refNum (some i)).toNat := by
  unfold dropRef released
  by_cases hpos : 0 < s.refNum (some pg)
  · by_cases hpg : pg = i
    · subst hpg
      have hboth : pg < s.phyPageNum ∧ 0 < s.refNum (some pg) := ⟨hi, hpos⟩
      rw [if_pos hpos, if_pos hboth, if_pos rfl]
      simp only [Pmm.setRefNum, Function.update_self]
      bv_omega
    · have hreleased : (if pg < s.phyPageNum ∧ 0 < s.refNum (some pg) then
          some pg else none) ≠ some i := by
        split
        · simpa using hpg
        · simp
      rw [if_pos hpos, if_neg hreleased]
      simp [Pmm.setRefNum, Ne.symm hpg]
  · rw [if_neg hpos, if_neg (by rw [if_neg (fun h => hpos h.2)]; simp)]
    rfl

/-- Taking a reference raises the count of its frame, which does not wrap. -/
theorem Balanced.raise_count (hvm : Balanced base vm) (pg : ℕ) {i : ℕ}
    (hi : i < vm.pmm.phyPageNum) :
    ((vm.pmm.setRefNum (some pg) (vm.pmm.refNum (some pg) + 1)).refNum
        (some i)).toNat =
      (vm.pmm.refNum (some i)).toNat + (if pg = i then 1 else 0) := by
  by_cases hpg : pg = i
  · subst hpg
    have hsmall := hvm.refNum_lt hi
    rw [if_pos rfl]
    simp only [Pmm.setRefNum, Function.update_self]
    bv_omega
  · rw [if_neg hpg]
    simp [Pmm.setRefNum, Ne.symm hpg]

/-! ## Steps -/

structure Counted (base : ℕ → ℕ) (vm : Vm) : Prop where
  sound : Sound vm
  balanced : Balanced base vm

theorem isTable_congr (hpgd : vm'.pgd = vm.pgd)
    (hstart : vm'.pmm.startAddr = vm.pmm.startAddr) (i : ℕ) :
    IsTable vm' i ↔ IsTable vm i := by
  unfold IsTable tableOf
  rw [hpgd, hstart]

theorem Sound.congr (hvm : Sound vm) (hpgd : vm'.pgd = vm.pgd)
    (hstart : vm'.pmm.startAddr = vm.pmm.startAddr)
    (hnum : vm'.pmm.phyPageNum = vm.pmm.phyPageNum) : Sound vm' := by
  have htableOf : ∀ a, vm'.tableOf a = vm.tableOf a := by
    intro a
    rw [tableOf, tableOf, hpgd]
  refine ⟨fun a b hne heq => ?_, fun i hi => ?_, fun i hi => ?_, fun a => ?_⟩
  · rw [htableOf] at hne
    rw [htableOf, htableOf] at heq
    exact hvm.tables a b hne heq
  · rw [hnum] at hi
    rw [findPageIndex_congr hstart, hstart]
    exact hvm.found i hi
  · rw [hnum] at hi
    rw [hstart]
    exact hvm.frame i hi
  · rw [getpte_flag_iff, htableOf]
    exact (getpte_flag_iff vm a).mp (hvm.reached a)

/-- Nothing the counts depend on has changed. -/
theorem Counted.congr (hvm : Counted base vm) (hpgd : vm'.pgd = vm.pgd)
    (hmem : vm'.mem = vm.mem) (hmembers : vm'.pmm.members = vm.pmm.members) :
    Counted base vm' := by
  have hstart := Pmm.startAddr_eq hmembers
  have hnum := Pmm.phyPageNum_eq hmembers
  refine ⟨hvm.sound.congr hpgd hstart hnum, hvm.balanced.congr ?_
    (isTable_congr hpgd hstart) hnum fun i _ => ?_⟩
  · exact frameAt_congr (entryOf_eq hpgd hmem) hstart hnum
  · rw [Pmm.refNum_eq hmembers]

theorem Counted.allocPages (hvm : Counted base vm) {n : Uint} {pg : PagePtr}
    (halloc : vm.allocPages n = .ok (pg, vm')) : Counted base vm' := by
  obtain ⟨t, rfl, hmembers⟩ := allocPages_cases halloc
  exact hvm.congr rfl rfl hmembers

theorem managed_eq_iff {s : Pmm} {x y : Option ℕ}
    (hx : ∀ i, x = some i → i < s.phyPageNum)
    (hy : ∀ i, y = some i → i < s.phyPageNum) :
    (∀ i < s.phyPageNum, (x = some i ↔ y = some i)) ↔ x = y := by
  constructor
  · intro hsame
    cases x with
    | none =>
        cases y with
        | none => rfl
        | some j => exact ((hsame j (hy j rfl)).mpr rfl)
    | some i => exact ((hsame i (hx i rfl)).mp rfl).symm
  · rintro rfl i _
    rfl

/-- `map` with its page table and an entry that is counted keeps the counts
right iff it writes over no present entry of a frame. -/
theorem Counted.balanced_entered_iff (hvm : Counted base vm) {flags p v : Uint}
    (htable : vm.tableOf v ≠ 0)
    (hnew : frameOf vm.pmm (p &&& PAGE_MASK ||| flags) =
      managedIndex vm.pmm p) :
    Balanced base (vm.entered (some (findPageIndex vm.pmm p))
        (p &&& PAGE_MASK ||| flags) v (vm.tableOf v)) ↔
      frameOf vm.pmm (vm.entryOf v) = none := by
  have hframes : frameAt (vm.entered (some (findPageIndex vm.pmm p))
      (p &&& PAGE_MASK ||| flags) v (vm.tableOf v)) =
        Function.update (frameAt vm) (pageOf v) (managedIndex vm.pmm p) := by
    rw [← hnew, ← frameAt_store hvm.sound.tables htable]
    exact frameAt_congr (entryOf_setPmm _ _) rfl rfl
  rw [hvm.balanced.update_iff hframes (isTable_congr rfl rfl) rfl,
    ← managed_eq_iff (s := vm.pmm) (fun _ => frameOf_lt)
      (fun i h => by cases h), frameAt_pageOf]
  refine forall₂_congr fun i hi => ?_
  have hraise := hvm.balanced.raise_count (findPageIndex vm.pmm p) hi
  simp only [managedIndex_eq_some_iff hi]
  have hrefs : (vm.entered (some (findPageIndex vm.pmm p))
      (p &&& PAGE_MASK ||| flags) v (vm.tableOf v)).pmm.refNum (some i) =
        (vm.pmm.setRefNum (some (findPageIndex vm.pmm p))
          (vm.pmm.refNum (some (findPageIndex vm.pmm p)) + 1)).refNum
            (some i) := rfl
  rw [hrefs, hraise]
  by_cases hold : frameOf vm.pmm (vm.entryOf v) = some i
  · simp [hold]
  · simp [hold]

theorem Counted.entered (hvm : Counted base vm) (flags p v : Uint)
    (htable : vm.tableOf v ≠ 0) (hold : frameOf vm.pmm (vm.entryOf v) = none)
    (hnew : frameOf vm.pmm (p &&& PAGE_MASK ||| flags) =
      managedIndex vm.pmm p) :
    Counted base (vm.entered (some (findPageIndex vm.pmm p))
      (p &&& PAGE_MASK ||| flags) v (vm.tableOf v)) :=
  ⟨hvm.sound.congr rfl rfl rfl,
    (hvm.balanced_entered_iff htable hnew).mpr hold⟩

theorem frame_ne_zero {a : Uint} (ha : Pmm.FrameAddr a) : a ≠ 0 := by
  have hlow := ha.low
  rintro rfl
  simp at hlow

/-- The frame for a new page table. -/
theorem Sound.fresh (hvm : Sound vm) {i : ℕ}
    (hi : i < vm.pmm.phyPageNum) (hnot : ¬ IsTable vm i) :
    FreshTable vm (vm.pmm.startAddr (some i)) := by
  have hframe := hvm.frame i hi
  exact ⟨hframe.aligned, frame_ne_zero hframe, fun a ha => hnot ⟨a, ha⟩⟩

theorem Sound.claimTable (hvm : Sound vm) {i : ℕ} {v : Uint}
    (hi : i < vm.pmm.phyPageNum)
    (hfresh : FreshTable vm (vm.pmm.startAddr (some i))) :
    Sound (vm.claimTable (some i) v) := by
  have hstart := vm.claimTable_startAddr (some i) v
  refine ⟨withTable_tablesDistinct hvm.tables hfresh, fun j hj => ?_, hvm.frame,
    fun a => ?_⟩
  · rw [findPageIndex_congr hstart, hstart]
    exact hvm.found j hj
  rw [getpte_flag_iff]
  have htableOf : (vm.claimTable (some i) v).tableOf a =
      if pgdIdx a = pgdIdx v then vm.pmm.startAddr (some i)
      else vm.tableOf a := withTable_tableOf hfresh a
  rw [htableOf]
  split
  · have hhigh := (hvm.frame i hi).high
    generalize vm.pmm.startAddr (some i) = frame at hhigh
    unfold PAGE_OFFSET
    bv_omega
  · exact (getpte_flag_iff vm a).mp (hvm.reached a)

/-- A new page table adds no entry and counts as one reference to its
frame. -/
theorem Counted.claimTable (hvm : Counted base vm) {i : ℕ} {v : Uint}
    (hmissing : vm.tableOf v = 0) (hi : i < vm.pmm.phyPageNum)
    (hnot : ¬ IsTable vm i) : Counted base (vm.claimTable (some i) v) := by
  have hfresh := hvm.sound.fresh hi hnot
  refine ⟨hvm.sound.claimTable hi hfresh, fun j hj => ?_⟩
  have htableOf : ∀ a, (vm.claimTable (some i) v).tableOf a =
      if pgdIdx a = pgdIdx v then vm.pmm.startAddr (some i)
      else vm.tableOf a := withTable_tableOf hfresh
  have hpointers : pointers (vm.claimTable (some i) v) j = pointers vm j := by
    have hframes : frameAt (vm.claimTable (some i) v) = frameAt vm := by
      have hentry : ∀ a, (vm.claimTable (some i) v).entryOf a =
          vm.entryOf a := withTable_entryOf hmissing hfresh
      exact frameAt_congr hentry rfl rfl
    rw [pointers, hframes, pointers]
  have hcount : ((vm.claimTable (some i) v).pmm.refNum (some j)).toNat =
      (vm.pmm.refNum (some j)).toNat + (if i = j then 1 else 0) :=
    hvm.balanced.raise_count i hj
  have hbalanced := hvm.balanced j hj
  have htables : IsTable (vm.claimTable (some i) v) j ↔
      IsTable vm j ∨ i = j := by
    have hstart : (vm.claimTable (some i) v).pmm.startAddr (some j) =
        vm.pmm.startAddr (some j) := rfl
    unfold IsTable
    rw [hstart]
    constructor
    · rintro ⟨a, ha⟩
      rw [htableOf] at ha
      split at ha
      · right
        rw [← hvm.sound.found i hi, ← hvm.sound.found j hj, ha]
      · exact Or.inl ⟨a, ha⟩
    · rintro (⟨a, ha⟩ | rfl)
      · refine ⟨a, ?_⟩
        rw [htableOf, if_neg, ha]
        intro hidx
        apply frame_ne_zero (hvm.sound.frame j hj)
        rw [← ha, tableOf_congr hidx, hmissing]
      · exact ⟨v, by rw [htableOf, if_pos rfl]⟩
  unfold references at hbalanced ⊢
  rw [hcount, hpointers]
  by_cases hij : i = j
  · subst hij
    rw [if_pos rfl, if_pos (htables.mpr (Or.inr rfl))]
    rw [if_neg hnot] at hbalanced
    omega
  · simp only [hij, or_false] at htables
    simp only [htables, hij, if_false, add_zero]
    exact hbalanced

/-- `map` with a new page table. -/
theorem Counted.enteredTable (hvm : Counted base vm) {flags p v : Uint} {i : ℕ}
    (hmissing : vm.tableOf v = 0) (hi : i < vm.pmm.phyPageNum)
    (hnot : ¬ IsTable vm i) (hold : frameOf vm.pmm (vm.entryOf v) = none)
    (hnew : frameOf vm.pmm (p &&& PAGE_MASK ||| flags) =
      managedIndex vm.pmm p) :
    Counted base ((vm.claimTable (some i) v).entered
      (some (findPageIndex vm.pmm p)) (p &&& PAGE_MASK ||| flags) v
      (vm.pmm.startAddr (some i))) := by
  have hfresh := hvm.sound.fresh hi hnot
  have hclaimed := hvm.claimTable (v := v) hmissing hi hnot
  have htableOf : (vm.claimTable (some i) v).tableOf v =
      vm.pmm.startAddr (some i) :=
    (withTable_tableOf hfresh v).trans (if_pos rfl)
  have hentry : (vm.claimTable (some i) v).entryOf v = vm.entryOf v :=
    withTable_entryOf hmissing hfresh v
  have hstart := vm.claimTable_startAddr (some i) v
  have hentered := hclaimed.entered flags p v
  rw [htableOf, hentry, frameOf_congr hstart rfl, frameOf_congr hstart rfl,
    managedIndex_congr hstart rfl, findPageIndex_congr hstart] at hentered
  exact hentered hfresh.ne_zero hold hnew

theorem Counted.map (hvm : Counted base vm) {flags p v : Uint} {pg : PagePtr}
    (hfits : MapFits vm flags p v) (hrun : vm.map flags p v = .ok (pg, vm')) :
    Counted base vm' := by
  obtain ⟨rfl, ⟨htable, rfl⟩ | ⟨hmissing, q, vm₁, halloc, rfl⟩⟩ :=
    map_cases hrun
  · exact hvm.entered _ _ _ htable hfits.old hfits.new
  · obtain ⟨i, hi, rfl, hnot⟩ := hfits.table hmissing q vm₁ halloc
    have hvm₁ := hvm.allocPages halloc
    obtain ⟨t, rfl, hmembers⟩ := allocPages_cases halloc
    have hstart : (vm.setPmm t).pmm.startAddr = vm.pmm.startAddr :=
      Pmm.startAddr_eq hmembers
    have hnum : (vm.setPmm t).pmm.phyPageNum = vm.pmm.phyPageNum :=
      Pmm.phyPageNum_eq hmembers
    rw [← findPageIndex_congr hstart]
    apply hvm₁.enteredTable hmissing (hi.trans_eq hnum.symm)
    · have hpgd : (vm.setPmm t).pgd = vm.pgd := rfl
      rw [isTable_congr hpgd hstart]
      exact hnot
    · rw [frameOf_congr hstart hnum]
      exact hfits.old
    · rw [frameOf_congr hstart hnum, managedIndex_congr hstart hnum]
      exact hfits.new

theorem map_of_table (flags p : Uint) {v : Uint} (htable : vm.tableOf v ≠ 0) :
    vm.map flags p v = .ok (some (findPageIndex vm.pmm p),
      vm.entered (some (findPageIndex vm.pmm p)) (p &&& PAGE_MASK ||| flags) v
        (vm.tableOf v)) := by
  unfold Vm.map
  rw [if_neg htable]
  exact congrArg Except.ok (enter_eq_entered _ _ _ _ _)

theorem unmap_eq {v : Uint} (htable : vm.tableOf v ≠ 0) :
    vm.unmap v =
      let pg := findPageIndex vm.pmm (vm.entryOf v &&& PAGE_MASK)
      (vm.store (pteAddr (vm.tableOf v) v) 0).setPmm
        ((dropRef vm.pmm pg).setVa (some pg) 0) := by
  have hentry : vm.entryOf v = vm.mem (pteAddr (vm.tableOf v) v) :=
    if_neg htable
  unfold unmap
  rw [if_neg htable, hentry]
  rfl

/-- An entry is cleared and a reference dropped: the counts stay right iff both
are to the same frame. -/
theorem Counted.balanced_clear_iff (hvm : Counted base vm) {v w : Uint} {pg : ℕ}
    {t : Pmm} (hstart : t.startAddr = vm.pmm.startAddr)
    (hnum : t.phyPageNum = vm.pmm.phyPageNum)
    (hrefs : t.refNum = (dropRef vm.pmm pg).refNum)
    (hw : frameOf vm.pmm w = none) :
    Balanced base ((vm.store (pteAddr (vm.tableOf v) v) w).setPmm t) ↔
      frameOf vm.pmm (vm.entryOf v) = released vm.pmm pg := by
  have hframes : frameAt ((vm.store (pteAddr (vm.tableOf v) v) w).setPmm t) =
      Function.update (frameAt vm) (pageOf v) none := by
    have hpmm : frameAt ((vm.store (pteAddr (vm.tableOf v) v) w).setPmm t) =
        frameAt (vm.store (pteAddr (vm.tableOf v) v) w) :=
      frameAt_congr (entryOf_setPmm _ t) hstart hnum
    rw [hpmm]
    by_cases htable : vm.tableOf v = 0
    · have hnone : frameAt vm (pageOf v) = none := by
        rw [frameAt_pageOf, entryOf, if_pos htable, frameOf_zero]
      rw [frameAt_store_missing htable, ← hnone, Function.update_eq_self]
    · rw [frameAt_store hvm.sound.tables htable, hw]
  rw [hvm.balanced.update_iff hframes (isTable_congr rfl hstart) hnum,
    ← managed_eq_iff (s := vm.pmm) (fun _ => frameOf_lt)
      (fun _ => released_lt), frameAt_pageOf]
  refine forall₂_congr fun i hi => ?_
  have hcount := dropRef_count vm.pmm pg hi
  rw [← hrefs] at hcount
  have hsame : ((vm.store (pteAddr (vm.tableOf v) v) w).setPmm t).pmm = t := rfl
  rw [hsame, ← hcount, if_neg (Option.some_ne_none i).symm]
  by_cases hold : frameOf vm.pmm (vm.entryOf v) = some i <;>
    by_cases hreleased : released vm.pmm pg = some i <;>
    simp [hold, hreleased]

theorem Counted.clear (hvm : Counted base vm) {v w : Uint} {pg : ℕ} {t : Pmm}
    (hstart : t.startAddr = vm.pmm.startAddr)
    (hnum : t.phyPageNum = vm.pmm.phyPageNum)
    (hrefs : t.refNum = (dropRef vm.pmm pg).refNum)
    (hw : frameOf vm.pmm w = none)
    (hreleased : frameOf vm.pmm (vm.entryOf v) = released vm.pmm pg) :
    Counted base ((vm.store (pteAddr (vm.tableOf v) v) w).setPmm t) :=
  ⟨hvm.sound.congr rfl hstart hnum,
    (hvm.balanced_clear_iff hstart hnum hrefs hw).mpr hreleased⟩

theorem dropRef_members (s : Pmm) (pg : ℕ) :
    (dropRef s pg).startAddr = s.startAddr ∧
      (dropRef s pg).phyPageNum = s.phyPageNum := by
  obtain ⟨v, hdrop⟩ := dropRef_eq s pg
  rw [hdrop]
  exact ⟨rfl, rfl⟩

theorem Counted.unmap (hvm : Counted base vm) {v : Uint}
    (hfits : Fits vm (.unmap v)) : Counted base (vm.unmap v) := by
  by_cases htable : vm.tableOf v = 0
  · rw [Vm.unmap, if_pos htable]
    exact hvm
  · rw [unmap_eq htable]
    obtain ⟨hstart, hnum⟩ := dropRef_members vm.pmm
      (findPageIndex vm.pmm (vm.entryOf v &&& PAGE_MASK))
    exact hvm.clear hstart hnum rfl (frameOf_zero _)
      (hfits.resolve_left htable)

theorem Counted.swapOut (hvm : Counted base vm) {n r : ℕ}
    (hfits : Fits vm (.swapOut n)) (hrun : vm.swapOut n = .ok (r, vm')) :
    Counted base vm' := by
  rcases swapOut_cases hrun with ⟨_, rfl⟩ | ⟨hn, page, hvictim, hcase⟩
  · exact hvm
  · have hturned : Counted base (vm.turned page) := hvm.congr rfl rfl rfl
    rcases hcase with ⟨_, rfl⟩ | ⟨_, pte, _, _, hevict⟩
    · exact hturned
    · have hreleased := hfits.resolve_left hn page hvictim
      obtain ⟨t, hfree, rfl⟩ := evict_cases hevict
      have hmembers := Pmm.members_freeBuddy hfree
      obtain ⟨hstart, hnum⟩ := dropRef_members (vm.turned page).pmm page
      rw [getpte_addr (hvm.sound.reached _)]
      have hwritten : ∀ io, Counted base ((vm.turned page).addIo io) :=
        fun _ => hturned.congr rfl rfl rfl
      have hkept : ∀ io,
          frameOf ((vm.turned page).addIo io).pmm
            (((vm.turned page).addIo io).entryOf (vm.pmm.va (some page))) =
          released ((vm.turned page).addIo io).pmm page :=
        fun io => frameOf_eq_released_congr vm ((vm.turned page).addIo io) rfl rfl
          rfl hreleased
      exact (hwritten _).clear ((Pmm.startAddr_eq hmembers).trans hstart)
        ((Pmm.phyPageNum_eq hmembers).trans hnum) (Pmm.refNum_eq hmembers)
        (frameOf_notPresent _ _) (hkept _)

theorem Counted.swapIn (hvm : Counted base vm) {va flags : Uint} {r : ℕ}
    {p : PagePtr} (hfits : Fits vm (.swapIn va flags))
    (hrun : vm.swapIn va flags = .ok (r, p, vm')) : Counted base vm' := by
  obtain ⟨_, pg, vm₁, vm₂, vm₃, halloc, _, htable, hmap, rfl⟩ :=
    swapIn_cases hrun
  have hvm₁ := hvm.allocPages halloc
  obtain ⟨_, rfl⟩ | ⟨hflag, _⟩ := ensureTable_cases htable
  · have hvm₃ := hvm₁.map (hfits pg _ halloc) hmap
    exact hvm₃.congr rfl rfl rfl
  · rw [hvm₁.sound.reached] at hflag
    cases hflag

theorem Counted.mapSwappable (hvm : Counted base vm) {page : PagePtr}
    (hrun : vm.mapSwappable page = .ok vm') : Counted base vm' := by
  rcases mapSwappable_cases hrun with ⟨_, rfl⟩ | ⟨_, last, _, rfl⟩
  · exact hvm.congr rfl rfl rfl
  · exact hvm.congr rfl rfl rfl

theorem Counted.step (hvm : Counted base vm) {c : Call}
    (hstep : Step vm c vm') (hfits : Fits vm c) : Counted base vm' := by
  cases c with
  | alloc n =>
      obtain ⟨⟨pg, vm₁⟩, halloc, rfl⟩ := map_ok_iff.mp hstep
      exact hvm.allocPages halloc
  | map flags p v =>
      obtain ⟨⟨pg, vm₁⟩, hrun, rfl⟩ := map_ok_iff.mp hstep
      exact hvm.map hfits hrun
  | unmap v =>
      obtain rfl := Except.ok.inj hstep
      exact hvm.unmap hfits
  | swapOut n =>
      obtain ⟨⟨r, vm₁⟩, hrun, rfl⟩ := map_ok_iff.mp hstep
      exact hvm.swapOut hfits hrun
  | swapIn va flags =>
      obtain ⟨⟨r, p, vm₁⟩, hrun, rfl⟩ := map_ok_iff.mp hstep
      exact hvm.swapIn hfits hrun
  | mapSwappable page => exact hvm.mapSwappable hstep

/-- A present entry points to a frame whose count is not 0. -/
theorem Counted.released_eq (hvm : Counted (fun _ => 0) vm) {v : Uint} {i : ℕ}
    (hframe : frameOf vm.pmm (vm.entryOf v) = some i) :
    released vm.pmm i = some i := by
  have hi := frameOf_lt hframe
  have hpointers : 0 < pointers vm i := by
    unfold pointers
    exact fiber_pos (a := pageOf v) (by rw [frameAt_pageOf, hframe])
  have hcount := hvm.balanced i hi
  unfold references at hcount
  have hpos : 0 < vm.pmm.refNum (some i) := by
    rw [BitVec.lt_def]
    change 0 < _
    omega
  exact if_pos ⟨hi, hpos⟩

theorem Counted.fits_unmap_of_present (hvm : Counted (fun _ => 0) vm) {v : Uint}
    (hpresent : vm.entryOf v &&& PTE_P ≠ 0) : Fits vm (.unmap v) := by
  right
  have hframe : frameOf vm.pmm (vm.entryOf v) =
      managedIndex vm.pmm (vm.entryOf v &&& PAGE_MASK) := if_neg hpresent
  by_cases hmanaged : findPageIndex vm.pmm (vm.entryOf v &&& PAGE_MASK) <
      vm.pmm.phyPageNum
  · have hsome := hframe.trans (if_pos hmanaged)
    rw [hsome, hvm.released_eq hsome]
  · rw [hframe, managedIndex, if_neg hmanaged, released,
      if_neg fun h => hmanaged h.1]

/-! ## Runs -/

theorem Counted.run (hvm : Counted base vm) {calls : List Call}
    (hrun : Run (fun vm c vm' => Step vm c vm' ∧ Fits vm c) vm calls vm') :
    Counted base vm' :=
  hrun.invariant (Counted base)
    (fun _ _ _ hvm hstep => hvm.step hstep.1 hstep.2) hvm

/-- Clients of the allocator leave the addresses of the frames alone. -/
theorem session_frames {s t : BuddySession.State} {c : BuddySession.Call}
    (hstep : BuddySession.Step s c t) :
    t.pmm.startAddr = s.pmm.startAddr ∧
      t.pmm.phyPageNum = s.pmm.phyPageNum := by
  have hcall := hstep.2
  cases c with
  | alloc memsize =>
      obtain ⟨pages, halloc, hret⟩ := bind_ok_iff.mp hcall
      have hmembers := Pmm.members_allocBuddy halloc
      split at hret <;> cases hret <;>
        exact ⟨Pmm.startAddr_eq hmembers, Pmm.phyPageNum_eq hmembers⟩
  | free pgBlk =>
      obtain ⟨pmm, hfree, hret⟩ := bind_ok_iff.mp hcall
      have hmembers := Pmm.members_freeBuddy hfree
      cases hret
      exact ⟨Pmm.startAddr_eq hmembers, Pmm.phyPageNum_eq hmembers⟩
  | use page refNum flags va =>
      cases hcall
      exact ⟨rfl, rfl⟩

theorem sound_of_boot {info : BootInfo} {low : Page} {p : Pmm}
    (hinit : Pmm.initBuddy info (.boot low) = .ok p)
    {clients : List BuddySession.Call} {held : List PagePtr}
    (hclients : Run BuddySession.Step ⟨p, []⟩ clients ⟨vm.pmm, held⟩)
    (hdistinct : Swap.DistinctFrames vm.pmm) (htables : TablesDistinct vm)
    (hreached : ∀ a, (vm.getpte a).2 = true) : Sound vm := by
  obtain ⟨free, hinitial⟩ := Pmm.initBuddy_initial hinit
  have hsame : vm.pmm.startAddr = p.startAddr ∧
      vm.pmm.phyPageNum = p.phyPageNum :=
    hclients.invariant
      (fun s => s.pmm.startAddr = p.startAddr ∧
        s.pmm.phyPageNum = p.phyPageNum)
      (fun _ _ _ hs hstep => ⟨(session_frames hstep).1.trans hs.1,
        (session_frames hstep).2.trans hs.2⟩) ⟨rfl, rfl⟩
  have hframe : ∀ i < vm.pmm.phyPageNum,
      Pmm.FrameAddr (vm.pmm.startAddr (some i)) := by
    intro i hi
    rw [hsame.2] at hi
    rw [hsame.1]
    exact hinitial.recorded.frame i hi
  refine ⟨htables, fun i hi => ?_, hframe, hreached⟩
  apply findPageIndex_eq
  · have hcount := hinitial.recorded.count
    rw [hsame.2] at hi
    omega
  · rfl
  · intro m hm heq
    have hne := frame_ne_zero (hframe i hi)
    rw [← heq] at hne
    exact hm.ne (hdistinct m i heq hne)

/-- In every run whose calls all fit, the count of a frame is the number of
present entries that point to it, plus one if it is a page table. -/
theorem reference_counts {info : BootInfo} {low : Page} {p : Pmm}
    (hinit : Pmm.initBuddy info (.boot low) = .ok p)
    {clients : List BuddySession.Call} {held : List PagePtr}
    (hclients : Run BuddySession.Step ⟨p, []⟩ clients ⟨vm.pmm, held⟩)
    (hdistinct : Swap.DistinctFrames vm.pmm) (htables : TablesDistinct vm)
    (hreached : ∀ a, (vm.getpte a).2 = true) (hbalanced : Balanced base vm)
    {calls : List Call}
    (hrun : Run (fun vm c vm' => Step vm c vm' ∧ Fits vm c) vm calls vm') :
    Balanced base vm' := by
  have hsound := sound_of_boot hinit hclients hdistinct htables hreached
  have hvm : Counted base vm := ⟨hsound, hbalanced⟩
  exact (hvm.run hrun).balanced

/-! ## Executing a run -/

/-- Nothing is mapped after boot and no frame has a reference. -/
theorem bare_balanced {p : Pmm} (hrefs : ∀ i, p.refNum (some i) = 0)
    (hframe : ∀ i < p.phyPageNum, Pmm.FrameAddr (p.startAddr (some i))) :
    Balanced (fun _ => 0) (bare p) := by
  intro i hi
  have htable : ∀ a, (bare p).tableOf a = 0 := by
    intro a
    simp [bare, tableOf]
  have hnot : ¬ IsTable (bare p) i := by
    rintro ⟨a, ha⟩
    exact frame_ne_zero (hframe i hi) (ha.symm.trans (htable a))
  have hpointers : pointers (bare p) i = 0 := by
    unfold pointers fiber
    rw [Finset.card_eq_zero, Finset.filter_eq_empty_iff]
    intro q _
    rw [frameAt, entryOf, if_pos (htable _), frameOf_zero]
    exact (Option.some_ne_none i).symm
  have hzero : (bare p).pmm.refNum (some i) = 0 := hrefs i
  rw [references, if_neg hnot, hpointers, hzero]
  rfl

def tableFits (vm : Vm) : Bool :=
  match vm.allocPages 1 with
  | .error _ => true
  | .ok (none, _) => false
  | .ok (some i, _) => decide (i < vm.pmm.phyPageNum ∧ ¬ IsTable vm i)

theorem tableFits_iff : tableFits vm = true ↔ TableFits vm := by
  unfold tableFits TableFits
  cases halloc : vm.allocPages 1 with
  | error => simp
  | ok r =>
      obtain ⟨pg, vm₁⟩ := r
      cases pg with
      | none => simp
      | some i =>
          rw [decide_eq_true_iff]
          constructor
          · rintro ⟨hi, hnot⟩ pg vm₂ hret
            cases hret
            exact ⟨i, hi, rfl, hnot⟩
          · intro hfits
            obtain ⟨j, hj, hij, hnot⟩ := hfits _ _ rfl
            obtain rfl := Option.some.inj hij
            exact ⟨hj, hnot⟩

instance (vm : Vm) : Decidable (TableFits vm) :=
  decidable_of_iff _ tableFits_iff

instance (vm : Vm) (flags p v : Uint) : Decidable (MapFits vm flags p v) :=
  decidable_of_iff
    (frameOf vm.pmm (vm.entryOf v) = none ∧
      frameOf vm.pmm (p &&& PAGE_MASK ||| flags) = managedIndex vm.pmm p ∧
      (vm.tableOf v = 0 → TableFits vm))
    ⟨fun ⟨hold, hnew, htable⟩ => ⟨hold, hnew, htable⟩,
      fun hfits => ⟨hfits.old, hfits.new, hfits.table⟩⟩

/-- The next state, if the call fits and returns; for calls whose fit can be
read off the state. -/
def fittingNext (vm : Vm) (c : Call) : Option Vm :=
  match c with
  | .alloc n => (call vm (.alloc n)).toOption
  | .map flags p v =>
      if MapFits vm flags p v then (call vm (.map flags p v)).toOption else none
  | _ => none

theorem fittingStep_of_next {c : Call} (hnext : fittingNext vm c = some vm') :
    Step vm c vm' ∧ Fits vm c := by
  cases c with
  | alloc n => exact ⟨BuddySession.eq_ok_of_toOption hnext, trivial⟩
  | map flags p v =>
      unfold fittingNext at hnext
      dsimp only at hnext
      split at hnext
      next hfits => exact ⟨BuddySession.eq_ok_of_toOption hnext, hfits⟩
      next => cases hnext
  | unmap | swapOut | swapIn | mapSwappable => cases hnext

/-- The state of six frames after `calls`, as far as `look` sees it. -/
theorem counted_of_trace {calls : List Call} {α : Type*} {look : Vm → Option α}
    {a : α} (htrace : BuddySession.traceFrom bare fittingNext 6 calls look =
      some a) :
    ∃ p vm, Pmm.initBuddy (BuddySession.frameMap 6)
        (.boot BuddySession.zeroPage) = .ok p ∧
      Run (fun vm c vm' => Step vm c vm' ∧ Fits vm c) (bare p) calls vm ∧
      Counted (fun _ => 0) vm ∧ look vm = some a := by
  obtain ⟨p, vm, hinit, hrun, hlook⟩ := BuddySession.run_of_traceFrom htrace
    fun _ _ _ => fittingStep_of_next
  obtain ⟨free, hinitial⟩ := Pmm.initBuddy_initial hinit
  have hsound : Sound (bare p) := sound_of_boot hinit .nil
    (Swap.sixFrames_distinct hinit) (bare_tablesDistinct p) (bare_reached p)
  have hbalanced := bare_balanced hinitial.recorded.refNum
    hinitial.recorded.frame
  have hvm : Counted (fun _ => 0) (bare p) := ⟨hsound, hbalanced⟩
  exact ⟨p, vm, hinit, hrun, hvm.run hrun, hlook⟩

/-- A frame is mapped and unmapped again. -/
theorem reference_counts_one_page :
    ∃ p vm, Pmm.initBuddy (BuddySession.frameMap 6)
        (.boot BuddySession.zeroPage) = .ok p ∧
      Run Step (bare p) [.alloc 1, .map 7 0x105000 0xE0008700,
        .unmap 0xE0008000] vm ∧
      Balanced (fun _ => 0) vm := by
  have htrace : BuddySession.traceFrom bare fittingNext 6 [.alloc 1,
      .map 7 0x105000 0xE0008700] (fun vm =>
        some (decide (vm.entryOf 0xE0008000 &&& PTE_P ≠ 0))) =
      some true := by decide +kernel
  obtain ⟨p, vm, hinit, hrun, hvm, hlook⟩ := counted_of_trace htrace
  have hpresent := of_decide_eq_true (Option.some.inj hlook)
  obtain ⟨free, hinitial⟩ := Pmm.initBuddy_initial hinit
  have hunmap : Run (fun vm c vm' => Step vm c vm' ∧ Fits vm c) (bare p)
      [.alloc 1, .map 7 0x105000 0xE0008700, .unmap 0xE0008000] _ :=
    hrun.snoc ⟨rfl, hvm.fits_unmap_of_present hpresent⟩
  refine ⟨p, vm.unmap 0xE0008000, hinit, hunmap.mono fun _ _ _ h => h.1, ?_⟩
  exact reference_counts hinit .nil (Swap.sixFrames_distinct hinit)
    (bare_tablesDistinct p) (bare_reached p)
    (bare_balanced hinitial.recorded.refNum hinitial.recorded.frame) hunmap

/-- `map` over a mapped page leaves the frame behind with a count of 1 and no
entry that points to it. -/
theorem mapped_over :
    ∃ p vm, Pmm.initBuddy (BuddySession.frameMap 6)
        (.boot BuddySession.zeroPage) = .ok p ∧
      Run Step (bare p) [.alloc 1, .alloc 1, .map 7 0x105000 0xE0008700,
        .map 7 0x104000 0xE0008700] vm ∧
      ¬ Balanced (fun _ => 0) vm := by
  have htrace : BuddySession.traceFrom bare fittingNext 6 [.alloc 1, .alloc 1,
      .map 7 0x105000 0xE0008700] (fun vm => some (decide
        (vm.tableOf 0xE0008700 ≠ 0 ∧
          frameOf vm.pmm (0x104000 &&& PAGE_MASK ||| 7) =
            managedIndex vm.pmm 0x104000 ∧
          frameOf vm.pmm (vm.entryOf 0xE0008700) = some 5))) =
      some true := by decide +kernel
  obtain ⟨p, vm, hinit, hrun, hvm, hlook⟩ := counted_of_trace htrace
  obtain ⟨htable, hnew, hold⟩ := of_decide_eq_true (Option.some.inj hlook)
  have hstep : Step vm (.map 7 0x104000 0xE0008700)
      (vm.entered (some (findPageIndex vm.pmm 0x104000))
        (0x104000 &&& PAGE_MASK ||| 7) 0xE0008700 (vm.tableOf 0xE0008700)) :=
    congrArg (Except.map Prod.snd) (map_of_table _ _ htable)
  refine ⟨p, _, hinit, (hrun.mono fun _ _ _ h => h.1).snoc hstep, ?_⟩
  rw [hvm.balanced_entered_iff htable hnew, hold]
  exact Option.some_ne_none 5

end RefCount
end OS32
