import OS32.RegionLookup

/-!
# Inserting a region

`insert_vma_mm` walks to the first region that begins behind the new one.  Its
loop ends in front of the last region, and it goes through the loop with an
empty list too.
-/

namespace OS32

open NullList Intervals

/-- `mm_struct_t` with the fields that `insert_vma_mm` uses: `prev` of each
region, and `vma_cnt`. -/
structure MmStruct extends Mm where
  prev : Option ℕ → Option ℕ
  vmaCnt : ℤ

namespace MmStruct

def setNext (mm : MmStruct) (p q : Option ℕ) : MmStruct :=
  { mm with vma := Function.update mm.vma p { mm.vma p with next := q } }

def setPrev (mm : MmStruct) (p q : Option ℕ) : MmStruct :=
  { mm with prev := Function.update mm.prev p q }

def setVmaList (mm : MmStruct) (p : Option ℕ) : MmStruct :=
  { mm with vmaList := p }

def addVmaCnt (mm : MmStruct) : MmStruct :=
  { mm with vmaCnt := mm.vmaCnt + 1 }

def links (mm : MmStruct) : Links ℕ := ⟨fun p => (mm.vma p).next, mm.prev⟩

/-- The fields of a region that are not links. -/
def region (mm : MmStruct) (p : Option ℕ) : Uint × Uint × Uint :=
  ((mm.vma p).vmStart, (mm.vma p).vmEnd, (mm.vma p).vmFlags)

/-! ## `insert_vma_mm` -/

/-- `assert(x, info)` of `debug.h`. -/
def assert (x : Bool) (info : String) : Except Fault Unit :=
  if x then .ok () else .error (.panic info)

def checkVmaOverlap (mm : MmStruct) (prev next : Option ℕ) :
    Except Fault Unit := do
  assert ((mm.vma prev).vmStart < (mm.vma prev).vmEnd) "vma overlapped\n"
  assert ((mm.vma prev).vmEnd ≤ (mm.vma next).vmEnd) "vma overlapped\n"
  assert ((mm.vma next).vmStart < (mm.vma next).vmEnd) "vma overlapped\n"

/-- The loop of `insert_vma_mm` from `vmP` on, ended after `fuel` turns. -/
def insertFrom (vma : Option ℕ) :
    ℕ → MmStruct → Option ℕ → Except Fault MmStruct
  | 0, _, _ => .error .hang
  | fuel + 1, mm, vmP =>
      if (mm.vma vmP).next = none then .ok mm
      else if (mm.vma vma).vmEnd ≤ (mm.vma vmP).vmStart then
        if vmP = mm.vmaList then do
          mm.checkVmaOverlap vma vmP
          let mm := mm.setVmaList vma
          let mm := mm.setNext mm.vmaList vmP
          return mm.setPrev vmP mm.vmaList
        else do
          mm.checkVmaOverlap vma vmP
          let mm := mm.setNext (mm.prev vmP) vma
          let mm := mm.setPrev vma (mm.prev vmP)
          let mm := mm.setPrev vmP vma
          return mm.setNext vma vmP
      else insertFrom vma fuel mm (mm.vma vmP).next

def insertVmaMm (vma : ℕ) (mm : MmStruct) : Except Fault MmStruct := do
  let mm :=
    if mm.vmaList = none then (mm.setVmaList (some vma)).addVmaCnt else mm
  let mm ← insertFrom (some vma) walkBound mm mm.vmaList
  return mm.addVmaCnt

/-! ## Lists of regions -/

variable {mm : MmStruct} {l l₁ l₂ : List ℕ} {v a : ℕ} {fuel : ℕ}

/-- `vma_list` is a well-linked list of the regions `l`, in order and
disjoint. -/
structure WellLinked (mm : MmStruct) (l : List ℕ) : Prop where
  chain : mm.links.Chain none mm.vmaList l
  sorted : Sorted mm.start mm.stop l

/-- A region that `vma_ctor` has made, with `vm_start < vm_end`. -/
structure NewRegion (mm : MmStruct) (l : List ℕ) (v : ℕ) : Prop where
  not_mem : v ∉ l
  next : (mm.vma (some v)).next = none
  prev : mm.prev (some v) = none
  proper : mm.start v < mm.stop v

/-- `insert_vma_mm` inserts the region. -/
def Inserts (mm : MmStruct) (l : List ℕ) (v : ℕ) : Prop :=
  ∃ mm' l', insertVmaMm v mm = .ok mm' ∧ l'.Perm (v :: l) ∧
    mm'.WellLinked l' ∧ mm'.region = mm.region ∧
    mm'.vmaCnt = mm.vmaCnt + 1 ∧ mm'.vmaCnt = l'.length

@[simp] theorem links_setNext (mm : MmStruct) (p q : Option ℕ) :
    (mm.setNext p q).links = mm.links.setNext p q := by
  unfold links setNext Links.setNext
  congr 1
  funext r
  by_cases hr : r = p
  · subst hr
    simp
  · simp [hr]

@[simp] theorem links_setVmaList (mm : MmStruct) (p : Option ℕ) :
    (mm.setVmaList p).links = mm.links := rfl

@[simp] theorem links_addVmaCnt (mm : MmStruct) :
    mm.addVmaCnt.links = mm.links := rfl

@[simp] theorem links_setPrev (mm : MmStruct) (p q : Option ℕ) :
    (mm.setPrev p q).links = mm.links.setPrev p q := rfl

@[simp] theorem region_setNext (mm : MmStruct) (p q : Option ℕ) :
    (mm.setNext p q).region = mm.region := by
  funext r
  unfold region setNext
  by_cases hr : r = p
  · subst hr
    simp
  · simp [hr]

@[simp] theorem region_setPrev (mm : MmStruct) (p q : Option ℕ) :
    (mm.setPrev p q).region = mm.region := rfl

@[simp] theorem region_setVmaList (mm : MmStruct) (p : Option ℕ) :
    (mm.setVmaList p).region = mm.region := rfl

@[simp] theorem region_addVmaCnt (mm : MmStruct) :
    mm.addVmaCnt.region = mm.region := rfl

theorem start_of_region {mm mm' : MmStruct} (hregion : mm'.region = mm.region)
    (a : ℕ) : mm'.start a = mm.start a :=
  congrArg (fun r => r.1.toNat) (congrFun hregion (some a))

theorem stop_of_region {mm mm' : MmStruct} (hregion : mm'.region = mm.region)
    (a : ℕ) : mm'.stop a = mm.stop a :=
  congrArg (fun r => r.2.1.toNat) (congrFun hregion (some a))

theorem WellLinked.walk (hl : mm.WellLinked l) :
    mm.toMm.Walk mm.vmaList l := by
  have hwalk : ∀ l before p, mm.links.Chain before p l → mm.toMm.Walk p l := by
    intro l
    induction l with
    | nil => exact fun _ _ hchain => hchain
    | cons a l ih =>
        rintro before p ⟨rfl, _, hrest⟩
        exact ⟨rfl, ih _ _ hrest⟩
  exact hwalk l none _ hl.chain

theorem WellLinked.regions (hl : mm.WellLinked l) : mm.toMm.Regions l :=
  ⟨hl.walk, hl.sorted⟩

/-! ## What the loop does -/

/-- The assertions of `check_vma_overlap` hold wherever they are reached. -/
theorem checkVmaOverlap_ok (hv : mm.start v < mm.stop v)
    (ha : mm.start a < mm.stop a)
    (hva : (mm.vma (some v)).vmEnd ≤ (mm.vma (some a)).vmStart) :
    mm.checkVmaOverlap (some v) (some a) = .ok () := by
  have hv' : (mm.vma (some v)).vmStart < (mm.vma (some v)).vmEnd :=
    BitVec.lt_def.mpr hv
  have ha' : (mm.vma (some a)).vmStart < (mm.vma (some a)).vmEnd :=
    BitVec.lt_def.mpr ha
  have hends : (mm.vma (some v)).vmEnd ≤ (mm.vma (some a)).vmEnd := by
    rw [BitVec.le_def] at hva ⊢
    exact hva.trans (BitVec.lt_def.mp ha').le
  unfold checkVmaOverlap assert
  simp only [hv', ha', hends, decide_true, if_true]
  rfl

/-- The loop passes the regions that begin before the end of the new one. -/
theorem insertFrom_skip (v fuel : ℕ) {before p q : Option ℕ}
    (hseg : mm.links.Seg before p l₁ q) (hq : q ≠ none)
    (hskip : ∀ b ∈ l₁, ¬ mm.stop v ≤ mm.start b) :
    insertFrom (some v) (fuel + l₁.length) mm p =
      insertFrom (some v) fuel mm q := by
  induction l₁ generalizing before p with
  | nil =>
      obtain rfl : p = q := hseg
      rfl
  | cons b l₁ ih =>
      obtain ⟨rfl, _, hrest⟩ := hseg
      have hnext : (mm.vma (some b)).next ≠ none := by
        cases l₁ with
        | nil => exact fun hnone => hq (hrest.symm.trans hnone)
        | cons c l₁ =>
            intro hnone
            have hc := hrest.1
            change (mm.vma (some b)).next = some c at hc
            rw [hnone] at hc
            cases hc
      have hlater : ¬ (mm.vma (some v)).vmEnd ≤ (mm.vma (some b)).vmStart :=
        fun hle => hskip b List.mem_cons_self (BitVec.le_def.mp hle)
      rw [List.length_cons, ← Nat.add_assoc, insertFrom, if_neg hnext,
        if_neg hlater]
      exact ih hrest fun c hc => hskip c (List.mem_cons_of_mem b hc)

/-- The loop stops in front of the last region. -/
theorem insertFrom_last (hnext : (mm.vma (some a)).next = none)
    (hfuel : 0 < fuel) : insertFrom (some v) fuel mm (some a) = .ok mm := by
  obtain ⟨fuel, rfl⟩ := Nat.exists_eq_succ_of_ne_zero hfuel.ne'
  rw [insertFrom, if_pos hnext]

theorem insertFrom_head (hnext : (mm.vma (some a)).next ≠ none)
    (hle : (mm.vma (some v)).vmEnd ≤ (mm.vma (some a)).vmStart)
    (hcheck : mm.checkVmaOverlap (some v) (some a) = .ok ())
    (hhead : mm.vmaList = some a) :
    insertFrom (some v) (fuel + 1) mm (some a) =
      .ok (((mm.setVmaList (some v)).setNext (some v) (some a)).setPrev
        (some a) (some v)) := by
  rw [insertFrom, if_neg hnext, if_pos hle, if_pos hhead.symm, hcheck]
  rfl

theorem insertFrom_middle (hnext : (mm.vma (some a)).next ≠ none)
    (hle : (mm.vma (some v)).vmEnd ≤ (mm.vma (some a)).vmStart)
    (hcheck : mm.checkVmaOverlap (some v) (some a) = .ok ())
    (hhead : mm.vmaList ≠ some a) :
    insertFrom (some v) (fuel + 1) mm (some a) =
      .ok ((((mm.setNext (mm.prev (some a)) (some v)).setPrev (some v)
        (mm.prev (some a))).setPrev (some a) (some v)).setNext (some v)
          (some a)) := by
  rw [insertFrom, if_neg hnext, if_pos hle, if_neg (Ne.symm hhead), hcheck]
  rfl

/-- In front of a region which is not the last the new one is linked. -/
theorem WellLinked.link (hl : mm.WellLinked (l₁ ++ a :: l₂)) (hl₂ : l₂ ≠ [])
    (hv : mm.NewRegion (l₁ ++ a :: l₂) v)
    (hskip : ∀ b ∈ l₁, ¬ mm.stop v ≤ mm.start b)
    (hva : mm.stop v ≤ mm.start a) :
    ∃ mm', insertVmaMm v mm = .ok mm' ∧
      mm'.links.Chain none mm'.vmaList (l₁ ++ v :: a :: l₂) ∧
      mm'.region = mm.region ∧ mm'.vmaCnt = mm.vmaCnt + 1 := by
  have hle : (mm.vma (some v)).vmEnd ≤ (mm.vma (some a)).vmStart :=
    BitVec.le_def.mpr hva
  have hcheck := checkVmaOverlap_ok hv.proper (hl.sorted.proper a (by simp)) hle
  have hlength := hl.regions.length_lt
  rw [List.length_append, List.length_cons] at hlength
  obtain ⟨fuel, hfuel⟩ : ∃ fuel, walkBound = fuel + 1 + l₁.length :=
    ⟨walkBound - 1 - l₁.length, by omega⟩
  obtain ⟨q, hfirst, hsecond⟩ := Links.chain_append.mp hl.chain
  obtain ⟨rfl, hprev, hrest⟩ := Links.chain_cons.mp hsecond
  have hnext : (mm.vma (some a)).next ≠ none := fun hnone =>
    hl₂ (hrest.eq_nil hnone)
  have hlist : mm.vmaList ≠ none := by
    intro hnone
    have hnil := hl.chain.eq_nil hnone
    simp at hnil
  have hloop := insertFrom_skip v (fuel + 1) hfirst nofun hskip
  rw [← hfuel] at hloop
  unfold insertVmaMm
  simp only [if_neg hlist]
  rw [hloop]
  rcases List.eq_nil_or_concat' l₁ with rfl | ⟨l₀, y, rfl⟩
  · have hhead : mm.vmaList = some a := hfirst
    rw [insertFrom_head hnext hle hcheck hhead]
    refine ⟨_, rfl, ?_, ?_, rfl⟩
    · have hchain := (hhead ▸ hl.chain).insert_head hv.not_mem
      have hfresh : mm.links.prev (some v) = none := hv.prev
      rw [hfresh] at hchain
      rw [links_addVmaCnt, links_setPrev, links_setNext, links_setVmaList]
      exact hchain
    · simp
  · have hhead : mm.vmaList ≠ some a := by
      intro heq
      have hsame := congrArg List.length (hsecond.unique (heq ▸ hl.chain))
      simp at hsame
      omega
    rw [insertFrom_middle hnext hle hcheck hhead]
    refine ⟨_, rfl, ?_, ?_, rfl⟩
    · rw [links_addVmaCnt, links_setNext, links_setPrev, links_setPrev,
        links_setNext]
      exact hl.chain.insertBefore hv.not_mem
    · simp

/-- Where no region but the last begins behind the new one, it is dropped. -/
theorem WellLinked.drop (hl : mm.WellLinked (l₁ ++ [a]))
    (hskip : ∀ b ∈ l₁, ¬ mm.stop v ≤ mm.start b) :
    insertVmaMm v mm = .ok mm.addVmaCnt := by
  have hlength := hl.regions.length_lt
  rw [List.length_append, List.length_singleton] at hlength
  obtain ⟨fuel, hfuel⟩ : ∃ fuel, walkBound = fuel + 1 + l₁.length :=
    ⟨walkBound - 1 - l₁.length, by omega⟩
  obtain ⟨q, hfirst, hsecond⟩ := Links.chain_append.mp hl.chain
  obtain ⟨rfl, hprev, hrest⟩ := Links.chain_cons.mp hsecond
  have hlist : mm.vmaList ≠ none := by
    intro hnone
    have hnil := hl.chain.eq_nil hnone
    simp at hnil
  have hloop := insertFrom_skip v (fuel + 1) hfirst nofun hskip
  rw [← hfuel] at hloop
  unfold insertVmaMm
  simp only [if_neg hlist]
  rw [hloop, insertFrom_last hrest (Nat.succ_pos fuel)]
  rfl

/-- In an empty list the new region is counted twice. -/
theorem insert_empty (hempty : mm.vmaList = none)
    (hnext : (mm.vma (some v)).next = none) :
    insertVmaMm v mm = .ok (mm.setVmaList (some v)).addVmaCnt.addVmaCnt := by
  unfold insertVmaMm
  simp only [if_pos hempty]
  have hbound : 0 < walkBound := Nat.succ_pos _
  have hlast : ((mm.setVmaList (some v)).addVmaCnt.vma (some v)).next = none :=
    hnext
  change (insertFrom (some v) walkBound (mm.setVmaList (some v)).addVmaCnt
    (some v)).bind _ = _
  rw [insertFrom_last hlast hbound]
  rfl

/-- The first region that begins behind the new one, if it is not the last. -/
theorem exists_first (hsome : ∃ a ∈ l.dropLast, mm.stop v ≤ mm.start a) :
    ∃ l₁ a l₂, l = l₁ ++ a :: l₂ ∧ l₂ ≠ [] ∧ mm.stop v ≤ mm.start a ∧
      ∀ b ∈ l₁, ¬ mm.stop v ≤ mm.start b := by
  obtain ⟨c, hc, hvc⟩ := hsome
  have hl : l ≠ [] := by
    rintro rfl
    exact List.not_mem_nil hc
  cases hfind : l.dropLast.find? fun a => mm.stop v ≤ mm.start a with
  | none =>
      have hnot := List.find?_eq_none.mp hfind c hc
      exact absurd (decide_eq_true hvc) hnot
  | some a =>
      obtain ⟨ha, l₁, l₂, hsplit, hskip⟩ :=
        List.find?_eq_some_iff_append.mp hfind
      refine ⟨l₁, a, l₂ ++ [l.getLast hl], ?_, by simp, of_decide_eq_true ha, ?_⟩
      · rw [← List.cons_append, ← List.append_assoc, ← hsplit,
          List.dropLast_append_getLast]
      · intro b hb
        simpa using hskip b hb

/-- Insertion works just when a region other than the last one begins behind
the new region. -/
theorem inserts_iff (hl : mm.WellLinked l) (hcount : mm.vmaCnt = l.length)
    (hv : mm.NewRegion l v) (hfree : ∀ a ∈ l, ¬ Overlap mm.start mm.stop v a) :
    mm.Inserts l v ↔ ∃ a ∈ l.dropLast, mm.stop v ≤ mm.start a := by
  constructor
  · rintro ⟨mm', l', hinsert, hperm, hl', _, hcnt, _⟩
    by_contra hnone
    have hskip : ∀ a ∈ l.dropLast, ¬ mm.stop v ≤ mm.start a :=
      fun a ha hle => hnone ⟨a, ha, hle⟩
    rcases List.eq_nil_or_concat' l with rfl | ⟨l₁, a, rfl⟩
    · rw [insert_empty hl.chain hv.next] at hinsert
      obtain rfl := Except.ok.inj hinsert
      change mm.vmaCnt + 1 + 1 = _ at hcnt
      omega
    · rw [List.dropLast_concat] at hskip
      rw [hl.drop hskip] at hinsert
      obtain rfl := Except.ok.inj hinsert
      have hsame := hl'.chain.unique hl.chain
      have hlength := hperm.length_eq
      rw [hsame, List.length_cons] at hlength
      omega
  · intro hsome
    obtain ⟨l₁, a, l₂, rfl, hl₂, hva, hskip⟩ := exists_first hsome
    obtain ⟨mm', hinsert, hchain, hregion, hcnt⟩ := hl.link hl₂ hv hskip hva
    have hperm : (l₁ ++ v :: a :: l₂).Perm (v :: (l₁ ++ a :: l₂)) :=
      List.perm_middle
    have hbefore : ∀ b ∈ l₁, mm.stop b ≤ mm.start v := by
      intro b hb
      have hapart := hfree b (List.mem_append_left _ hb)
      have hnot := hskip b hb
      unfold Overlap at hapart
      omega
    have hsorted := hl.sorted.insert hv.proper hbefore
      (hl.sorted.before_rest hva)
    refine ⟨mm', _, hinsert, hperm, ⟨hchain, ?_⟩, hregion, hcnt, ?_⟩
    · exact hsorted.congr (start_of_region hregion) (stop_of_region hregion)
    · rw [hperm.length_eq, List.length_cons, hcnt, hcount]
      rfl

/-- Three regions in the list, and three more: one in front of them, one behind
them, and one that overlaps the first. -/
def threeRegions : MmStruct where
  vmaList := some 0
  mmapCache := none
  vma := fun
    | some 0 => ⟨some 1, 0x3000, 0x4000, PTE_U⟩
    | some 1 => ⟨some 2, 0x5000, 0x6000, PTE_U⟩
    | some 2 => ⟨none, 0x7000, 0x8000, PTE_U⟩
    | some 3 => ⟨none, 0x1000, 0x2000, PTE_U⟩
    | some 4 => ⟨none, 0x9000, 0xA000, PTE_U⟩
    | some 5 => ⟨none, 0x3800, 0x4800, PTE_U⟩
    | _ => ⟨none, 0, 0, 0⟩
  prev := fun
    | some 1 => some 0
    | some 2 => some 1
    | _ => none
  vmaCnt := 3

theorem threeRegions_wellLinked : threeRegions.WellLinked [0, 1, 2] :=
  ⟨⟨rfl, rfl, rfl, rfl, rfl, rfl, rfl⟩, by decide, by decide⟩

/-- A region goes in front of three others. -/
theorem head_inserted : threeRegions.Inserts [0, 1, 2] 3 :=
  (inserts_iff threeRegions_wellLinked rfl
    ⟨by decide, rfl, rfl, by decide⟩ (by unfold Overlap; decide)).mpr
    ⟨0, by decide, by decide⟩

/-- A region behind three others is dropped. -/
theorem tail_dropped :
    ¬ ∀ (mm : MmStruct) (l : List ℕ) (v : ℕ), mm.WellLinked l →
      mm.vmaCnt = l.length → mm.NewRegion l v →
      (∀ a ∈ l, ¬ Overlap mm.start mm.stop v a) → mm.Inserts l v := by
  intro hall
  have hinserts := hall threeRegions [0, 1, 2] 4 threeRegions_wellLinked rfl
    ⟨by decide, rfl, rfl, by decide⟩ (by unfold Overlap; decide)
  obtain ⟨mm', l', hinsert, hperm, hl', _⟩ := hinserts
  have hlist : threeRegions.WellLinked ([0, 1] ++ [2]) :=
    threeRegions_wellLinked
  rw [hlist.drop (by decide)] at hinsert
  obtain rfl := Except.ok.inj hinsert
  have hsame := hl'.chain.unique threeRegions_wellLinked.chain
  exact absurd (hsame ▸ hperm.length_eq) (by decide)

/-- `insert_vma_mm` returns whether or not the new region overlaps others. -/
theorem insert_ok (hl : mm.WellLinked l) (hv : mm.NewRegion l v) :
    ∃ mm', insertVmaMm v mm = .ok mm' := by
  rcases List.eq_nil_or_concat' l with rfl | ⟨l₁, a, rfl⟩
  · exact ⟨_, insert_empty hl.chain hv.next⟩
  by_cases hsome : ∃ b ∈ l₁, mm.stop v ≤ mm.start b
  · obtain ⟨l₀, b, l₂, hsplit, hl₂, hvb, hskip⟩ :=
      exists_first (l := l₁ ++ [a]) (by rwa [List.dropLast_concat])
    rw [hsplit] at hl hv
    obtain ⟨mm', hinsert, _⟩ := hl.link hl₂ hv hskip hvb
    exact ⟨mm', hinsert⟩
  · exact ⟨_, hl.drop fun b hb hle => hsome ⟨b, hb, hle⟩⟩

/-- No insertion of an overlapping region ends in the panic. -/
theorem overlap_not_rejected (hl : mm.WellLinked l) (hv : mm.NewRegion l v)
    (_hoverlap : ∃ a ∈ l, Overlap mm.start mm.stop v a) :
    insertVmaMm v mm ≠ .error (.panic "vma overlapped\n") := by
  obtain ⟨mm', hinsert⟩ := insert_ok hl hv
  rw [hinsert]
  exact nofun

/-- A region overlaps the first of three, and no assertion fails. -/
theorem overlap_returns :
    (∃ a ∈ [0, 1, 2], Overlap threeRegions.start threeRegions.stop 5 a) ∧
      insertVmaMm 5 threeRegions ≠ .error (.panic "vma overlapped\n") := by
  have hoverlap : ∃ a ∈ [0, 1, 2],
      Overlap threeRegions.start threeRegions.stop 5 a :=
    ⟨0, by decide, by unfold Overlap; decide⟩
  exact ⟨hoverlap, overlap_not_rejected threeRegions_wellLinked
    ⟨by decide, rfl, rfl, by decide⟩ hoverlap⟩

/-- The region is linked behind the one that it overlaps. -/
theorem overlap_linked :
    ¬ ∀ (mm : MmStruct) (l : List ℕ) (v : ℕ), mm.WellLinked l →
      mm.NewRegion l v → (∃ a ∈ l, Overlap mm.start mm.stop v a) →
      insertVmaMm v mm = .error (.panic "vma overlapped\n") := by
  intro hall
  have hpanic := hall threeRegions [0, 1, 2] 5 threeRegions_wellLinked
    ⟨by decide, rfl, rfl, by decide⟩
    ⟨0, by decide, by unfold Overlap; decide⟩
  have hlist : threeRegions.WellLinked ([0] ++ 1 :: [2]) :=
    threeRegions_wellLinked
  have hnew : threeRegions.NewRegion ([0] ++ 1 :: [2]) 5 :=
    ⟨by decide, rfl, rfl, by decide⟩
  obtain ⟨mm', hinsert, _⟩ := hlist.link (by decide) hnew (by decide)
    (by decide)
  rw [hinsert] at hpanic
  cases hpanic

end MmStruct

end OS32
