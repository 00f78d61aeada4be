import OS32.SwapList
import OS32.WriteLog

/-!
# What swapping brings back

The slot of a page on the disk is not recorded: `swap_out` computes it from the
frame in the entry, `swap_in` from the frame it has just got.  The requests to
the disk are followed along a run of page faults and `swap_out` calls, and a
page that was written out is compared with what is read for it.
-/

namespace OS32

open Transition WriteLog Vm

namespace SwapData

/-! ## The disk -/

/-- A request with what its buffer holds, sector by sector. -/
abbrev Request (α : Type) := Io × (Uint → α)

def writesPage (va : Uint) : Io → Bool
  | .write _ _ a _ => decide (SamePage a va)
  | .read .. => false

def writesSlot (s : Uint) : Io → Bool
  | .write _ s' _ _ => decide (s' = s)
  | .read .. => false

/-- What a request stores in a sector of a disk, if the disk is faithful. -/
def stored {α : Type} (r : Request α) (sector : Uint × Uint) : Option α :=
  match r.1 with
  | .write d s _ n =>
      if sector.1 = d ∧ sector.2 - s < n then some (r.2 (sector.2 - s))
      else none
  | .read .. => none

/-- Buffers of writes start at a page; and a read for a page that was written
is made with the arguments of the last write of the page, and gets from a
faithful disk what the buffer held then. -/
structure RoundTrips (log : List Io) : Prop where
  aligned : ∀ {d s va n}, .write d s va n ∈ log → Aligned va
  answered : ∀ {α : Type} (disk : Uint × Uint → α) (before : List (Request α))
    {d s va n : Uint} {after : List Io},
    log = before.map Prod.fst ++ .read d s va n :: after →
      ∀ w buf, last (fun r => writesPage va r.1) before = some (w, buf) →
        w = .write d s va n ∧
          ∀ j < n, replay stored disk before (d, s + j) = buf j

/-! ## Runs -/

/-- The frame the entry of the page names, present or not. -/
def frame (vm : Vm) (va : Uint) : Uint := vm.entryOf va &&& PAGE_MASK

/-- The page has been written to the disk. -/
def Written (vm : Vm) (va : Uint) : Prop :=
  (last (writesPage va) vm.io).isSome = true

/-- A call that returns; `pgfault_handler` goes on to `do_pgfault` only for
pages that are not present. -/
def Step (vm : Vm) (c : Swap.Call) (vm' : Vm) : Prop :=
  Swap.call vm c = .ok vm' ∧
    match c with
    | .fault va => vm.entryOf va &&& PTE_P = 0
    | .swapOut _ => True

/-- The frame `alloc_pages(1)` hands out can become a page table which `getpte`
finds. -/
def TableFree (vm : Vm) : Prop :=
  ∀ pg vm₁, vm.allocPages 1 = .ok (pg, vm₁) →
    FreshTable vm (vm₁.pmm.startAddr pg) ∧
      vm₁.pmm.startAddr pg + PAGE_OFFSET ≠ 0

/-- The page can be written to the slot of its frame. -/
structure EvictFits (vm : Vm) (va : Uint) : Prop where
  aligned : Aligned va
  named : frame vm va ≠ 0
  apart : ∀ a, ¬ SamePage a va → Written vm a → vm.entryOf a &&& PTE_P = 0 →
    frame vm a ≠ frame vm va

/-- When a call keeps the data of all pages: a page that was written comes back
to the frame it had, and no page is written over one that is out. -/
def Fits (vm : Vm) : Swap.Call → Prop
  | .fault va =>
      ∀ vma mm pg vm₁, findVma vm.mm va = .ok (vma, mm) →
        Vm.allocPages { vm with mm := mm } 1 = .ok (pg, vm₁) →
          (vm.tableOf va = 0 → TableFree vm₁) ∧
            (Written vm va → vm₁.pmm.startAddr pg = frame vm va)
  | .swapOut n =>
      n = 0 ∨ ∀ page, Victim vm.pmm vm.clockPoint page →
        EvictFits vm (vm.pmm.va (some page))

/-! ## Slots -/

theorem toNat_secStart (pa : Uint) :
    (secStart pa).toNat = pa.toNat / 4096 * 8 := by
  have hpa := pa.isLt
  have hshift : (pa >>> 12).toNat = pa.toNat / 4096 := by
    rw [BitVec.toNat_ushiftRight, Nat.shiftRight_eq_div_pow]
  unfold secStart PGSIZE SECTSIZE
  rw [BitVec.toNat_udiv, BitVec.toNat_mul, hshift]
  change pa.toNat / 4096 * 4096 % 4294967296 / 512 = _
  omega

theorem secStart_inj {p q : Uint} (hp : Aligned p) (hq : Aligned q) :
    secStart p = secStart q ↔ p = q := by
  unfold Aligned at hp hq
  rw [← BitVec.toNat_inj, ← BitVec.toNat_inj, toNat_secStart, toNat_secStart]
  omega

/-- The slots of two frames do not overlap. -/
theorem mem_slot_iff (p q : Uint) {j : Uint} (hj : j < PAGE_NSECT) :
    secStart p + j - secStart q < PAGE_NSECT ↔ secStart q = secStart p := by
  have hp := toNat_secStart p
  have hq := toNat_secStart q
  have hplt := p.isLt
  have hqlt := q.isLt
  have hn : PAGE_NSECT.toNat = 8 := rfl
  rw [BitVec.lt_def, hn] at hj
  rw [BitVec.lt_def, hn, ← BitVec.toNat_inj, BitVec.toNat_sub,
    BitVec.toNat_add]
  omega

/-- All writes of the log are of a page to the slot of a frame. -/
def Formed (log : List Io) : Prop :=
  ∀ d s va n, .write d s va n ∈ log →
    Aligned va ∧ ∃ pa, Aligned pa ∧ .write d s va n = writeRequest pa va

/-- Where the last write to a slot is the last write of a page, the slot holds
the page. -/
theorem replay_slot {α : Type} {disk : Uint × Uint → α}
    {before : List (Request α)} {pa va : Uint} {w : Io} {buf : Uint → α}
    (hform : Formed (before.map Prod.fst))
    (hpage : last (fun r => writesPage va r.1) before = some (w, buf))
    (hslot : last (writesSlot (secStart pa)) (before.map Prod.fst) = some w)
    (hw : w = writeRequest pa va) {j : Uint} (hj : j < PAGE_NSECT) :
    replay stored disk before (SWAP_NO, secStart pa + j) = buf j := by
  have hstored : stored (w, buf) (SWAP_NO, secStart pa + j) = some (buf j) := by
    have hsub : secStart pa + j - secStart pa = j := by
      rw [BitVec.add_comm, BitVec.add_sub_cancel]
    subst hw
    simp only [stored, writeRequest, hsub, hj, and_self, if_true]
  apply replay_of_last _ hstored
  -- a request stores in this sector iff it writes the slot
  have hwrites : ∀ r ∈ before, (stored r (SWAP_NO, secStart pa + j)).isSome =
      writesSlot (secStart pa) r.1 := by
    rintro ⟨r, buf'⟩ hr
    cases r with
    | read => rfl
    | write d s va' n =>
        obtain ⟨_, qa, _, hwrite⟩ := hform d s va' n
          (List.mem_map_of_mem (f := Prod.fst) hr)
        obtain ⟨rfl, rfl, _, rfl⟩ := Io.write.inj hwrite
        simp only [stored, writesSlot, true_and, mem_slot_iff pa qa hj]
        split <;> simp_all
  rw [last_congr hwrites]
  rw [last_map] at hslot
  obtain ⟨⟨w', buf'⟩, hlast, hfst⟩ := Option.map_eq_some_iff.mp hslot
  obtain rfl : w' = w := hfst
  have hq : writesSlot (secStart pa) w' = true :=
    prop_of_last (p := fun r : Request α => writesSlot (secStart pa) r.1) hlast
  have hp : writesPage va w' = true :=
    prop_of_last (p := fun r : Request α => writesPage va r.1) hpage
  have hsame : (w', buf) = (w', buf') := last_unique hpage hlast hq hp
  rw [hlast, ← hsame]

/-! ## The invariant -/

/-- The entry of a page that was written names the frame whose slot it was
written to; while the page is out nothing else is written to this slot. -/
structure Inv (vm : Vm) : Prop where
  tables : TablesDistinct vm
  reached : ∀ a, (vm.getpte a).2 = true
  form : Formed vm.io
  slot : ∀ a w, last (writesPage a) vm.io = some w →
    w = writeRequest (frame vm a) (a &&& PAGE_MASK) ∧ frame vm a ≠ 0
  own : ∀ a w, last (writesPage a) vm.io = some w →
    vm.entryOf a &&& PTE_P = 0 →
      last (writesSlot (secStart (frame vm a))) vm.io = some w
  done : RoundTrips vm.io

variable {vm vm' : Vm} {log : List Io} {d s va n : Uint}

theorem writesPage_congr {a b : Uint} (hpage : SamePage a b) :
    writesPage a = writesPage b := by
  funext io
  cases io with
  | write =>
      apply decide_eq_decide.mpr
      rw [SamePage, SamePage, show a &&& PAGE_MASK = b &&& PAGE_MASK from hpage]
  | read => rfl

theorem frame_congr {a b : Uint} (hpage : SamePage a b) :
    frame vm a = frame vm b := by
  rw [frame, frame, entryOf_congr hpage]

/-- A split of a longer log. -/
theorem split_concat {before after : List Io} {x y : Io}
    (hsplit : log ++ [x] = before ++ y :: after) :
    (before = log ∧ y = x) ∨ ∃ after', log = before ++ y :: after' := by
  rcases List.eq_nil_or_concat after with rfl | ⟨after', z, rfl⟩
  · obtain ⟨hlog, hx⟩ := List.append_inj' hsplit rfl
    exact Or.inl ⟨hlog.symm, (List.singleton_inj.mp hx).symm⟩
  · right
    rw [List.concat_eq_append, ← List.cons_append, ← List.append_assoc]
      at hsplit
    exact ⟨after', (List.append_inj' hsplit rfl).1⟩

theorem RoundTrips.write (hlog : RoundTrips log) (hva : Aligned va) :
    RoundTrips (log ++ [.write d s va n]) := by
  constructor
  · intro d' s' va' n' hmem
    rcases List.mem_append.mp hmem with hold | hnew
    · exact hlog.aligned hold
    · obtain ⟨_, _, rfl, _⟩ := Io.write.inj (List.mem_singleton.mp hnew)
      exact hva
  · intro α disk before d' s' va' n' after hsplit
    rcases split_concat hsplit with ⟨_, hread⟩ | ⟨after', hold⟩
    · cases hread
    · exact hlog.answered disk before hold

theorem RoundTrips.read (hlog : RoundTrips log)
    (hread : ∀ {α : Type} (disk : Uint × Uint → α) (before : List (Request α)),
      before.map Prod.fst = log → ∀ w buf,
        last (fun r => writesPage va r.1) before = some (w, buf) →
          w = .write d s va n ∧
            ∀ j < n, replay stored disk before (d, s + j) = buf j) :
    RoundTrips (log ++ [.read d s va n]) := by
  constructor
  · intro d' s' va' n' hmem
    rcases List.mem_append.mp hmem with hold | hnew
    · exact hlog.aligned hold
    · cases List.mem_singleton.mp hnew
  · intro α disk before d' s' va' n' after hsplit
    rcases split_concat hsplit with ⟨hbefore, hlast⟩ | ⟨after', hold⟩
    · obtain ⟨rfl, rfl, rfl, rfl⟩ := Io.read.inj hlast
      exact hread disk before hbefore
    · exact hlog.answered disk before hold

/-- The directory has not changed. -/
theorem Inv.directory (hvm : Inv vm) (hpgd : vm'.pgd = vm.pgd) :
    TablesDistinct vm' ∧ ∀ a, (vm'.getpte a).2 = true := by
  have htableOf : ∀ a, vm'.tableOf a = vm.tableOf a := by
    intro a
    rw [tableOf, tableOf, hpgd]
  constructor
  · intro a b hne heq
    rw [htableOf] at hne
    rw [htableOf, htableOf] at heq
    exact hvm.tables a b hne heq
  · intro a
    rw [getpte_flag_iff, htableOf]
    exact (getpte_flag_iff vm a).mp (hvm.reached a)

theorem Inv.congr (hvm : Inv vm) (hpgd : vm'.pgd = vm.pgd)
    (hmem : vm'.mem = vm.mem) (hio : vm'.io = vm.io) : Inv vm' := by
  obtain ⟨htables, hreached⟩ := hvm.directory hpgd
  have hentry := entryOf_eq hpgd hmem
  have hframe : ∀ a, frame vm' a = frame vm a := by
    intro a
    rw [frame, frame, hentry]
  refine ⟨htables, hreached, ?_, ?_, ?_, ?_⟩
  · rw [hio]
    exact hvm.form
  · rw [hio]
    simp only [hframe]
    exact hvm.slot
  · rw [hio]
    simp only [hframe, hentry]
    exact hvm.own
  · rw [hio]
    exact hvm.done

/-- A page that is not present gets a new entry. -/
theorem Inv.entered (hvm : Inv vm) {entry : Uint} (htables : TablesDistinct vm')
    (hreached : ∀ a, (vm'.getpte a).2 = true) (hio : vm'.io = vm.io)
    (hentry : ∀ a, vm'.entryOf a =
      if SamePage a va then entry else vm.entryOf a)
    (habsent : vm.entryOf va &&& PTE_P = 0)
    (hframe : Written vm va → entry &&& PAGE_MASK = frame vm va) :
    Inv vm' := by
  have hsame : ∀ a w, last (writesPage a) vm.io = some w →
      frame vm' a = frame vm a := by
    intro a w hw
    rw [frame, hentry]
    by_cases hpage : SamePage a va
    · rw [if_pos hpage, frame_congr hpage]
      apply hframe
      rw [Written, ← writesPage_congr hpage, hw]
      rfl
    · rw [if_neg hpage, frame]
  refine ⟨htables, hreached, ?_, fun a w hw => ?_, fun a w hw hout => ?_, ?_⟩
  · rw [hio]
    exact hvm.form
  · rw [hio] at hw
    rw [hsame a w hw]
    exact hvm.slot a w hw
  · rw [hio] at hw ⊢
    rw [hsame a w hw]
    apply hvm.own a w hw
    by_cases hpage : SamePage a va
    · rw [entryOf_congr hpage]
      exact habsent
    · rw [hentry, if_neg hpage] at hout
      exact hout
  · rw [hio]
    exact hvm.done

/-- A page is read after its entry has been made. -/
theorem Inv.read (hvm : Inv vm) (hva : Aligned va)
    (hout : ∀ w, last (writesPage va) vm.io = some w →
      last (writesSlot (secStart (frame vm va))) vm.io = some w)
    {pa : Uint} (hframe : Written vm va → pa = frame vm va) :
    Inv (vm.addIo (readRequest pa va)) := by
  have hlast : ∀ a, last (writesPage a) (vm.io ++ [readRequest pa va]) =
      last (writesPage a) vm.io := by
    intro a
    rw [last_concat]
    rfl
  have hslot : ∀ t, last (writesSlot t) (vm.io ++ [readRequest pa va]) =
      last (writesSlot t) vm.io := by
    intro t
    rw [last_concat]
    rfl
  refine ⟨hvm.tables, hvm.reached, fun d s va' n hmem => ?_, fun a w hw => ?_,
    fun a w hw habsent => ?_, ?_⟩
  · rcases List.mem_append.mp hmem with hold | hnew
    · exact hvm.form d s va' n hold
    · cases List.mem_singleton.mp hnew
  · exact hvm.slot a w ((hlast a).symm.trans hw)
  · exact (hslot _).trans (hvm.own a w ((hlast a).symm.trans hw) habsent)
  · refine hvm.done.read fun disk before hbefore w buf hw => ?_
    have hpage : last (writesPage va) vm.io = some w := by
      rw [← hbefore, last_map, hw]
      rfl
    have hpa : pa = frame vm va := hframe (by rw [Written, hpage]; rfl)
    subst hpa
    have hw' := (hvm.slot va w hpage).1
    rw [hva.and_pageMask] at hw'
    refine ⟨hw', fun j hj => ?_⟩
    have hform : Formed (before.map Prod.fst) := by
      rw [hbefore]
      exact hvm.form
    refine replay_slot hform hw ?_ hw' hj
    rw [hbefore]
    exact hout w hpage

theorem writeRequest_page (pa va a : Uint) :
    writesPage a (writeRequest pa va) = decide (SamePage va a) := rfl

theorem writeRequest_slot (pa va t : Uint) :
    writesSlot t (writeRequest pa va) = decide (secStart pa = t) := rfl

theorem clear_present (entry : Uint) :
    (entry &&& ~~~PTE_P) &&& PAGE_MASK = entry &&& PAGE_MASK := by
  have hmask : ~~~PTE_P &&& PAGE_MASK = PAGE_MASK := by decide
  rw [BitVec.and_assoc, hmask]

/-- A page is written to the slot of its frame, and its entry made absent. -/
theorem Inv.evicted (hvm : Inv vm) (hfits : EvictFits vm va)
    (htables : TablesDistinct vm') (hreached : ∀ a, (vm'.getpte a).2 = true)
    (hio : vm'.io = vm.io ++ [writeRequest (frame vm va) va])
    (hentry : ∀ a, vm'.entryOf a =
      if SamePage a va then vm.entryOf va &&& ~~~PTE_P else vm.entryOf a) :
    Inv vm' := by
  have hframe : ∀ a, frame vm' a = frame vm a := by
    intro a
    rw [frame, hentry]
    by_cases hpage : SamePage a va
    · rw [if_pos hpage, clear_present, frame_congr hpage, frame]
    · rw [if_neg hpage, frame]
  have hlast : ∀ a, last (writesPage a) vm'.io =
      if SamePage va a then some (writeRequest (frame vm va) va)
      else last (writesPage a) vm.io := by
    intro a
    rw [hio, last_concat, writeRequest_page]
    simp only [decide_eq_true_eq]
  have hslot : ∀ t, last (writesSlot t) vm'.io =
      if secStart (frame vm va) = t then some (writeRequest (frame vm va) va)
      else last (writesSlot t) vm.io := by
    intro t
    rw [hio, last_concat, writeRequest_slot]
    simp only [decide_eq_true_eq]
  have haligned : ∀ a, Aligned (frame vm a) := fun a => aligned_and_pageMask _
  refine ⟨htables, hreached, ?_, fun a w hw => ?_, fun a w hw hout => ?_, ?_⟩
  · intro d s va' n hmem
    rw [hio] at hmem
    rcases List.mem_append.mp hmem with hold | hnew
    · exact hvm.form d s va' n hold
    · have hwrite := List.mem_singleton.mp hnew
      obtain ⟨_, _, rfl, _⟩ := Io.write.inj hwrite
      exact ⟨hfits.aligned, frame vm va', haligned va', hwrite⟩
  · rw [hframe]
    rw [hlast] at hw
    by_cases hpage : SamePage va a
    · rw [if_pos hpage] at hw
      obtain rfl := Option.some.inj hw
      rw [← frame_congr hpage, ← show va &&& PAGE_MASK = a &&& PAGE_MASK from hpage,
        hfits.aligned.and_pageMask]
      exact ⟨rfl, hfits.named⟩
    · rw [if_neg hpage] at hw
      exact hvm.slot a w hw
  · rw [hframe, hslot]
    rw [hlast] at hw
    by_cases hpage : SamePage va a
    · rw [if_pos hpage] at hw
      rw [if_pos (by rw [frame_congr hpage]), hw]
    · rw [if_neg hpage] at hw
      have hne : ¬ SamePage a va := fun h => hpage h.symm
      rw [hentry, if_neg hne] at hout
      have hwritten : Written vm a := by
        rw [Written, hw]
        rfl
      rw [if_neg, hvm.own a w hw hout]
      rw [secStart_inj (haligned va) (haligned a)]
      exact fun h => hfits.apart a hne hwritten hout h.symm
  · rw [hio]
    exact hvm.done.write hfits.aligned

/-! ## Steps -/

theorem map_effect {flags p : Uint} {pg : PagePtr}
    (htables : TablesDistinct vm) (hreached : ∀ a, (vm.getpte a).2 = true)
    (hfree : vm.tableOf va = 0 → TableFree vm)
    (hrun : vm.map flags p va = .ok (pg, vm')) :
    TablesDistinct vm' ∧ (∀ a, (vm'.getpte a).2 = true) ∧ vm'.io = vm.io ∧
      ∀ a, vm'.entryOf a =
        if SamePage a va then p &&& PAGE_MASK ||| flags else vm.entryOf a := by
  have hsupply : Supplied vm va := by
    intro hmissing
    rcases (map_cases hrun).2 with ⟨htable, _⟩ | ⟨_, q, vm₁, halloc, _⟩
    · exact absurd hmissing htable
    · exact ⟨q, vm₁, halloc, (hfree hmissing q vm₁ halloc).1⟩
  obtain ⟨pg', vm'', hmap, htables', hentry⟩ :=
    map_entryOf htables hsupply flags p
  obtain ⟨rfl, rfl⟩ := Prod.mk.inj (Except.ok.inj (hrun.symm.trans hmap))
  refine ⟨htables', ?_, ?_, hentry⟩
  · rcases (map_cases hrun).2 with ⟨_, rfl⟩ | ⟨hmissing, q, vm₁, halloc, rfl⟩
    · exact hreached
    · obtain ⟨hfresh, hhigh⟩ := hfree hmissing q vm₁ halloc
      obtain ⟨t, rfl, _⟩ := allocPages_cases halloc
      intro a
      have htableOf : (vm.withTable va ((vm.setPmm t).pmm.startAddr q)).tableOf
          a = if pgdIdx a = pgdIdx va then (vm.setPmm t).pmm.startAddr q
            else vm.tableOf a := withTable_tableOf hfresh a
      rw [getpte_flag_iff]
      change (vm.withTable va ((vm.setPmm t).pmm.startAddr q)).tableOf a +
        PAGE_OFFSET ≠ 0
      rw [htableOf]
      split
      · exact hhigh
      · exact (getpte_flag_iff vm a).mp (hreached a)
  · rcases (map_cases hrun).2 with ⟨_, rfl⟩ | ⟨_, q, vm₁, halloc, rfl⟩
    · rfl
    · obtain ⟨t, rfl, _⟩ := allocPages_cases halloc
      rfl

theorem Inv.allocPages (hvm : Inv vm) {m : Uint} {pg : PagePtr}
    (halloc : vm.allocPages m = .ok (pg, vm')) : Inv vm' := by
  obtain ⟨t, rfl, _⟩ := allocPages_cases halloc
  exact hvm.congr rfl rfl rfl

theorem Inv.mapSwappable (hvm : Inv vm) {page : PagePtr}
    (hrun : vm.mapSwappable page = .ok vm') : Inv vm' := by
  rcases mapSwappable_cases hrun with ⟨_, rfl⟩ | ⟨_, last, _, rfl⟩
  · exact hvm.congr rfl rfl rfl
  · exact hvm.congr rfl rfl rfl

theorem roundDown_eq (va : Uint) : roundDown va = va &&& PAGE_MASK := by
  have hlt := va.isLt
  rw [← BitVec.toNat_inj, toNat_and_pageMask, roundDown, BitVec.toNat_mul,
    BitVec.toNat_udiv, PGSIZE]
  change va.toNat / 4096 * 4096 % 4294967296 = _
  omega

theorem samePage_roundDown (va : Uint) : SamePage (roundDown va) va := by
  rw [SamePage, roundDown_eq, (aligned_and_pageMask va).and_pageMask]

theorem Written.tableOf_ne (hvm : Inv vm) (hwritten : Written vm va) :
    vm.tableOf va ≠ 0 := by
  obtain ⟨w, hw⟩ := Option.isSome_iff_exists.mp hwritten
  have hframe := (hvm.slot va w hw).2
  intro hmissing
  apply hframe
  rw [frame, entryOf, if_pos hmissing]
  rfl

theorem Written.readPte_eq (hvm : Inv vm) (hwritten : Written vm va) :
    vm.readPte va = .ok (vm.entryOf va) :=
  Vm.readPte_eq (hvm.reached va) (hwritten.tableOf_ne hvm)

theorem Written.entryOf_ne (hvm : Inv vm) (hwritten : Written vm va) :
    vm.entryOf va ≠ 0 := by
  obtain ⟨w, hw⟩ := Option.isSome_iff_exists.mp hwritten
  have hframe := (hvm.slot va w hw).2
  intro hzero
  apply hframe
  rw [frame, hzero]
  rfl

/-- A page without an entry is mapped. -/
theorem Inv.mapNew (hvm : Inv vm) {flags p : Uint} {pg : PagePtr}
    (habsent : vm.entryOf va &&& PTE_P = 0) (hzero : vm.readPte va = .ok 0)
    (hfree : vm.tableOf va = 0 → TableFree vm)
    (hrun : vm.map flags p va = .ok (pg, vm')) : Inv vm' := by
  obtain ⟨htables, hreached, hio, hentry⟩ :=
    map_effect hvm.tables hvm.reached hfree hrun
  refine hvm.entered htables hreached hio hentry habsent fun hwritten => ?_
  rw [hwritten.readPte_eq hvm] at hzero
  exact absurd (Except.ok.inj hzero) (hwritten.entryOf_ne hvm)

/-- A page is read for its new entry. -/
theorem Inv.swapIn (hvm : Inv vm) {flags : Uint} {r : ℕ} {p : PagePtr}
    (hflags : flags.toNat < 4096) (habsent : vm.entryOf va &&& PTE_P = 0)
    (hfits : ∀ pg vm₁, vm.allocPages 1 = .ok (pg, vm₁) →
      (vm.tableOf va = 0 → TableFree vm₁) ∧
        (Written vm va → vm₁.pmm.startAddr pg = frame vm va))
    (hrun : vm.swapIn va flags = .ok (r, p, vm')) : Inv vm' := by
  obtain ⟨_, pg, vm₁, vm₂, vm₃, halloc, _, htable, hmap, rfl⟩ :=
    swapIn_cases hrun
  obtain ⟨hfree, hsame⟩ := hfits pg vm₁ halloc
  have hvm₁ := hvm.allocPages halloc
  obtain ⟨t, rfl, _⟩ := allocPages_cases halloc
  rcases ensureTable_cases htable with ⟨_, rfl⟩ | ⟨hflag, _⟩
  · have hpage := samePage_roundDown va
    have hva : Aligned (roundDown va) := by
      rw [roundDown_eq]
      exact aligned_and_pageMask va
    have htableOf : (vm.setPmm t).tableOf (roundDown va) = vm.tableOf va :=
      tableOf_congr (samePage_iff.mp hpage).1
    have hentryOf : (vm.setPmm t).entryOf (roundDown va) = vm.entryOf va :=
      entryOf_congr hpage
    have hframe : frame (vm.setPmm t) (roundDown va) = frame vm va :=
      frame_congr hpage
    have hwritten : Written (vm.setPmm t) (roundDown va) → Written vm va := by
      intro h
      rw [Written, writesPage_congr hpage] at h
      exact h
    obtain ⟨htables, hreached, hio, hentry⟩ :=
      map_effect hvm₁.tables hvm₁.reached
        (fun hmissing => hfree (htableOf.symm.trans hmissing)) hmap
    have hnew : Written vm va →
        ((vm.setPmm t).pmm.startAddr pg &&& PAGE_MASK ||| flags) &&& PAGE_MASK =
          frame vm va := by
      intro h
      rw [(aligned_and_pageMask _).entry_frame hflags, hsame h]
      exact (aligned_and_pageMask _).and_pageMask
    have habsent₁ : (vm.setPmm t).entryOf (roundDown va) &&& PTE_P = 0 := by
      rw [hentryOf]
      exact habsent
    have hvm₃ := hvm₁.entered htables hreached hio hentry habsent₁ fun h => by
      rw [hframe]
      exact hnew (hwritten h)
    have hframe₃ : Written vm va →
        frame vm₃ (roundDown va) = frame vm va := by
      intro h
      have hself : SamePage (roundDown va) (roundDown va) := rfl
      rw [frame, hentry, if_pos hself]
      exact hnew h
    have hwritten₃ : Written vm₃ (roundDown va) → Written vm va := by
      intro h
      rw [Written, hio] at h
      exact hwritten h
    refine hvm₃.read hva (fun w hw => ?_) fun h => ?_
    · have h : Written vm va := hwritten₃ (by rw [Written, hw]; rfl)
      rw [hio] at hw ⊢
      rw [hframe₃ h, ← hframe]
      exact hvm₁.own _ w hw habsent₁
    · rw [hframe₃ (hwritten₃ h)]
      exact hsame (hwritten₃ h)
  · rw [hvm₁.reached] at hflag
    cases hflag

theorem Inv.doPgfault (hvm : Inv vm) (habsent : vm.entryOf va &&& PTE_P = 0)
    (hfits : Fits vm (.fault va)) (hrun : vm.doPgfault va = .ok vm') :
    Inv vm' := by
  obtain ⟨vma, mm, hfind, hcase⟩ := doPgfault_cases hrun
  have hmm : Inv { vm with mm := mm } := hvm.congr rfl rfl rfl
  rcases hcase with rfl | ⟨hzero, pg, vm₁, p, vm₂, halloc, hmap, hlist⟩ |
    ⟨_, p, vm₁, _, _, hin, hlist⟩
  · exact hmm
  · have hfree := (hfits vma mm pg vm₁ hfind halloc).1
    have hvm₁ := hmm.allocPages halloc
    obtain ⟨t, rfl, _⟩ := allocPages_cases halloc
    exact (hvm₁.mapNew habsent hzero hfree hmap).mapSwappable hlist
  · exact (hmm.swapIn (permOf_small _) habsent
      (fun pg vm₁ => hfits vma mm pg vm₁ hfind) hin).mapSwappable hlist

/-- `swap_out` leaves entries and requests alone, or writes one page and makes
it absent. -/
theorem Inv.swapOut_effect (hvm : Inv vm) {m r : ℕ}
    (hfits : Fits vm (.swapOut m)) (hrun : vm.swapOut m = .ok (r, vm')) :
    vm'.pgd = vm.pgd ∧
      ((vm'.mem = vm.mem ∧ vm'.io = vm.io) ∨
        ∃ va, EvictFits vm va ∧
          vm'.io = vm.io ++ [writeRequest (frame vm va) va] ∧
          ∀ a, vm'.entryOf a =
            if SamePage a va then vm.entryOf va &&& ~~~PTE_P
            else vm.entryOf a) := by
  rcases swapOut_cases hrun with ⟨_, rfl⟩ | ⟨hm, page, hvictim, hcase⟩
  · exact ⟨rfl, Or.inl ⟨rfl, rfl⟩⟩
  · rcases hcase with ⟨_, rfl⟩ | ⟨_, pte, hread, _, hevict⟩
    · exact ⟨rfl, Or.inl ⟨rfl, rfl⟩⟩
    · have hpage := hfits.resolve_left hm page hvictim
      generalize vm.pmm.va (some page) = va at *
      obtain ⟨t, hfree, rfl⟩ := evict_cases hevict
      obtain ⟨htable, hpte⟩ := readPte_ok hread
      rw [Vm.readPte_eq (hvm.reached va) htable] at hread
      obtain rfl := Except.ok.inj hread
      have hstore := entryOf_store hvm.tables htable
        (vm.entryOf va &&& ~~~PTE_P)
      have hturned_mem : (vm.turned page).mem = vm.mem := rfl
      rw [hturned_mem, ← hpte, getpte_addr (hvm.reached va)]
      refine ⟨rfl, Or.inr ⟨va, hpage, rfl, fun a => ?_⟩⟩
      refine (entryOf_eq ?_ ?_ a).trans (hstore a)
      · rfl
      · rfl

theorem Inv.swapOut (hvm : Inv vm) {m r : ℕ} (hfits : Fits vm (.swapOut m))
    (hrun : vm.swapOut m = .ok (r, vm')) : Inv vm' := by
  obtain ⟨hpgd, ⟨hmem, hio⟩ | ⟨va, hpage, hio, hentry⟩⟩ :=
    hvm.swapOut_effect hfits hrun
  · exact hvm.congr hpgd hmem hio
  · obtain ⟨htables, hreached⟩ := hvm.directory hpgd
    exact hvm.evicted hpage htables hreached hio hentry

/-! ## Runs -/

theorem Inv.step (hvm : Inv vm) {c : Swap.Call} (hstep : Step vm c vm')
    (hfits : Fits vm c) : Inv vm' := by
  cases c with
  | fault va => exact hvm.doPgfault hstep.2 hfits hstep.1
  | swapOut m =>
      obtain ⟨⟨r, vm₁⟩, hrun, rfl⟩ := map_ok_iff.mp hstep.1
      exact hvm.swapOut hfits hrun

theorem inv_of_empty (htables : TablesDistinct vm)
    (hreached : ∀ a, (vm.getpte a).2 = true) (hio : vm.io = []) : Inv vm := by
  have hnone : ∀ p, last p vm.io = none := by
    intro p
    rw [hio, last_nil]
  refine ⟨htables, hreached, ?_, fun a w hw => ?_, fun a w hw => ?_, ⟨?_, ?_⟩⟩
  · intro d s va n hmem
    rw [hio] at hmem
    cases hmem
  · rw [hnone] at hw
    cases hw
  · rw [hnone] at hw
    cases hw
  · intro d s va n hmem
    rw [hio] at hmem
    cases hmem
  · intro α disk before d s va n after hsplit
    rw [hio] at hsplit
    exact absurd hsplit.symm (by simp)

/-- In every run whose calls all fit, what is read for a page is what was
written for it last. -/
theorem swap_round_trips (htables : TablesDistinct vm)
    (hreached : ∀ a, (vm.getpte a).2 = true) (hio : vm.io = [])
    {calls : List Swap.Call}
    (hrun : Run (fun vm c vm' => Step vm c vm' ∧ Fits vm c) vm calls vm') :
    RoundTrips vm'.io := by
  have hvm' : Inv vm' := hrun.invariant Inv
    (fun _ _ _ hvm hstep => hvm.step hstep.1 hstep.2)
    (inv_of_empty htables hreached hio)
  exact hvm'.done

/-! ## Executing a run -/

/-- The next state, if the call can be made and returns. -/
def next (vm : Vm) (c : Swap.Call) : Option Vm :=
  match c with
  | .fault va =>
      if vm.entryOf va &&& PTE_P = 0 then Swap.next vm (.fault va) else none
  | .swapOut m => Swap.next vm (.swapOut m)

theorem step_of_next {c : Swap.Call} (hnext : next vm c = some vm') :
    Step vm c vm' := by
  cases c with
  | fault va =>
      unfold next at hnext
      dsimp only at hnext
      split at hnext
      next habsent => exact ⟨Swap.step_of_next hnext, habsent⟩
      next => cases hnext
  | swapOut m => exact ⟨Swap.step_of_next hnext, trivial⟩

/-- A request in numbers, which can be compared by evaluation. -/
def digest : Io → Bool × ℕ × ℕ × ℕ × ℕ
  | .write d s va n => (true, d.toNat, s.toNat, va.toNat, n.toNat)
  | .read d s va n => (false, d.toNat, s.toNat, va.toNat, n.toNat)

theorem digest_injective : Function.Injective digest := by
  intro x y hxy
  cases x <;> cases y <;>
    simp_all [digest, BitVec.toNat_inj]

theorem io_eq_of_digest {log : List Io}
    (hlog : vm.io.map digest = log.map digest) : vm.io = log :=
  List.map_injective_iff.mpr digest_injective hlog

instance (vm : Vm) (va : Uint) : Decidable (Written vm va) :=
  inferInstanceAs (Decidable (_ = _))

def tableFree (vm : Vm) : Bool :=
  match vm.allocPages 1 with
  | .error _ => true
  | .ok (pg, vm₁) =>
      let table := vm₁.pmm.startAddr pg
      decide (table.toNat % 4096 = 0 ∧ table ≠ 0 ∧
        (¬ ∃ k : Fin 1024, vm.pgd (BitVec.ofNat 32 k) &&& PAGE_MASK = table) ∧
        table + PAGE_OFFSET ≠ 0)

theorem tableFree_of (hfree : tableFree vm = true) : TableFree vm := by
  intro pg vm₁ halloc
  unfold tableFree at hfree
  rw [halloc] at hfree
  obtain ⟨haligned, hne, hunused, hhigh⟩ := of_decide_eq_true hfree
  refine ⟨⟨haligned, hne, fun a ha => ?_⟩, hhigh⟩
  exact hunused (exists_tableOf_iff.mp ⟨a, ha⟩)

def faultFits (vm : Vm) (va : Uint) : Bool :=
  match findVma vm.mm va with
  | .error _ => true
  | .ok (_, mm) =>
      match Vm.allocPages { vm with mm := mm } 1 with
      | .error _ => true
      | .ok (pg, vm₁) =>
          (decide (vm.tableOf va ≠ 0) || tableFree vm₁) &&
            (decide (¬ Written vm va) ||
              decide (vm₁.pmm.startAddr pg = frame vm va))

theorem fits_of_faultFits (hfits : faultFits vm va = true) :
    Fits vm (.fault va) := by
  intro vma mm pg vm₁ hfind halloc
  unfold faultFits at hfits
  rw [hfind] at hfits
  dsimp only at hfits
  rw [halloc] at hfits
  simp only [Bool.and_eq_true, Bool.or_eq_true, decide_eq_true_eq] at hfits
  obtain ⟨htable, hsame⟩ := hfits
  exact ⟨fun hmissing => tableFree_of (htable.resolve_left (not_not.mpr hmissing)),
    fun hwritten => hsame.resolve_left (not_not.mpr hwritten)⟩

/-- The first page of the clock list is a victim that fits, and nothing has
been written before. -/
def evictFits (vm : Vm) : Bool :=
  match vm.clockPoint with
  | none => false
  | some page =>
      let va := vm.pmm.va (some page)
      decide (askIsZero (vm.pmm.flags (some page)) = true ∧
        va.toNat % 4096 = 0 ∧ frame vm va ≠ 0 ∧ vm.io = [])

theorem fits_of_evictFits {m : ℕ} (hfits : evictFits vm = true) :
    Fits vm (.swapOut m) := by
  right
  intro page hvictim
  unfold evictFits at hfits
  cases hpoint : vm.clockPoint with
  | none => simp [hpoint] at hfits
  | some first =>
      rw [hpoint] at hfits hvictim
      obtain ⟨hask, haligned, hnamed, hio⟩ := of_decide_eq_true hfits
      obtain rfl := hvictim.unique (.here hask)
      refine ⟨haligned, hnamed, fun a _ hwritten => ?_⟩
      rw [Written, hio] at hwritten
      cases hwritten

theorem not_written_of_evictFits (hfits : evictFits vm = true) :
    ¬ Written vm va := by
  unfold evictFits at hfits
  cases hpoint : vm.clockPoint with
  | none => simp [hpoint] at hfits
  | some first =>
      rw [hpoint] at hfits
      obtain ⟨_, _, _, hio⟩ := of_decide_eq_true hfits
      rw [Written, hio]
      exact Bool.false_ne_true

def fittingNext (vm : Vm) (c : Swap.Call) : Option Vm :=
  match c with
  | .fault va => if faultFits vm va then next vm (.fault va) else none
  | .swapOut m => if evictFits vm then next vm (.swapOut m) else none

theorem fittingStep_of_next {c : Swap.Call}
    (hnext : fittingNext vm c = some vm') : Step vm c vm' ∧ Fits vm c := by
  cases c with
  | fault va =>
      unfold fittingNext at hnext
      dsimp only at hnext
      split at hnext
      next hfits => exact ⟨step_of_next hnext, fits_of_faultFits hfits⟩
      next => cases hnext
  | swapOut m =>
      unfold fittingNext at hnext
      dsimp only at hnext
      split at hnext
      next hfits => exact ⟨step_of_next hnext, fits_of_evictFits hfits⟩
      next => cases hnext

/-- `do_pgfault` on a page with an entry. -/
def swapFault (vm : Vm) (va : Uint) : Option Vm :=
  (findVma vm.mm va).toOption.bind fun r =>
    if r.1 = none ∨ va < (r.2.vma r.1).vmStart ∨ vm.swapInitOk = false then none
    else
      (Vm.swapIn { vm with mm := r.2 } va (permOf (r.2.vma r.1))).toOption.bind
        fun t => (t.2.2.mapSwappable t.2.1).toOption

theorem doPgfault_of_swapFault {pte : Uint} (hread : vm.readPte va = .ok pte)
    (hne : pte ≠ 0) (hfault : swapFault vm va = some vm') : vm.doPgfault va = .ok vm' := by
  unfold swapFault at hfault
  obtain ⟨⟨vma, mm⟩, hfind, hrest⟩ := Option.bind_eq_some_iff.mp hfault
  dsimp only at hrest
  split at hrest
  next => cases hrest
  next hin =>
    push Not at hin
    obtain ⟨hvma, hstart, hinit⟩ := hin
    obtain ⟨⟨r, p, vm₁⟩, hswap, hlist⟩ := Option.bind_eq_some_iff.mp hrest
    have hswap := BuddySession.eq_ok_of_toOption hswap
    obtain rfl := (swapIn_cases hswap).1
    have hread' : Vm.readPte { vm with mm := mm } va = .ok pte := hread
    have hskip : ¬ (vma = none ∨ va < (mm.vma vma).vmStart) := by
      rintro (h | h)
      · exact hvma h
      · exact hstart h
    have hinit' : vm.swapInitOk = true := by simpa using hinit
    unfold doPgfault
    rw [BuddySession.eq_ok_of_toOption hfind]
    change (if vma = none ∨ va < (mm.vma vma).vmStart then _ else _) = _
    rw [if_neg hskip, hread']
    change (if pte = 0 then _ else if vm.swapInitOk = true then _ else _) = _
    rw [if_neg hne, if_pos hinit']
    unfold permOf at hswap
    rw [hswap]
    exact BuddySession.eq_ok_of_toOption hlist

/-- The page that a `swap_out` has just written is absent. -/
theorem Inv.absent_of_written (hvm : Inv vm) {m r : ℕ}
    (hfits : Fits vm (.swapOut m)) (hrun : vm.swapOut m = .ok (r, vm'))
    (hnot : ¬ Written vm va) (hwritten : Written vm' va) :
    vm'.entryOf va &&& PTE_P = 0 ∧ frame vm' va = frame vm va := by
  obtain ⟨_, ⟨_, hio⟩ | ⟨va', _, hio, hentry⟩⟩ := hvm.swapOut_effect hfits hrun
  · rw [Written, hio] at hwritten
    exact absurd hwritten hnot
  · have hpage : SamePage va va' := by
      by_contra hne
      apply hnot
      rw [Written, hio, last_concat, writeRequest_page, if_neg] at hwritten
      · exact hwritten
      · simpa using fun h : SamePage va' va => hne h.symm
    have hzero : ~~~PTE_P &&& PTE_P = 0#32 := by decide
    rw [frame, hentry, if_pos hpage]
    constructor
    · rw [BitVec.and_assoc, hzero]
      exact BitVec.and_zero
    · rw [clear_present]
      exact (frame_congr hpage).symm

/-- After the page faults `faults` on six frames a page is written out, and a
fault brings it back. -/
theorem outAndIn (faults : List Swap.Call) (va : Uint) {α : Type*}
    (look : Vm → Vm → Vm → Option α) (a : α)
    (htrace : BuddySession.traceFrom Swap.start fittingNext 6 faults (fun vm =>
      if evictFits vm then
        (next vm (.swapOut 1)).bind fun vm₁ =>
          if Written vm₁ va then (swapFault vm₁ va).bind (look vm vm₁)
          else none
      else none) = some a) :
    ∃ p vm₀ vm₁ vm, Pmm.initBuddy (BuddySession.frameMap 6)
        (.boot BuddySession.zeroPage) = .ok p ∧
      Run (fun vm c vm' => Step vm c vm' ∧ Fits vm c) (Swap.start p)
        (faults ++ [.swapOut 1]) vm₁ ∧
      Step vm₁ (.fault va) vm ∧ frame vm₁ va = frame vm₀ va ∧
      look vm₀ vm₁ vm = some a := by
  obtain ⟨p, vm₀, hinit, hrun, hlook⟩ := BuddySession.run_of_traceFrom htrace
    fun _ _ _ => fittingStep_of_next
  have hvm₀ : Inv vm₀ := hrun.invariant Inv
    (fun _ _ _ hvm hstep => hvm.step hstep.1 hstep.2)
    (inv_of_empty (Swap.start_tablesDistinct p) (Swap.start_reached p) rfl)
  split at hlook
  next hevict =>
    obtain ⟨vm₁, hnext, hrest⟩ := Option.bind_eq_some_iff.mp hlook
    have hfits : Fits vm₀ (.swapOut 1) := fits_of_evictFits hevict
    have hout := step_of_next hnext
    have hvm₁ := hvm₀.step hout hfits
    split at hrest
    next hwritten =>
      obtain ⟨vm, hfault, hlook⟩ := Option.bind_eq_some_iff.mp hrest
      obtain ⟨⟨r, _⟩, hswap, rfl⟩ := map_ok_iff.mp hout.1
      obtain ⟨habsent, hframe⟩ := hvm₀.absent_of_written hfits hswap
        (not_written_of_evictFits hevict) hwritten
      have hread := doPgfault_of_swapFault (hwritten.readPte_eq hvm₁)
        (hwritten.entryOf_ne hvm₁) hfault
      exact ⟨p, vm₀, _, vm, hinit, hrun.snoc ⟨hout, hfits⟩, ⟨hread, habsent⟩,
        hframe, hlook⟩
    next => cases hrest
  next => cases hlook

/-- The page is read from another slot than it was written to. -/
theorem read_from_other_slot :
    ∃ p vm, Pmm.initBuddy (BuddySession.frameMap 6)
        (.boot BuddySession.zeroPage) = .ok p ∧
      Run Step (Swap.start p) [.fault 0xE0008000, .fault 0xE0009000, .swapOut 1,
        .fault 0xE0008000] vm ∧
      ¬ RoundTrips vm.io := by
  obtain ⟨p, _, vm₁, vm, hinit, hrun, hstep, _, hlook⟩ :=
    outAndIn [.fault 0xE0008000, .fault 0xE0009000] 0xE0008000
      (fun _ _ vm => some (vm.io.map digest))
      [(true, 1, 0x828, 0xE0008000, 8), (false, 1, 0x810, 0xE0008000, 8)]
      (by decide +kernel)
  refine ⟨p, vm, hinit, (hrun.mono fun _ _ _ h => h.1).snoc hstep,
    fun hlog => ?_⟩
  let before : List (Request Unit) :=
    [(.write 1 0x828 0xE0008000 8, fun _ => ())]
  have hio : vm.io = before.map Prod.fst ++ .read 1 0x810 0xE0008000 8 :: [] :=
    io_eq_of_digest (Option.some.inj hlook)
  have hsame := (hlog.answered (fun _ => ()) before hio
    (.write 1 0x828 0xE0008000 8) (fun _ => ()) rfl).1
  obtain ⟨_, hslot, _⟩ := Io.write.inj hsame
  exact absurd hslot (by decide)

/-- The frame `do_pgfault` gets for a page. -/
def frameFor (vm : Vm) (va : Uint) : Option Uint :=
  (findVma vm.mm va).toOption.bind fun r =>
    (Vm.allocPages { vm with mm := r.2 } 1).toOption.map fun t =>
      t.2.pmm.startAddr t.1

theorem fits_of_frameFor (htable : vm.tableOf va ≠ 0)
    (hsame : frameFor vm va = some (frame vm va)) : Fits vm (.fault va) := by
  intro vma mm pg vm₁ hfind halloc
  refine ⟨fun hmissing => absurd hmissing htable, fun _ => ?_⟩
  unfold frameFor at hsame
  rw [hfind] at hsame
  change (Vm.allocPages { vm with mm := mm } 1).toOption.map _ = _ at hsame
  rw [halloc] at hsame
  exact Option.some.inj hsame

/-- A page that gets its frame back is read from where it was written. -/
theorem swap_round_trips_one_page :
    ∃ p vm, Pmm.initBuddy (BuddySession.frameMap 6)
        (.boot BuddySession.zeroPage) = .ok p ∧
      Run Step (Swap.start p) [.fault 0xE0008000, .swapOut 1, .fault 0xE0008000]
        vm ∧
      vm.io = [.write 1 0x828 0xE0008000 8, .read 1 0x828 0xE0008000 8] ∧
      RoundTrips vm.io := by
  obtain ⟨p, vm₀, vm₁, vm, hinit, hrun, hstep, hframe, hlook⟩ :=
    outAndIn [.fault 0xE0008000] 0xE0008000
      (fun vm₀ vm₁ vm =>
        if vm₁.tableOf 0xE0008000 ≠ 0 ∧
            frameFor vm₁ 0xE0008000 = some (frame vm₀ 0xE0008000) then
          some (vm.io.map digest)
        else none)
      [(true, 1, 0x828, 0xE0008000, 8), (false, 1, 0x828, 0xE0008000, 8)]
      (by decide +kernel)
  obtain ⟨⟨htable, hsame⟩, hdigest⟩ := Option.ite_none_right_eq_some.mp hlook
  rw [← hframe] at hsame
  have hall := hrun.snoc ⟨hstep, fits_of_frameFor htable hsame⟩
  exact ⟨p, vm, hinit, hall.mono fun _ _ _ h => h.1,
    io_eq_of_digest (Option.some.inj hdigest),
    swap_round_trips (Swap.start_tablesDistinct p) (Swap.start_reached p) rfl
      hall⟩

end SwapData
end OS32
