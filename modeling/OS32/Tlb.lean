import OS32.Cache
import OS32.RefCount
import OS32.SwapData

/-!
# The translation lookaside buffer

The CPU keeps translations that it has found in the page tables and goes on to
use them after the tables have changed.  `map`, `unmap` and `swap_out` each
execute `invlpg` for the page whose entry they write.
-/

namespace OS32

open Transition

namespace Tlb

open Vm RefCount

/-- The entry that the CPU finds for a page in the tables. -/
def walk (vm : Vm) (q : PageNo) : Option Uint :=
  let a := pageAt q
  if vm.pgd (pgdIdx a) &&& PTE_P = 0 then none
  else if vm.mem (pteAddr (vm.tableOf a) a) &&& PTE_P = 0 then none
  else some (vm.mem (pteAddr (vm.tableOf a) a))

structure Core where
  vm : Vm
  tlb : PageNo → Option Uint

inductive Act where
  | call (c : Call)
  /-- A page fault that `do_pgfault` handles. -/
  | fault (va : Uint)
  /-- The CPU translates an address. -/
  | access (va : Uint)
  /-- The CPU needs the place of a page for another one. -/
  | evict (q : PageNo)

/-- The operands of `invlpg` in `swap_out`. -/
def swapOutFlushes : Vm → ℕ → List Uint
  | _, 0 => []
  | vm, n + 1 =>
      match vm.swapOutVictim with
      | .error _ => []
      | .ok (page, vm) =>
          let va := vm.pmm.va (some page)
          if (vm.getpte va).2 then [va] else swapOutFlushes vm n

/-- The operands of `invlpg` during a call that returns. -/
def flushes (vm : Vm) : Call → List Uint
  | .map _ _ v => [v]
  | .unmap v => if vm.tableOf v = 0 then [] else [v]
  | .swapOut n => swapOutFlushes vm n
  | .swapIn va _ => [roundDown va]
  | .alloc _ | .mapSwappable _ => []

/-- The operands of `invlpg` in `do_pgfault`. -/
def faultFlushes (vm : Vm) (va : Uint) : List Uint :=
  match findVma vm.mm va with
  | .error _ => []
  | .ok (vma, mm) =>
      if vma = none ∨ va < (mm.vma vma).vmStart then []
      else
        match vm.readPte va with
        | .error _ => []
        | .ok pte => if pte = 0 then [va] else [roundDown va]

/-- `invlpg` for each of the operands. -/
def flushed (tlb : PageNo → Option Uint) (operands : List Uint) :
    PageNo → Option Uint :=
  (operands.map pageOf).foldl Cache.invalidate tlb

inductive Step (s : Core) : Act → Core → Prop
  | call {c : Call} {vm : Vm} (hrun : RefCount.Step s.vm c vm) :
      Step s (.call c) ⟨vm, flushed s.tlb (flushes s.vm c)⟩
  | fault {va : Uint} {vm : Vm} (hrun : s.vm.doPgfault va = .ok vm) :
      Step s (.fault va) ⟨vm, flushed s.tlb (faultFlushes s.vm va)⟩
  | access (va : Uint) :
      Step s (.access va)
        { s with tlb := Cache.fill s.tlb (walk s.vm) (pageOf va) }
  | evict (q : PageNo) :
      Step s (.evict q) { s with tlb := Cache.invalidate s.tlb q }

/-- A frame that becomes a page table during the act is none yet. -/
def TablesFit (vm : Vm) : Act → Prop
  | .call (.map _ _ v) => vm.tableOf v = 0 → TableFits vm
  | .call (.swapIn va _) => ∀ pg vm₁, vm.allocPages 1 = .ok (pg, vm₁) →
      vm₁.tableOf (roundDown va) = 0 → TableFits vm₁
  | .fault va => ∀ mm pg vm₁,
      Vm.allocPages { vm with mm := mm } 1 = .ok (pg, vm₁) →
        vm₁.tableOf va = 0 → TableFits vm₁
  | _ => True

/-- A directory entry is present just if it has the frame of a page table. -/
def Marked (vm : Vm) : Prop :=
  ∀ a, vm.pgd (pgdIdx a) &&& PTE_P = 0 ↔ vm.tableOf a = 0

/-- The call has changed entries of the given pages only. -/
structure Keeps (vm vm' : Vm) (pages : List Uint) : Prop where
  sound : Sound vm'
  marked : Marked vm'
  entry : ∀ a, (∀ v ∈ pages, ¬ SamePage a v) → vm'.entryOf a = vm.entryOf a

variable {vm vm' vm₁ : Vm} {pages : List Uint}

/-! ## The walk of the CPU -/

theorem walk_eq (hmarked : Marked vm) (q : PageNo) :
    walk vm q =
      if vm.entryOf (pageAt q) &&& PTE_P = 0 then none
      else some (vm.entryOf (pageAt q)) := by
  unfold walk entryOf
  dsimp only
  by_cases htable : vm.tableOf (pageAt q) = 0
  · rw [if_pos ((hmarked _).mpr htable), if_pos htable]
    rfl
  · rw [if_neg (mt (hmarked _).mp htable), if_neg htable]

/-! ## The calls -/

theorem Keeps.refl (hsound : Sound vm) (hmarked : Marked vm) : Keeps vm vm [] :=
  ⟨hsound, hmarked, fun _ _ => rfl⟩

theorem Keeps.trans {pages' : List Uint} (hfirst : Keeps vm vm₁ pages)
    (hsecond : Keeps vm₁ vm' pages') : Keeps vm vm' (pages ++ pages') := by
  refine ⟨hsecond.sound, hsecond.marked, fun a ha => ?_⟩
  rw [hsecond.entry a fun v hv => ha v (List.mem_append_right _ hv)]
  exact hfirst.entry a fun v hv => ha v (List.mem_append_left _ hv)

theorem Keeps.mono {pages' : List Uint} (hkept : Keeps vm vm' pages)
    (hpages : pages ⊆ pages') : Keeps vm vm' pages' :=
  ⟨hkept.sound, hkept.marked, fun a ha =>
    hkept.entry a fun v hv => ha v (hpages hv)⟩

/-- Nothing the tables depend on has changed. -/
theorem Keeps.congr (hsound : Sound vm) (hmarked : Marked vm)
    (hpgd : vm'.pgd = vm.pgd) (hmem : vm'.mem = vm.mem)
    (hstart : vm'.pmm.startAddr = vm.pmm.startAddr)
    (hnum : vm'.pmm.phyPageNum = vm.pmm.phyPageNum) : Keeps vm vm' [] := by
  refine ⟨hsound.congr hpgd hstart hnum, fun a => ?_, fun a _ =>
    entryOf_eq hpgd hmem a⟩
  rw [tableOf, hpgd]
  exact hmarked a

/-- No other entry changes, also where the page table is missing and the write
goes astray. -/
theorem entryOf_store_of_ne (htables : TablesDistinct vm) {v a : Uint}
    (hpage : ¬ SamePage a v) (w : Uint) :
    (vm.store (pteAddr (vm.tableOf v) v) w).entryOf a = vm.entryOf a := by
  have hsame : (vm.store (pteAddr (vm.tableOf v) v) w).tableOf a =
      vm.tableOf a := rfl
  unfold entryOf
  rw [hsame]
  by_cases hmissing : vm.tableOf a = 0
  · rw [if_pos hmissing, if_pos hmissing]
  · have haddr : pteAddr (vm.tableOf a) a ≠ pteAddr (vm.tableOf v) v := by
      intro heq
      obtain ⟨htab, hpte⟩ := (pteAddr_inj (vm.tableOf_aligned a)
        (vm.tableOf_aligned v)).mp heq
      exact hpage (samePage_iff.mpr ⟨htables a v hmissing htab, hpte⟩)
    rw [if_neg hmissing, if_neg hmissing]
    simp [store, haddr]

/-- One entry has been written. -/
theorem Keeps.stored (hsound : Sound vm) (hmarked : Marked vm) (v w : Uint)
    {t : Pmm} (hstart : t.startAddr = vm.pmm.startAddr)
    (hnum : t.phyPageNum = vm.pmm.phyPageNum) :
    Keeps vm ((vm.store (pteAddr (vm.tableOf v) v) w).setPmm t) [v] := by
  refine ⟨hsound.congr rfl hstart hnum, hmarked, fun a ha => ?_⟩
  rw [entryOf_setPmm]
  exact entryOf_store_of_ne hsound.tables (ha v List.mem_cons_self) w

/-- `swap_out` has cleared the entry of its victim. -/
theorem Keeps.cleared (hsound : Sound vm) (hmarked : Marked vm) {v : Uint}
    {t : Pmm} (hstart : t.startAddr = vm.pmm.startAddr)
    (hnum : t.phyPageNum = vm.pmm.phyPageNum) (page : ℕ) (io : Io) (w : Uint) :
    Keeps vm ((((vm.turned page).addIo io).store (pteAddr (vm.tableOf v) v)
      w).setPmm t) [v] := by
  have hturned : Keeps vm ((vm.turned page).addIo io) [] :=
    .congr hsound hmarked rfl rfl rfl rfl
  exact hturned.trans (.stored hturned.sound hturned.marked v w hstart hnum)

theorem Keeps.alloc (hsound : Sound vm) (hmarked : Marked vm) {n : Uint}
    {pg : PagePtr} (halloc : vm.allocPages n = .ok (pg, vm')) :
    Keeps vm vm' [] := by
  obtain ⟨t, rfl, hmembers⟩ := allocPages_cases halloc
  exact .congr hsound hmarked rfl rfl (Pmm.startAddr_eq hmembers)
    (Pmm.phyPageNum_eq hmembers)

theorem Keeps.entered (hsound : Sound vm) (hmarked : Marked vm) (pg : PagePtr)
    (w v : Uint) : Keeps vm (vm.entered pg w v (vm.tableOf v)) [v] :=
  .stored hsound hmarked v w rfl rfl

theorem claimTable_pgd (vm : Vm) (pg : PagePtr) (v : Uint) :
    (vm.claimTable pg v).pgd = Function.update vm.pgd (pgdIdx v)
      (vm.pmm.startAddr pg ||| PTE_P ||| PTE_W) := rfl

theorem entry_marked (frame : Uint) :
    (frame ||| PTE_P ||| PTE_W) &&& PTE_P ≠ 0 := by
  intro hzero
  have hbit := congrArg (fun w : Uint => w.getLsbD 0) hzero
  simp [PTE_P] at hbit

/-- A new page table. -/
theorem Keeps.claimTable (hsound : Sound vm) (hmarked : Marked vm) {i : ℕ}
    {v : Uint} (hmissing : vm.tableOf v = 0) (hi : i < vm.pmm.phyPageNum)
    (hfresh : FreshTable vm (vm.pmm.startAddr (some i))) :
    Keeps vm (vm.claimTable (some i) v) [] := by
  refine ⟨hsound.claimTable hi hfresh, fun a => ?_, fun a _ =>
    withTable_entryOf hmissing hfresh a⟩
  have htableOf : (vm.claimTable (some i) v).tableOf a =
      if pgdIdx a = pgdIdx v then vm.pmm.startAddr (some i)
      else vm.tableOf a := withTable_tableOf hfresh a
  rw [htableOf, claimTable_pgd]
  by_cases hidx : pgdIdx a = pgdIdx v
  · rw [if_pos hidx, hidx, Function.update_self]
    exact iff_of_false (entry_marked _) hfresh.ne_zero
  · rw [if_neg hidx, Function.update_of_ne hidx]
    exact hmarked a

theorem Keeps.enteredTable (hsound : Sound vm) (hmarked : Marked vm) {i : ℕ}
    (pg : PagePtr) (w : Uint) {v : Uint} (hmissing : vm.tableOf v = 0)
    (hi : i < vm.pmm.phyPageNum) (hnot : ¬ IsTable vm i) :
    Keeps vm ((vm.claimTable (some i) v).entered pg w v
      (vm.pmm.startAddr (some i))) [v] := by
  have hfresh := hsound.fresh hi hnot
  have hclaimed := Keeps.claimTable hsound hmarked hmissing hi hfresh
  have htableOf : (vm.claimTable (some i) v).tableOf v =
      vm.pmm.startAddr (some i) :=
    (withTable_tableOf hfresh v).trans (if_pos rfl)
  have hentered := Keeps.entered hclaimed.sound hclaimed.marked pg w v
  rw [htableOf] at hentered
  exact hclaimed.trans hentered

theorem Keeps.map (hsound : Sound vm) (hmarked : Marked vm) {flags p v : Uint}
    {pg : PagePtr} (hfits : vm.tableOf v = 0 → TableFits vm)
    (hrun : vm.map flags p v = .ok (pg, vm')) : Keeps vm vm' [v] := by
  obtain ⟨_, ⟨htable, rfl⟩ | ⟨hmissing, q, vm₁, halloc, rfl⟩⟩ := map_cases hrun
  · exact .entered hsound hmarked pg _ v
  · obtain ⟨i, hi, rfl, hnot⟩ := hfits hmissing q vm₁ halloc
    have hkept := Keeps.alloc hsound hmarked halloc
    obtain ⟨t, rfl, hmembers⟩ := allocPages_cases halloc
    have hstart : (vm.setPmm t).pmm.startAddr = vm.pmm.startAddr :=
      Pmm.startAddr_eq hmembers
    have hnum : (vm.setPmm t).pmm.phyPageNum = vm.pmm.phyPageNum :=
      Pmm.phyPageNum_eq hmembers
    have hpgd : (vm.setPmm t).pgd = vm.pgd := rfl
    rw [← isTable_congr hpgd hstart] at hnot
    exact hkept.trans (.enteredTable hkept.sound hkept.marked pg _ hmissing
      (hi.trans_eq hnum.symm) hnot)

/-- The operand of `invlpg` in `unmap`. -/
theorem Keeps.unmap (hsound : Sound vm) (hmarked : Marked vm) (v : Uint) :
    Keeps vm (vm.unmap v) (if vm.tableOf v = 0 then [] else [v]) := by
  by_cases htable : vm.tableOf v = 0
  · rw [Vm.unmap, if_pos htable, if_pos htable]
    exact .refl hsound hmarked
  · obtain ⟨hstart, hnum⟩ := dropRef_members vm.pmm
      (findPageIndex vm.pmm (vm.entryOf v &&& PAGE_MASK))
    rw [unmap_eq htable, if_neg htable]
    exact .stored hsound hmarked v 0 hstart hnum

/-- As `getpte` finds all page tables, `swap_out` evicts its first victim. -/
theorem Keeps.swapOut (hsound : Sound vm) (hmarked : Marked vm) {n r : ℕ}
    (hrun : vm.swapOut n = .ok (r, vm')) :
    Keeps vm vm' (swapOutFlushes vm n) := by
  cases n with
  | zero =>
      cases hrun
      exact .refl hsound hmarked
  | succ n =>
      obtain ⟨⟨page, vm₁⟩, hvictim, _⟩ := bind_ok_iff.mp hrun
      obtain ⟨hpage, rfl⟩ := swapOutVictimFrom_cases hvictim
      have hflag := hsound.reached (vm.pmm.va (some page))
      have hflushes : swapOutFlushes vm (n + 1) = [vm.pmm.va (some page)] := by
        rw [swapOutFlushes, hvictim]
        exact if_pos hflag
      obtain ⟨page', _, hpage', _, _, ⟨hno, _⟩ | ⟨_, _, hevict⟩⟩ :=
        swapOut_turn hrun
      · obtain rfl := hpage.unique hpage'
        rw [hflag] at hno
        cases hno
      · obtain rfl := hpage.unique hpage'
        rw [hflushes]
        obtain ⟨t, hfree, rfl⟩ := evict_cases hevict
        have hmembers := Pmm.members_freeBuddy hfree
        obtain ⟨hstart, hnum⟩ := dropRef_members (vm.turned page).pmm page
        rw [getpte_addr hflag]
        exact .cleared hsound hmarked ((Pmm.startAddr_eq hmembers).trans hstart)
          ((Pmm.phyPageNum_eq hmembers).trans hnum) _ _ _

/-- `swap_in` makes no page table but the one `map` makes. -/
theorem Keeps.swapIn (hsound : Sound vm) (hmarked : Marked vm) {va flags : Uint}
    {r : ℕ} {p : PagePtr}
    (hfits : ∀ pg vm₁, vm.allocPages 1 = .ok (pg, vm₁) →
      vm₁.tableOf (roundDown va) = 0 → TableFits vm₁)
    (hrun : vm.swapIn va flags = .ok (r, p, vm')) :
    Keeps vm vm' [roundDown va] := by
  obtain ⟨_, pg, vm₁, vm₂, vm₃, halloc, _, htable, hmap, rfl⟩ :=
    swapIn_cases hrun
  have hkept := Keeps.alloc hsound hmarked halloc
  obtain ⟨_, rfl⟩ | ⟨hflag, _⟩ := ensureTable_cases htable
  · have hmapped := Keeps.map hkept.sound hkept.marked (hfits pg _ halloc) hmap
    exact hkept.trans (hmapped.trans
      (.congr hmapped.sound hmapped.marked rfl rfl rfl rfl))
  · rw [hkept.sound.reached] at hflag
    cases hflag

theorem Keeps.mapSwappable (hsound : Sound vm) (hmarked : Marked vm)
    {page : PagePtr} (hrun : vm.mapSwappable page = .ok vm') :
    Keeps vm vm' [] := by
  rcases mapSwappable_cases hrun with ⟨_, rfl⟩ | ⟨_, last, _, rfl⟩
  · exact .congr hsound hmarked rfl rfl rfl rfl
  · exact .congr hsound hmarked rfl rfl rfl rfl

theorem Keeps.call (hsound : Sound vm) (hmarked : Marked vm) {c : Call}
    (hfits : TablesFit vm (.call c)) (hrun : RefCount.Step vm c vm') :
    Keeps vm vm' (flushes vm c) := by
  cases c with
  | alloc n =>
      obtain ⟨⟨pg, vm₁⟩, halloc, rfl⟩ := map_ok_iff.mp hrun
      exact .alloc hsound hmarked halloc
  | map flags p v =>
      obtain ⟨⟨pg, vm₁⟩, hmap, rfl⟩ := map_ok_iff.mp hrun
      exact .map hsound hmarked hfits hmap
  | unmap v =>
      obtain rfl := Except.ok.inj hrun
      exact .unmap hsound hmarked v
  | swapOut n =>
      obtain ⟨⟨r, vm₁⟩, hout, rfl⟩ := map_ok_iff.mp hrun
      exact .swapOut hsound hmarked hout
  | swapIn va flags =>
      obtain ⟨⟨r, p, vm₁⟩, hin, rfl⟩ := map_ok_iff.mp hrun
      exact .swapIn hsound hmarked hfits hin
  | mapSwappable page => exact .mapSwappable hsound hmarked hrun

theorem Keeps.fault (hsound : Sound vm) (hmarked : Marked vm) {va : Uint}
    (hfits : TablesFit vm (.fault va)) (hrun : vm.doPgfault va = .ok vm') :
    Keeps vm vm' (faultFlushes vm va) := by
  obtain ⟨⟨vma, mm⟩, hfind, hrest⟩ := bind_ok_iff.mp hrun
  have hcache : Keeps vm { vm with mm := mm } [] :=
    .congr hsound hmarked rfl rfl rfl rfl
  unfold faultFlushes
  rw [hfind]
  dsimp only
  by_cases hout : vma = none ∨ va < (mm.vma vma).vmStart
  · dsimp only at hrest
    rw [if_pos hout] at hrest
    obtain rfl := Except.ok.inj hrest
    rw [if_pos hout]
    exact hcache
  rw [if_neg hout]
  obtain ⟨vma', mm', hfind', hcase⟩ := doPgfault_cases hrun
  obtain ⟨rfl, rfl⟩ := Prod.mk.inj (Except.ok.inj (hfind.symm.trans hfind'))
  rcases hcase with rfl | ⟨hread, pg, vm₁, p, vm₂, halloc, hmap, hlist⟩ |
    ⟨pte, p, vm₁, hread, hentry, hin, hlist⟩
  · exact hcache.mono (List.nil_subset _)
  · rw [hread]
    dsimp only
    rw [if_pos rfl]
    have hkept := Keeps.alloc hcache.sound hcache.marked halloc
    have hmapped := Keeps.map hkept.sound hkept.marked (hfits _ _ _ halloc) hmap
    have hlisted := Keeps.mapSwappable hmapped.sound hmapped.marked hlist
    exact hcache.trans (hkept.trans (hmapped.trans hlisted))
  · rw [hread]
    dsimp only
    rw [if_neg hentry]
    have hin := Keeps.swapIn hcache.sound hcache.marked
      (fun pg vm₁ halloc htable => hfits _ pg vm₁ halloc (by
        rwa [tableOf_congr (samePage_iff.mp (SwapData.samePage_roundDown va)).1]
          at htable)) hin
    have hlisted := Keeps.mapSwappable hin.sound hin.marked hlist
    exact hcache.trans (hin.trans hlisted)

/-! ## The cached translations -/

structure Current (s : Core) : Prop where
  sound : Sound s.vm
  marked : Marked s.vm
  coherent : Cache.Coherent s.tlb (walk s.vm)

theorem Keeps.current {s : Core} (hs : Current s)
    (hkept : Keeps s.vm vm' pages) : Current ⟨vm', flushed s.tlb pages⟩ := by
  refine ⟨hkept.sound, hkept.marked, hs.coherent.changed fun q hq => ?_⟩
  rw [walk_eq hkept.marked, walk_eq hs.marked, hkept.entry (pageAt q)]
  intro v hv hpage
  rw [samePage_pageAt.mp hpage] at hq
  exact hq (List.mem_map_of_mem hv)

theorem Current.step {s t : Core} {a : Act} (hs : Current s) (hstep : Step s a t)
    (hfits : TablesFit s.vm a) : Current t := by
  cases hstep with
  | call hrun => exact (Keeps.call hs.sound hs.marked hfits hrun).current hs
  | fault hrun => exact (Keeps.fault hs.sound hs.marked hfits hrun).current hs
  | access va => exact ⟨hs.sound, hs.marked, hs.coherent.fill _⟩
  | evict q => exact ⟨hs.sound, hs.marked, hs.coherent.invalidate q⟩

theorem Current.getmapping {s : Core} (hs : Current s) {a w : Uint}
    (hcached : s.tlb (pageOf a) = some w) :
    w &&& PTE_P ≠ 0 ∧ s.vm.getmapping a = some (w &&& PAGE_MASK) := by
  have hwalk := hs.coherent _ _ hcached
  have hentry : s.vm.entryOf (pageAt (pageOf a)) = s.vm.entryOf a :=
    entryOf_congr (samePage_pageAt.mpr rfl)
  rw [walk_eq hs.marked, hentry] at hwalk
  by_cases hpresent : s.vm.entryOf a &&& PTE_P = 0
  · rw [if_pos hpresent] at hwalk
    cases hwalk
  rw [if_neg hpresent] at hwalk
  obtain rfl := Option.some.inj hwalk
  refine ⟨hpresent, ?_⟩
  rw [getmapping_eq, if_neg]
  intro hzero
  rw [hzero] at hpresent
  exact hpresent (BitVec.zero_and)

theorem tablesFit_of_fits {c : Call} (hfits : Fits vm c) :
    TablesFit vm (.call c) := by
  cases c with
  | map => exact hfits.table
  | swapIn => exact fun pg vm₁ halloc => (hfits pg vm₁ halloc).table
  | alloc | unmap | swapOut | mapSwappable => trivial

theorem run_of_calls (tlb : PageNo → Option Uint) {calls : List Call}
    (hrun : Run (fun vm c vm' => RefCount.Step vm c vm' ∧ Fits vm c) vm calls
      vm') :
    ∃ tlb', Run (fun s a t => Step s a t ∧ TablesFit s.vm a) ⟨vm, tlb⟩
      (calls.map .call) ⟨vm', tlb'⟩ := by
  induction hrun with
  | nil => exact ⟨tlb, .nil⟩
  | snoc _ hlast ih =>
      obtain ⟨tlb', hcore⟩ := ih
      rw [List.map_append]
      exact ⟨_, hcore.snoc ⟨.call hlast.1, tablesFit_of_fits hlast.2⟩⟩

end Tlb
end OS32
