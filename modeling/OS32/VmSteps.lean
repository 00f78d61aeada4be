import OS32.BuddyFrame
import OS32.PageTableAlgebra

/-!
# What the calls of `vmm.c` and `swapmm.c` can do

One inversion lemma for each call that returns, in any state.  The results on
reference counts, the clock list and the swapped data are read off these.
-/

namespace OS32

open NullList

namespace Vm

variable {vm vm' : Vm}

/-! ## `FindPageIndex` -/

theorem findPageFrom_congr {s t : Pmm} (hstart : t.startAddr = s.startAddr)
    (paddr : Uint) (fuel i : ℕ) :
    findPageFrom t paddr fuel i = findPageFrom s paddr fuel i := by
  induction fuel generalizing i with
  | zero => rfl
  | succ fuel ih => rw [findPageFrom, findPageFrom, hstart, ih]

theorem findPageIndex_congr {s t : Pmm} (hstart : t.startAddr = s.startAddr)
    (paddr : Uint) : findPageIndex t paddr = findPageIndex s paddr :=
  findPageFrom_congr hstart paddr _ _

theorem findPageFrom_eq {s : Pmm} {paddr : Uint} {fuel i j : ℕ} (hij : i ≤ j)
    (hj : j < i + fuel) (hfound : s.startAddr (some j) = paddr)
    (hfirst : ∀ m, i ≤ m → m < j → s.startAddr (some m) ≠ paddr) :
    findPageFrom s paddr fuel i = j := by
  induction fuel generalizing i with
  | zero => omega
  | succ fuel ih =>
      unfold findPageFrom
      rcases Nat.eq_or_lt_of_le hij with rfl | hlt
      · rw [if_pos hfound]
      · rw [if_neg (hfirst i (le_refl i) hlt)]
        exact ih hlt (by omega) fun m hm hmj => hfirst m (by omega) hmj

/-- `FindPageIndex` finds the first page with the address. -/
theorem findPageIndex_eq {s : Pmm} {paddr : Uint} {j : ℕ}
    (hj : j < MAX_PG_NUM) (hfound : s.startAddr (some j) = paddr)
    (hfirst : ∀ m < j, s.startAddr (some m) ≠ paddr) :
    findPageIndex s paddr = j :=
  findPageFrom_eq (Nat.zero_le j) (by omega) hfound fun m _ hmj => hfirst m hmj

/-! ## `getpte` -/

theorem getpte_flag_iff (vm : Vm) (a : Uint) :
    (vm.getpte a).2 = true ↔ vm.tableOf a + PAGE_OFFSET ≠ 0 := by
  unfold getpte
  generalize vm.tableOf a + PAGE_OFFSET = pte
  by_cases hzero : pte = 0
  · subst hzero
    simp
  · simp only [if_neg hzero]
    simpa using hzero

/-- Where `getpte` gives a pointer it is the one `map` writes through. -/
theorem getpte_addr {a : Uint} (hflag : (vm.getpte a).2 = true) :
    (vm.getpte a).1 = pteAddr (vm.tableOf a) a := by
  have hne := (getpte_flag_iff vm a).mp hflag
  unfold getpte pteAddr
  generalize vm.tableOf a + PAGE_OFFSET = pte at *
  simp only [if_neg hne]

/-! An address space with one page table, at `frame` behind the directory entry
`k`. -/

theorem tablesDistinct_of_one {k frame : Uint}
    (hone : ∀ b, vm.tableOf b = if pgdIdx b = k then frame else 0) :
    TablesDistinct vm := by
  have hidx : ∀ b, vm.tableOf b ≠ 0 → pgdIdx b = k := by
    intro b hb
    by_contra hne
    rw [hone, if_neg hne] at hb
    exact hb rfl
  intro a b ha hab
  rw [hidx a ha, hidx b (hab ▸ ha)]

theorem reached_of_one {k frame : Uint} (hframe : frame + PAGE_OFFSET ≠ 0)
    (hone : ∀ b, vm.tableOf b = if pgdIdx b = k then frame else 0) (b : Uint) :
    (vm.getpte b).2 = true := by
  rw [getpte_flag_iff, hone]
  split
  · exact hframe
  · decide

theorem bare_reached (pmm : Pmm) (a : Uint) : ((bare pmm).getpte a).2 = true := by
  have htable : (bare pmm).tableOf a = 0 := by simp [bare, tableOf]
  rw [getpte_flag_iff, htable]
  decide

/-! ## Allocation -/

theorem allocPages_cases {n : Uint} {p : PagePtr}
    (hrun : vm.allocPages n = .ok (p, vm')) :
    ∃ t, vm' = vm.setPmm t ∧ t.members = vm.pmm.members := by
  obtain ⟨⟨q, t⟩, halloc, hret⟩ := bind_ok_iff.mp hrun
  cases hret
  exact ⟨t, rfl, Pmm.members_allocPages halloc⟩

/-- What `map` and `swap_in` do with the frame for a new page table. -/
def claimTable (vm : Vm) (pg : PagePtr) (v : Uint) : Vm :=
  let frame := vm.pmm.startAddr pg
  (vm.withTable v frame).setPmm
    ((vm.pmm.setRefNum pg (vm.pmm.refNum pg + 1)).setVa pg
      (frame + PAGE_OFFSET))

theorem claimTable_startAddr (vm : Vm) (pg : PagePtr) (v : Uint) :
    (vm.claimTable pg v).pmm.startAddr = vm.pmm.startAddr := rfl

theorem newTable_cases {v frame : Uint}
    (hrun : vm.newTable v = .ok (frame, vm')) :
    ∃ pg vm₁, vm.allocPages 1 = .ok (pg, vm₁) ∧
      frame = vm₁.pmm.startAddr pg ∧ vm' = vm₁.claimTable pg v := by
  obtain ⟨⟨pg, vm₁⟩, halloc, hret⟩ := bind_ok_iff.mp hrun
  cases hret
  exact ⟨pg, vm₁, halloc, rfl, rfl⟩

/-! ## `map` -/

/-- What `map` writes: the entry of `v`, and the count and address of the page
`pg`. -/
def entered (vm : Vm) (pg : PagePtr) (entry v table : Uint) : Vm :=
  (vm.store (pteAddr table v) entry).setPmm
    ((vm.pmm.setRefNum pg (vm.pmm.refNum pg + 1)).setVa pg v)

theorem enter_eq_entered (vm : Vm) (flags p v table : Uint) :
    vm.enter flags p v table = (some (findPageIndex vm.pmm p),
      vm.entered (some (findPageIndex vm.pmm p)) (p &&& PAGE_MASK ||| flags) v
        table) := rfl

/-- `map` returns the page which `FindPageIndex` finds. -/
theorem map_cases {flags p v : Uint} {pg : PagePtr}
    (hrun : vm.map flags p v = .ok (pg, vm')) :
    pg = some (findPageIndex vm.pmm p) ∧
      ((vm.tableOf v ≠ 0 ∧
          vm' = vm.entered pg (p &&& PAGE_MASK ||| flags) v (vm.tableOf v)) ∨
        (vm.tableOf v = 0 ∧ ∃ q vm₁, vm.allocPages 1 = .ok (q, vm₁) ∧
          vm' = (vm₁.claimTable q v).entered pg (p &&& PAGE_MASK ||| flags) v
            (vm₁.pmm.startAddr q))) := by
  unfold map at hrun
  by_cases htable : vm.tableOf v = 0
  · rw [if_pos htable] at hrun
    obtain ⟨⟨frame, vm₂⟩, hnew, hret⟩ := bind_ok_iff.mp hrun
    obtain ⟨q, vm₁, halloc, rfl, rfl⟩ := newTable_cases hnew
    have henter := (enter_eq_entered _ _ _ _ _).symm.trans (Except.ok.inj hret)
    obtain ⟨t, rfl, hmembers⟩ := allocPages_cases halloc
    have hstart : (vm.setPmm t).pmm.startAddr = vm.pmm.startAddr :=
      Pmm.startAddr_eq hmembers
    rw [findPageIndex_congr (claimTable_startAddr _ q v),
      findPageIndex_congr hstart] at henter
    obtain ⟨rfl, hvm⟩ := Prod.mk.inj henter
    exact ⟨rfl, Or.inr ⟨htable, q, _, halloc, hvm.symm⟩⟩
  · rw [if_neg htable] at hrun
    have henter := (enter_eq_entered _ _ _ _ _).symm.trans (Except.ok.inj hrun)
    obtain ⟨rfl, hvm⟩ := Prod.mk.inj henter
    exact ⟨rfl, Or.inl ⟨htable, hvm.symm⟩⟩

/-! ## `swap_in` -/

theorem ensureTable_cases {va : Uint} (hrun : vm.ensureTable va = .ok vm') :
    ((vm.getpte va).2 = true ∧ vm' = vm) ∨
      ((vm.getpte va).2 = false ∧ ∃ pg vm₁,
        vm.allocPages 1 = .ok (pg, vm₁) ∧ vm' = vm₁.claimTable pg va) := by
  unfold ensureTable at hrun
  by_cases hflag : (vm.getpte va).2 = true
  · left
    rw [if_pos hflag] at hrun
    exact ⟨hflag, (Except.ok.inj hrun).symm⟩
  · right
    rw [if_neg hflag] at hrun
    obtain ⟨⟨frame, vm₂⟩, hnew, rfl⟩ := map_ok_iff.mp hrun
    obtain ⟨pg, vm₁, halloc, _, hvm⟩ := newTable_cases hnew
    exact ⟨Bool.eq_false_iff.mpr hflag, pg, vm₁, halloc, hvm⟩

/-- `ROUNDDOWN(va, PGSIZE)`. -/
def roundDown (va : Uint) : Uint := va / PGSIZE * PGSIZE

def readRequest (pa va : Uint) : Io := .read SWAP_NO (secStart pa) va PAGE_NSECT

def writeRequest (pa va : Uint) : Io :=
  .write SWAP_NO (secStart pa) va PAGE_NSECT

def addIo (vm : Vm) (io : Io) : Vm := { vm with io := vm.io ++ [io] }

/-- `swap_in` allocates a frame, makes a page table where `getpte` gives NULL,
maps the frame and reads the page. -/
theorem swapIn_cases {va flags : Uint} {r : ℕ} {p : PagePtr}
    (hrun : vm.swapIn va flags = .ok (r, p, vm')) :
    r = 1 ∧ ∃ pg vm₁ vm₂ vm₃, vm.allocPages 1 = .ok (pg, vm₁) ∧ pg ≠ none ∧
      vm₁.ensureTable (roundDown va) = .ok vm₂ ∧
      vm₂.map flags (vm₁.pmm.startAddr pg) (roundDown va) = .ok (p, vm₃) ∧
      vm' = vm₃.addIo (readRequest (vm₁.pmm.startAddr pg) (roundDown va)) := by
  obtain ⟨⟨pg, vm₁⟩, halloc, hrest⟩ := bind_ok_iff.mp hrun
  dsimp only at hrest
  by_cases hnone : pg = none
  · rw [if_pos hnone] at hrest
    cases hrest
  · rw [if_neg hnone] at hrest
    obtain ⟨vm₂, htable, hrest⟩ := bind_ok_iff.mp hrest
    obtain ⟨⟨q, vm₃⟩, hmap, hret⟩ := bind_ok_iff.mp hrest
    cases hret
    exact ⟨rfl, pg, vm₁, vm₂, vm₃, halloc, hnone, htable, hmap, rfl⟩

/-! ## The clock list -/

theorem mapSwappable_cases {p : PagePtr} (hrun : vm.mapSwappable p = .ok vm') :
    let pmm := vm.pmm.setFlags p (vm.pmm.flags p &&& ~~~PAGE_A)
    (vm.clockPoint = none ∧ vm' = { vm with pmm := pmm, clockPoint := p }) ∨
      (vm.clockPoint ≠ none ∧ ∃ last,
        pmm.lastPage vm.clockPoint = .ok last ∧
        vm' = vm.setPmm (pmm.setLinks (pmm.links.join last p))) := by
  intro pmm
  unfold mapSwappable at hrun
  by_cases hnone : vm.clockPoint = none
  · left
    dsimp only at hrun
    rw [if_pos hnone] at hrun
    exact ⟨hnone, (Except.ok.inj hrun).symm⟩
  · right
    dsimp only at hrun
    rw [if_neg hnone] at hrun
    obtain ⟨last, hlast, hret⟩ := bind_ok_iff.mp hrun
    exact ⟨hnone, last, hlast, (Except.ok.inj hret).symm⟩

/-- The first page on the list from `p` on with a flag set. -/
inductive Victim (s : Pmm) : PagePtr → ℕ → Prop
  | here {a : ℕ} : askIsZero (s.flags (some a)) = true → Victim s (some a) a
  | next {a page : ℕ} : askIsZero (s.flags (some a)) = false →
      Victim s (s.links.next (some a)) page → Victim s (some a) page

theorem Victim.unique {s : Pmm} {p : PagePtr} {a b : ℕ} (ha : Victim s p a)
    (hb : Victim s p b) : a = b := by
  induction ha with
  | here hask =>
      cases hb with
      | here => rfl
      | next hskip => simp [hask] at hskip
  | next hskip _ ih =>
      cases hb with
      | here hask => simp [hskip] at hask
      | next _ hrest => exact ih hrest

/-- The page that `swap_out_victim` chooses is marked and stays at the head of
the list. -/
def turned (vm : Vm) (page : ℕ) : Vm :=
  { vm with
    pmm := vm.pmm.setFlags (some page) (vm.pmm.flags (some page) ||| PAGE_A)
    clockPoint := some page }

theorem swapOutVictimFrom_cases {fuel : ℕ} {page : ℕ}
    (hrun : swapOutVictimFrom fuel vm = .ok (page, vm')) :
    Victim vm.pmm vm.clockPoint page ∧ vm' = vm.turned page := by
  induction fuel generalizing vm with
  | zero => cases hrun
  | succ fuel ih =>
      unfold swapOutVictimFrom at hrun
      cases hpoint : vm.clockPoint with
      | none =>
          rw [hpoint] at hrun
          cases hrun
      | some a =>
          rw [hpoint] at hrun
          dsimp only at hrun
          cases hask : askIsZero (vm.pmm.flags (some a)) with
          | true =>
              rw [if_pos hask] at hrun
              cases hrun
              exact ⟨.here hask, by rw [turned, ← hpoint]; rfl⟩
          | false =>
              rw [if_neg (by simp [hask])] at hrun
              rcases ih hrun with ⟨hvictim, rfl⟩
              exact ⟨.next hask hvictim, rfl⟩

/-! ## `swap_out` -/

theorem askIsZero_iff {flags : Uint} : askIsZero flags = true ↔ flags ≠ 0 := by
  unfold askIsZero
  rw [if_neg (show PAGE_A ≠ 0 by decide)]
  simp

theorem or_pageA_ne_zero (flags : Uint) : flags ||| PAGE_A ≠ 0 := by
  intro hzero
  have hbit := congrArg (fun v : Uint => v.getLsbD 11) hzero
  simp [PAGE_A] at hbit

theorem turned_victim (vm : Vm) (page : ℕ) :
    Victim (vm.turned page).pmm (vm.turned page).clockPoint page := by
  apply Victim.here
  simp only [turned, Pmm.setFlags, Function.update_self]
  exact askIsZero_iff.mpr (or_pageA_ne_zero _)

theorem turned_turned (vm : Vm) (page : ℕ) :
    (vm.turned page).turned page = vm.turned page := by
  simp [turned, Pmm.setFlags, BitVec.or_assoc]

/-- A reference dropped, if there is one. -/
def dropRef (s : Pmm) (page : ℕ) : Pmm :=
  if 0 < s.refNum (some page) then
    s.setRefNum (some page) (s.refNum (some page) - 1)
  else s

theorem dropRef_eq (s : Pmm) (page : ℕ) :
    ∃ v, dropRef s page = s.setRefNum (some page) v := by
  unfold dropRef
  split
  · exact ⟨_, rfl⟩
  · exact ⟨s.refNum (some page), by simp [Pmm.setRefNum]⟩

theorem evict_cases {page : ℕ} {ptep pte va : Uint}
    (hrun : vm.evict page ptep pte va = .ok vm') :
    ∃ t, (dropRef vm.pmm page).freeBuddy (some page) = .ok t ∧
      vm' = ((vm.addIo (writeRequest (pte &&& PAGE_MASK) va)).store ptep
        (vm.mem ptep &&& ~~~PTE_P)).setPmm t := by
  obtain ⟨t, hfree, hret⟩ := bind_ok_iff.mp hrun
  cases hret
  exact ⟨t, hfree, rfl⟩

theorem readPte_ok {va w : Uint} (hread : vm.readPte va = .ok w) :
    vm.tableOf va ≠ 0 ∧ w = vm.mem (vm.getpte va).1 := by
  unfold readPte at hread
  split at hread
  · cases hread
  next htable => exact ⟨htable, (Except.ok.inj hread).symm⟩

theorem readPte_eq {va : Uint} (hflag : (vm.getpte va).2 = true)
    (htable : vm.tableOf va ≠ 0) : vm.readPte va = .ok (vm.entryOf va) := by
  rw [readPte, if_neg htable, getpte_addr hflag, entryOf, if_neg htable]

/-- One turn of the loop of `swap_out`. -/
theorem swapOut_turn {n r : ℕ} (hrun : vm.swapOut (n + 1) = .ok (r, vm')) :
    ∃ page pte, Victim vm.pmm vm.clockPoint page ∧
      vm.readPte (vm.pmm.va (some page)) = .ok pte ∧ pte &&& PTE_P ≠ 0 ∧
      (((vm.getpte (vm.pmm.va (some page))).2 = false ∧
          (vm.turned page).swapOut n = .ok (r, vm')) ∨
        ((vm.getpte (vm.pmm.va (some page))).2 = true ∧ r = 1 ∧
          (vm.turned page).evict page (vm.getpte (vm.pmm.va (some page))).1
            pte (vm.pmm.va (some page)) = .ok vm')) := by
  obtain ⟨⟨page, vm₁⟩, hvictim, hrest⟩ := bind_ok_iff.mp hrun
  obtain ⟨hpage, rfl⟩ := swapOutVictimFrom_cases hvictim
  obtain ⟨pte, hread, hrest⟩ := bind_ok_iff.mp hrest
  change (if pte &&& PTE_P = 0 then _ else
    if (vm.getpte (vm.pmm.va (some page))).2 = true then _ else _) = _ at hrest
  by_cases habsent : pte &&& PTE_P = 0
  · rw [if_pos habsent] at hrest
    cases hrest
  · rw [if_neg habsent] at hrest
    refine ⟨page, pte, hpage, hread, habsent, ?_⟩
    by_cases hflag : (vm.getpte (vm.pmm.va (some page))).2 = true
    · rw [if_pos hflag] at hrest
      obtain ⟨vm₂, hevict, hret⟩ := bind_ok_iff.mp hrest
      cases hret
      exact Or.inr ⟨hflag, rfl, hevict⟩
    · rw [if_neg hflag] at hrest
      exact Or.inl ⟨Bool.eq_false_iff.mpr hflag, hrest⟩

/-- `swap_out` that returns did nothing, or only marked its victim, or evicted
it. -/
theorem swapOut_cases {n r : ℕ} (hrun : vm.swapOut n = .ok (r, vm')) :
    (n = 0 ∧ vm' = vm) ∨
      n ≠ 0 ∧ ∃ page, Victim vm.pmm vm.clockPoint page ∧
        (((vm.getpte (vm.pmm.va (some page))).2 = false ∧
            vm' = vm.turned page) ∨
          ((vm.getpte (vm.pmm.va (some page))).2 = true ∧ ∃ pte,
            vm.readPte (vm.pmm.va (some page)) = .ok pte ∧ pte &&& PTE_P ≠ 0 ∧
            (vm.turned page).evict page (vm.getpte (vm.pmm.va (some page))).1
              pte (vm.pmm.va (some page)) = .ok vm')) := by
  induction n generalizing vm with
  | zero =>
      cases hrun
      exact Or.inl ⟨rfl, rfl⟩
  | succ n ih =>
      right
      obtain ⟨page, pte, hpage, hread, hpresent, hturn⟩ := swapOut_turn hrun
      refine ⟨n.succ_ne_zero, page, hpage, ?_⟩
      rcases hturn with ⟨hflag, hrest⟩ | ⟨hflag, _, hevict⟩
      · left
        refine ⟨hflag, ?_⟩
        -- the next turn takes the same victim, with the bit set already
        rcases ih hrest with ⟨_, rfl⟩ | ⟨_, page', hpage', hcase⟩
        · rfl
        · obtain rfl := hpage'.unique (turned_victim vm page)
          rcases hcase with ⟨_, rfl⟩ | ⟨hsome, _⟩
          · exact turned_turned vm page'
          · exact absurd (hflag.symm.trans hsome) Bool.false_ne_true
      · exact Or.inr ⟨hflag, pte, hread, hpresent, hevict⟩

/-! ## `do_pgfault` -/

/-- `perm` of `do_pgfault`. -/
def permOf (vma : Vma) : Uint :=
  if vma.vmFlags &&& PTE_W ≠ 0 then PTE_U ||| (PTE_P ||| PTE_W) else PTE_U

theorem permOf_small (vma : Vma) : (permOf vma).toNat < 4096 := by
  unfold permOf
  split <;> decide

/-- A page fault changes nothing but `mmap_cache`, or maps a new frame, or
swaps one in; the page mapped joins the clock list. -/
theorem doPgfault_cases {va : Uint} (hrun : vm.doPgfault va = .ok vm') :
    ∃ vma mm, findVma vm.mm va = .ok (vma, mm) ∧
      (vm' = { vm with mm := mm } ∨
        (vm.readPte va = .ok 0 ∧ ∃ pg vm₁ p vm₂,
          Vm.allocPages { vm with mm := mm } 1 = .ok (pg, vm₁) ∧
          vm₁.map (permOf (mm.vma vma)) (vm₁.pmm.startAddr pg) va =
            .ok (p, vm₂) ∧
          vm₂.mapSwappable p = .ok vm') ∨
        (∃ pte p vm₁, vm.readPte va = .ok pte ∧ pte ≠ 0 ∧
          Vm.swapIn { vm with mm := mm } va (permOf (mm.vma vma)) =
            .ok (1, p, vm₁) ∧
          vm₁.mapSwappable p = .ok vm')) := by
  obtain ⟨⟨vma, mm⟩, hfind, hrest⟩ := bind_ok_iff.mp hrun
  refine ⟨vma, mm, hfind, ?_⟩
  dsimp only at hrest
  by_cases hout : vma = none ∨ va < (mm.vma vma).vmStart
  · left
    rw [if_pos hout] at hrest
    exact (Except.ok.inj hrest).symm
  · right
    rw [if_neg hout] at hrest
    obtain ⟨pte, hread, hrest⟩ := bind_ok_iff.mp hrest
    have hread : vm.readPte va = .ok pte := hread
    by_cases hempty : pte = 0
    · left
      subst hempty
      rw [if_pos rfl] at hrest
      obtain ⟨⟨pg, vm₁⟩, halloc, hrest⟩ := bind_ok_iff.mp hrest
      obtain ⟨⟨p, vm₂⟩, hmap, hlist⟩ := bind_ok_iff.mp hrest
      exact ⟨hread, pg, vm₁, p, vm₂, halloc, hmap, hlist⟩
    · right
      rw [if_neg hempty] at hrest
      by_cases hinit : vm.swapInitOk = true
      · rw [if_pos hinit] at hrest
        obtain ⟨⟨r, p, vm₁⟩, hin, hlist⟩ := bind_ok_iff.mp hrest
        obtain rfl := (swapIn_cases hin).1
        exact ⟨pte, p, vm₁, hread, hempty, hin, hlist⟩
      · rw [if_neg hinit] at hrest
        cases hrest

end Vm
end OS32
