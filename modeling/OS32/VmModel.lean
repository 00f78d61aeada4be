import OS32.BuddyModel

/-!
# Page tables and swapping: `vmm.c` and `swapmm.c`

The page directory is an object of its own, indexed by `PGD_IDX`.  Page tables
are words in memory, read and written at their physical address plus
`PAGE_OFFSET`.  The disk of `tmpide.c` accepts every request and copies nothing;
the model records the requests.
-/

namespace OS32

open NullList

def PAGE_A : Uint := 0x800

def SWAP_NO : Uint := 1
def SECTSIZE : Uint := 512
/-- `(PGSIZE) / (SECTSIZE)` without outer parentheses: in a product the factor
in front is multiplied by `PGSIZE` first. -/
def secStart (pa : Uint) : Uint := (pa >>> 12) * PGSIZE / SECTSIZE
def PAGE_NSECT : Uint := PGSIZE / SECTSIZE

structure Vma where
  next : Option ℕ
  vmStart : Uint
  vmEnd : Uint
  vmFlags : Uint

/-- `mm_struct_t`; `vma none` is what lies at address 0, which `FindVMA` reads
while `mmap_cache` is NULL. -/
structure Mm where
  vmaList : Option ℕ
  mmapCache : Option ℕ
  vma : Option ℕ → Vma

/-- A request to the disk. -/
inductive Io where
  | write (diskNo secStart va secNum : Uint)
  | read (diskNo secStart va secNum : Uint)
  deriving DecidableEq, Repr

structure Vm where
  pmm : Pmm
  pgd : Uint → Uint
  mem : Uint → Uint
  clockPoint : PagePtr
  swapInitOk : Bool
  mm : Mm
  io : List Io

namespace Vm

def setPmm (vm : Vm) (pmm : Pmm) : Vm := { vm with pmm := pmm }

def store (vm : Vm) (addr value : Uint) : Vm :=
  { vm with mem := Function.update vm.mem addr value }

/-! ## `FindPageIndex` -/

/-- The loop of `FindPageIndex` from index `i` on.  If no page is found the
result is -1 and callers use `phy_pages[-1]`; the model keeps that struct at
index `MAX_PG_NUM`. -/
def findPageFrom (s : Pmm) (paddr : Uint) : ℕ → ℕ → ℕ
  | 0, _ => MAX_PG_NUM
  | fuel + 1, i =>
      if s.startAddr (some i) = paddr then i
      else findPageFrom s paddr fuel (i + 1)

def findPageIndex (s : Pmm) (paddr : Uint) : ℕ :=
  findPageFrom s paddr MAX_PG_NUM 0

/-! ## Page tables -/

/-- `_pgd[pgd_idx] & PAGE_MASK`. -/
def tableOf (vm : Vm) (va : Uint) : Uint :=
  vm.pgd (pgdIdx va) &&& PAGE_MASK

/-- Where the entry of `va` in the page table at the frame `table` is. -/
def pteAddr (table va : Uint) : Uint := table + PAGE_OFFSET + 4 * pteIdx va

def getmapping (vm : Vm) (va : Uint) : Option Uint :=
  let pte := vm.tableOf va
  if pte = 0 then none
  else
    let entry := vm.mem (pteAddr pte va)
    if entry ≠ 0 then some (entry &&& PAGE_MASK) else none

/-- `getpte`: what it returns and `*flag`.  The test for NULL comes after
`PAGE_OFFSET` has been added. -/
def getpte (vm : Vm) (va : Uint) : Uint × Bool :=
  let pte := vm.tableOf va + PAGE_OFFSET
  if pte = 0 then (0, false) else (pte + 4 * pteIdx va, true)

/-- `*(getpte(...))`.  Where there is no page table the entry would lie in the
page at `PAGE_OFFSET`, which `init_vmm` leaves out of the direct map and which
is in no region. -/
def readPte (vm : Vm) (va : Uint) : Except Fault Uint :=
  if vm.tableOf va = 0 then .error .unservedFault
  else .ok (vm.mem (vm.getpte va).1)

def unmap (vm : Vm) (va : Uint) : Vm :=
  let pte := vm.tableOf va
  if pte = 0 then vm
  else
    let addr := pteAddr pte va
    let pg := some (findPageIndex vm.pmm (vm.mem addr &&& PAGE_MASK))
    let vm := vm.store addr 0
    let pmm :=
      if 0 < vm.pmm.refNum pg then vm.pmm.setRefNum pg (vm.pmm.refNum pg - 1)
      else vm.pmm
    vm.setPmm (pmm.setVa pg 0)

/-! ## The disk of `tmpide.c` -/

def ideReadSecs (vm : Vm) (diskNo secStart va secNum : Uint) : ℕ × Vm :=
  (0, { vm with io := vm.io ++ [.read diskNo secStart va secNum] })

def ideWriteSecs (vm : Vm) (diskNo secStart va secNum : Uint) : ℕ × Vm :=
  (0, { vm with io := vm.io ++ [.write diskNo secStart va secNum] })

/-! ## The clock list -/

def mapSwappable (vm : Vm) (page : PagePtr) : Except Fault Vm := do
  let pmm := vm.pmm.setFlags page (vm.pmm.flags page &&& ~~~PAGE_A)
  if vm.clockPoint = none then
    return { vm with pmm := pmm, clockPoint := page }
  else
    let p ← pmm.lastPage vm.clockPoint
    return vm.setPmm (pmm.setLinks (pmm.links.join p page))

/-- The test of `_clock_swap_out_victim`.  `==` binds tighter than `^`. -/
def askIsZero (flags : Uint) : Bool :=
  flags ^^^ (if PAGE_A = 0 then 1 else 0) ≠ 0

/-- The loop of `_clock_swap_out_victim`, ended after `fuel` turns. -/
def swapOutVictimFrom : ℕ → Vm → Except Fault (ℕ × Vm)
  | 0, _ => .error .hang
  | fuel + 1, vm =>
      match vm.clockPoint with
      | none => .error (.panic "no pages can be swap out\n")
      | some page =>
          let flags := vm.pmm.flags (some page)
          if askIsZero flags then
            .ok (page,
              vm.setPmm (vm.pmm.setFlags (some page) (flags ||| PAGE_A)))
          else
            swapOutVictimFrom fuel
              { vm with clockPoint := vm.pmm.links.next (some page) }

def swapOutVictim (vm : Vm) : Except Fault (ℕ × Vm) :=
  swapOutVictimFrom walkBound vm

/-! ## `swap_out` -/

/-- `swap_out` after the victim has been chosen and its entry read and found
present: write the page, clear `PTE_P`, drop the reference, free the frame. -/
def evict (vm : Vm) (page : ℕ) (ptep pte va : Uint) : Except Fault Vm := do
  let pa := pte &&& PAGE_MASK
  let (r, vm) := vm.ideWriteSecs SWAP_NO (secStart pa) va PAGE_NSECT
  if r ≠ 0 then
    -- passes the page where `map_swappable` takes the address of a pointer
    .error .wildPointer
  else
    let vm := vm.store ptep (vm.mem ptep &&& ~~~PTE_P)
    let refNum := vm.pmm.refNum (some page)
    let pmm :=
      if 0 < refNum then vm.pmm.setRefNum (some page) (refNum - 1) else vm.pmm
    return vm.setPmm (← pmm.freeBuddy (some page))

def swapOut : Vm → ℕ → Except Fault (ℕ × Vm)
  | vm, 0 => .ok (0, vm)
  | vm, n + 1 => do
      let (page, vm) ← vm.swapOutVictim
      let va := vm.pmm.va (some page)
      let pte ← vm.readPte va
      if pte &&& PTE_P = 0 then .error (.panic "page not exist\n")
      else
        let ptep := vm.getpte va
        if ptep.2 then return (1, ← vm.evict page ptep.1 pte va)
        else swapOut vm n

def allocPages (vm : Vm) (n : Uint) : Except Fault (PagePtr × Vm) := do
  let (p, pmm) ← vm.pmm.allocPages
    (fun pmm => (swapOut (vm.setPmm pmm) 1).map Prod.fst) n
  return (p, vm.setPmm pmm)

/-! ## `map` -/

/-- `memset(pte, 0, PGSIZE)`. -/
def clearTable (vm : Vm) (pte : Uint) : Vm :=
  { vm with mem := fun a => if a - pte < PGSIZE then 0 else vm.mem a }

/-- "alloc a page to place the pgtable", in `map` and in `swap_in`. -/
def newTable (vm : Vm) (va : Uint) : Except Fault (Uint × Vm) := do
  let (pg, vm) ← vm.allocPages 1
  let pte := vm.pmm.startAddr pg
  let pmm := vm.pmm.setRefNum pg (vm.pmm.refNum pg + 1)
  let vm := vm.setPmm (pmm.setVa pg (pte + PAGE_OFFSET))
  let vm := { vm with
    pgd := Function.update vm.pgd (pgdIdx va) (pte ||| PTE_P ||| PTE_W) }
  return (pte, vm.clearTable (pte + PAGE_OFFSET))

/-- `map` once the page table is known. -/
def enter (vm : Vm) (flags pAddr vAddr table : Uint) : PagePtr × Vm :=
  let vm := vm.store (pteAddr table vAddr) (pAddr &&& PAGE_MASK ||| flags)
  let pg := some (findPageIndex vm.pmm pAddr)
  let pmm := vm.pmm.setRefNum pg (vm.pmm.refNum pg + 1)
  (pg, vm.setPmm (pmm.setVa pg vAddr))

def map (vm : Vm) (flags pAddr vAddr : Uint) :
    Except Fault (PagePtr × Vm) := do
  let pte := vm.tableOf vAddr
  if pte = 0 then
    let (pte, vm) ← vm.newTable vAddr
    return vm.enter flags pAddr vAddr pte
  else return vm.enter flags pAddr vAddr pte

/-! ## `swap_in` and `do_pgfault` -/

/-- "no pte,create a pagetable and its pte", in `swap_in`. -/
def ensureTable (vm : Vm) (va : Uint) : Except Fault Vm :=
  if (vm.getpte va).2 then .ok vm else (vm.newTable va).map Prod.snd

/-- `swap_in`: what it returns, `*page` and the state. -/
def swapIn (vm : Vm) (va flags : Uint) : Except Fault (ℕ × PagePtr × Vm) := do
  let va := va / PGSIZE * PGSIZE
  let (pg, vm) ← vm.allocPages 1
  if pg = none then .error (.panic "alloc page error\n")
  else
    let pa := vm.pmm.startAddr pg
    let vm ← vm.ensureTable va
    let (pg, vm) ← vm.map flags pa va
    let (l, vm) := vm.ideReadSecs SWAP_NO (secStart pa) va PAGE_NSECT
    if l = 0 then return (1, pg, vm) else return (0, none, vm)

def inVma (vma : Vma) (va : Uint) : Bool := vma.vmStart ≤ va ∧ va ≤ vma.vmEnd

/-- The loop of `FindVMA`, ended after `fuel` turns. -/
def findVmaFrom (mm : Mm) (va : Uint) : ℕ → Option ℕ → Except Fault (Option ℕ)
  | 0, _ => .error .hang
  | _ + 1, none => .ok none
  | fuel + 1, some i =>
      if inVma (mm.vma (some i)) va then .ok (some i)
      else findVmaFrom mm va fuel (mm.vma (some i)).next

def findVma (mm : Mm) (va : Uint) : Except Fault (Option ℕ × Mm) := do
  if inVma (mm.vma mm.mmapCache) va then return (mm.mmapCache, mm)
  else
    match ← findVmaFrom mm va walkBound mm.vmaList with
    | none => return (none, mm)
    | some i => return (some i, { mm with mmapCache := some i })

/-- `do_pgfault`, which returns -1 in any case. -/
def doPgfault (vm : Vm) (va : Uint) : Except Fault Vm := do
  let (vma, mm) ← findVma vm.mm va
  let vm := { vm with mm := mm }
  if vma = none ∨ va < (mm.vma vma).vmStart then return vm
  else
    let perm :=
      if (mm.vma vma).vmFlags &&& PTE_W ≠ 0 then PTE_U ||| (PTE_P ||| PTE_W)
      else PTE_U
    let pte ← vm.readPte va
    if pte = 0 then
      let (p, vm) ← vm.allocPages 1
      let (p, vm) ← vm.map perm (vm.pmm.startAddr p) va
      vm.mapSwappable p
    else if vm.swapInitOk then
      let (r, p, vm) ← vm.swapIn va perm
      if r = 1 then vm.mapSwappable p else return vm
    else .error (.panic "swap system not init\n")

end Vm

end OS32
