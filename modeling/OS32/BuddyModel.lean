import OS32.Basic
import OS32.NullList

/-!
# The buddy allocator of `buddy.c`

The state keeps `phy_pages` one map per member of `phy_page_t`; the members
`next` and `prev` are a memory of links.  A `phy_page_t *` is an `Option ℕ`:
`some i` is `&phy_pages[i]`, and the entry at `none` is the struct which an
access through a NULL page pointer reads or writes.  Physical address 0 stays
mapped after `kern_entry`, so such an access does not stop the kernel.
-/

namespace OS32

open NullList

/-- `phy_page_t *`. -/
abbrev PagePtr := Option ℕ

/-- `phy_page_t`. -/
structure Page where
  refNum : Uint
  flags : Uint
  startAddr : Uint
  va : Uint
  next : PagePtr
  prev : PagePtr

/-- `phy_pages`, `phy_page_num` and `buddy_table`. -/
structure Pmm where
  refNum : PagePtr → Uint
  flags : PagePtr → Uint
  startAddr : PagePtr → Uint
  va : PagePtr → Uint
  links : Links ℕ
  phyPageNum : ℕ
  pageBlkList : ℕ → PagePtr
  blkNum : ℕ → ℤ

namespace Pmm

/-- The static data at boot: `phy_pages` and `buddy_table` are zero-filled,
and `low` is what lies at physical address 0. -/
def boot (low : Page) : Pmm where
  refNum := Function.update (fun _ => 0) none low.refNum
  flags := Function.update (fun _ => 0) none low.flags
  startAddr := Function.update (fun _ => 0) none low.startAddr
  va := Function.update (fun _ => 0) none low.va
  links :=
    { next := Function.update (fun _ => none) none low.next
      prev := Function.update (fun _ => none) none low.prev }
  phyPageNum := 0
  pageBlkList := fun _ => none
  blkNum := fun _ => 0

/-! ## Writing a member -/

def setRefNum (s : Pmm) (p : PagePtr) (v : Uint) : Pmm :=
  { s with refNum := Function.update s.refNum p v }

def setFlags (s : Pmm) (p : PagePtr) (v : Uint) : Pmm :=
  { s with flags := Function.update s.flags p v }

def setVa (s : Pmm) (p : PagePtr) (v : Uint) : Pmm :=
  { s with va := Function.update s.va p v }

def setLinks (s : Pmm) (links : Links ℕ) : Pmm :=
  { s with links := links }

def setPageBlkList (s : Pmm) (idx : ℕ) (p : PagePtr) : Pmm :=
  { s with pageBlkList := Function.update s.pageBlkList idx p }

/-- `buddy_table[idx].blk_num += n;` -/
def addBlkNum (s : Pmm) (idx : ℕ) (n : ℤ) : Pmm :=
  { s with blkNum := Function.update s.blkNum idx (s.blkNum idx + n) }

@[simp] theorem setLinks_links (s : Pmm) (links : Links ℕ) :
    (s.setLinks links).links = links := rfl

@[simp] theorem setLinks_pageBlkList (s : Pmm) (links : Links ℕ) :
    (s.setLinks links).pageBlkList = s.pageBlkList := rfl

@[simp] theorem setLinks_blkNum (s : Pmm) (links : Links ℕ) :
    (s.setLinks links).blkNum = s.blkNum := rfl

@[simp] theorem setPageBlkList_links (s : Pmm) (idx : ℕ) (p : PagePtr) :
    (s.setPageBlkList idx p).links = s.links := rfl

@[simp] theorem setPageBlkList_pageBlkList (s : Pmm) (idx : ℕ)
    (p : PagePtr) :
    (s.setPageBlkList idx p).pageBlkList =
      Function.update s.pageBlkList idx p := rfl

@[simp] theorem setPageBlkList_blkNum (s : Pmm) (idx : ℕ) (p : PagePtr) :
    (s.setPageBlkList idx p).blkNum = s.blkNum := rfl

@[simp] theorem addBlkNum_links (s : Pmm) (idx : ℕ) (n : ℤ) :
    (s.addBlkNum idx n).links = s.links := rfl

@[simp] theorem addBlkNum_pageBlkList (s : Pmm) (idx : ℕ) (n : ℤ) :
    (s.addBlkNum idx n).pageBlkList = s.pageBlkList := rfl

@[simp] theorem addBlkNum_blkNum (s : Pmm) (idx : ℕ) (n : ℤ) :
    (s.addBlkNum idx n).blkNum =
      Function.update s.blkNum idx (s.blkNum idx + n) := rfl

/-- `p->prev->next = NULL; p->prev = NULL;` -/
def cutBefore (s : Pmm) (p : PagePtr) : Pmm :=
  s.setLinks (s.links.cutBefore p)

@[simp] theorem cutBefore_links (s : Pmm) (p : PagePtr) :
    (s.cutBefore p).links = s.links.cutBefore p := rfl

/-- `buddy_table` has 17 entries. -/
def checkIndex (idx : ℕ) : Except Fault Unit :=
  if idx < 17 then .ok () else .error (.badIndex idx)

end Pmm

/-! ## `log2` and `pow2` -/

/-- `while(v * 2 <= x) { v *= 2; res++; }`; an `int` leaves room for 31
turns. -/
def log2Loop : ℕ → ℕ → ℕ → ℕ → ℕ
  | 0, _, res, _ => res
  | fuel + 1, v, res, x =>
      if v * 2 ≤ x then log2Loop fuel (v * 2) (res + 1) x else res

/-- `log2`.  A negative argument gives 0, as 0 does. -/
def log2 (x : ℕ) : ℕ := log2Loop 31 1 0 x

def pow2 : ℕ → ℕ
  | 0 => 1
  | x + 1 => pow2 x * 2

namespace Pmm

/-! ## Walks over a block -/

/-- The pages met by `while(p != NULL) p = p->next;`.  A loop over them that
writes no link is a fold over this list. -/
def pagesFrom (s : Pmm) (p : PagePtr) : Except Fault (List ℕ) :=
  match s.links.nodes walkBound p with
  | some pages => .ok pages
  | none => .error .hang

/-- `count_pages` of `pmm.c`. -/
def countPages (s : Pmm) (pgList : PagePtr) : Except Fault ℕ :=
  (s.pagesFrom pgList).map List.length

/-- The loop of `check_free_pages`, ended after `fuel` steps. -/
def checkFreePagesFrom (s : Pmm) : ℕ → PagePtr → Except Fault Bool
  | 0, _ => .error .hang
  | _ + 1, none => .ok true
  | fuel + 1, some i =>
      if 0 < s.refNum (some i) then .ok false
      else s.checkFreePagesFrom fuel (s.links.next (some i))

def checkFreePages (s : Pmm) (pages : PagePtr) : Except Fault Bool :=
  s.checkFreePagesFrom walkBound pages

/-- `while(p->next != NULL) p = p->next;` -/
def lastPage (s : Pmm) (p : PagePtr) : Except Fault PagePtr :=
  match s.links.tail walkBound p with
  | some last => .ok last
  | none => .error .hang

end Pmm

/-! ## `init_pages` -/

/-- `mmap_entry_t`. -/
structure MmapEntry where
  baseAddrLow : Uint
  baseAddrHigh : Uint
  lengthLow : Uint
  lengthHigh : Uint
  type : Uint

/-- What the boot loader and the linker hand to `init_pages`.  The linker
script places the image above `PAGE_OFFSET`, `kern_start` first. -/
structure BootInfo where
  mmapAddr : Uint
  mmapLength : Uint
  /-- The 24 bytes at an address, read as an `mmap_entry_t`. -/
  entryAt : Uint → MmapEntry
  kernStart : Uint
  kernEnd : Uint
  image_high : PAGE_OFFSET ≤ kernStart
  image_order : kernStart ≤ kernEnd

namespace Pmm

/-- The body of the page loop of `init_pages`: one more frame is recorded. -/
def recordPage (s : Pmm) (pageAddr : Uint) : Pmm :=
  let i : PagePtr := some s.phyPageNum
  { s with
    refNum := Function.update s.refNum i 0
    flags := Function.update s.flags i 0
    startAddr := Function.update s.startAddr i pageAddr
    links := (s.links.setPrev i none).setNext i none
    va := Function.update s.va i 0
    phyPageNum := s.phyPageNum + 1 }

/-- `while(page_addr < length && page_addr <= MAXSIZE)` of `init_pages`. -/
def recordPages : ℕ → Uint → Uint → Pmm → Except Fault Pmm
  | 0, _, _, _ => .error .hang
  | fuel + 1, pageAddr, length, s =>
      if pageAddr < length ∧ pageAddr ≤ MAXSIZE then
        if s.phyPageNum < MAX_PG_NUM then
          recordPages fuel (pageAddr + PGSIZE) length (s.recordPage pageAddr)
        else .error (.badIndex s.phyPageNum)
      else .ok s

/-- The body of the entry loop of `init_pages`.  `kern_end - kern_start` is a
difference of `uint` pointers and so counts words. -/
def recordEntry (info : BootInfo) (entry : MmapEntry) (s : Pmm) :
    Except Fault Pmm :=
  if entry.type = 1 ∧ entry.baseAddrLow = 0x100000 then
    let pageAddr := entry.baseAddrLow + (info.kernEnd - info.kernStart) >>> 2
    let pageAddr :=
      if pageAddr &&& 0xfff ≠ 0 then ((pageAddr >>> 12) <<< 12) + PGSIZE
      else pageAddr
    recordPages walkBound pageAddr (entry.baseAddrLow + entry.lengthLow) s
  else .ok s

/-- The entry loop of `init_pages`, over pointers to 24-byte entries. -/
def recordEntries (info : BootInfo) (mmapEndAddr : Uint) :
    ℕ → Uint → Pmm → Except Fault Pmm
  | 0, _, _ => .error .hang
  | fuel + 1, mapEntry, s =>
      if mapEntry < mmapEndAddr then
        (recordEntry info (info.entryAt mapEntry) s).bind
          (recordEntries info mmapEndAddr fuel (mapEntry + 24))
      else .ok s

/-- `init_pages`.  `mmap_length` is added to a pointer to entries, so it counts
entries here. -/
def initPages (info : BootInfo) (s : Pmm) : Except Fault Pmm :=
  recordEntries info (info.mmapAddr + 24 * info.mmapLength) walkBound
    info.mmapAddr s

/-! ## `init_buddy` -/

/-- The body of the loop of `init_buddy` over the pages of one block. -/
def linkPage (idx startPgId : ℕ) (s : Pmm) (i : ℕ) : Pmm :=
  if i = 0 then
    let p : PagePtr := some startPgId
    (s.setPageBlkList idx p).setLinks
      ((s.links.setNext p none).setPrev p none)
  else
    let p : PagePtr := some (startPgId + i)
    let q : PagePtr := some (startPgId + i - 1)
    s.setLinks (((s.links.setPrev p q).setNext q p).setNext p none)

/-- The `do ... while(idx)` loop of `init_buddy`. -/
def buildBlks : ℕ → Pmm → ℕ → ℕ → ℕ → Except Fault Pmm
  | 0, _, _, _, _ => .error .hang
  | fuel + 1, s, sum, idx, startPgId => do
      checkIndex idx
      let pgNum := pow2 idx
      let s := (List.range pgNum).foldl (linkPage idx startPgId) s
      let s := s.addBlkNum idx 1
      let sum := sum - pow2 idx
      let nextIdx := log2 sum
      if nextIdx = 0 then return s
      else buildBlks fuel s sum nextIdx (startPgId + pgNum)

/-- `init_buddy` after `init_pages`: the recorded frames enter the table. -/
def buildTable (s : Pmm) : Except Fault Pmm :=
  let s := { s with
    pageBlkList := fun k => if k < 17 then none else s.pageBlkList k
    blkNum := fun k => if k < 17 then 0 else s.blkNum k }
  buildBlks 31 s s.phyPageNum (log2 s.phyPageNum) 0

def initBuddy (info : BootInfo) (s : Pmm) : Except Fault Pmm :=
  (initPages info s).bind buildTable

/-! ## `alloc_buddy` -/

/-- The second part of `SplitBlock`, "cut current blk into 2 smaller blk": the
block `blk0` joins the tail of `buddy_table[nextid]`, and its second half is
cut off again and returned. -/
def halveInto (s : Pmm) (nextid : ℕ) (blk0 : PagePtr) : PagePtr × Pmm :=
  let pgNum : ℤ := pow2 nextid * s.blkNum nextid
  let p := s.links.advance (pgNum - 1).toNat (s.pageBlkList nextid)
  let s := if p = none then s.setPageBlkList nextid blk0 else s
  -- with an empty list `p` is NULL here, and its `next` is written all the same
  let s := s.setLinks ((s.links.setPrev blk0 p).setNext p blk0)
  let p := s.links.next p
  let s := s.addBlkNum nextid 2
  let p := s.links.advance (pow2 nextid) p
  let s := s.cutBefore p
  let s := s.addBlkNum nextid (-1)
  (p, s)

/-- `SplitBlock`: cut the first block off `buddy_table[idx]`, hand its first
half to the next lower order and return the second half. -/
def splitBlock (s : Pmm) (idx : ℕ) : PagePtr × Pmm :=
  let blk0 := s.pageBlkList idx
  let p := s.links.advance (pow2 idx) blk0
  let s :=
    if 1 < s.blkNum idx then (s.setPageBlkList idx p).cutBefore p
    else s.setPageBlkList idx none
  let s := s.addBlkNum idx (-1)
  s.halveInto (idx - 1) blk0

/-- `while(count_pages(blk) > 2 * pow2(tmp))` of `alloc_buddy`: put the block
back and split again. -/
def splitMore : ℕ → Pmm → PagePtr → Except Fault (PagePtr × Pmm)
  | 0, s, blk => do
      -- the body would use `buddy_table[-1]`
      if 2 * pow2 0 < (← s.countPages blk) then .error (.badIndex 0)
      else return (blk, s)
  | tmp + 1, s, blk => do
      if 2 * pow2 (tmp + 1) < (← s.countPages blk) then
        let pgNum : ℤ := pow2 tmp * s.blkNum tmp
        let p := s.links.advance (pgNum - 1).toNat (s.pageBlkList tmp)
        let s := s.setLinks (s.links.join p blk)
        let s := s.addBlkNum tmp 1
        let (blk, s) := s.splitBlock tmp
        splitMore tmp s blk
      else return (blk, s)

/-- The exact fit of `alloc_buddy`: cut off the first block of order `i`. -/
def takeFirst (s : Pmm) (i : ℕ) : PagePtr × Pmm :=
  let blk := s.pageBlkList i
  let p := s.links.advance (pow2 i) blk
  let s := s.setPageBlkList i p
  let s := s.addBlkNum i (-1)
  let s := if p ≠ none then s.cutBefore p else s
  (blk, s)

/-- The `do ... while(i < 17)` loop of `alloc_buddy`; `none` is the exit with
`i == 17`. -/
def searchFit (s : Pmm) (idx : ℕ) :
    ℕ → ℕ → Except Fault (Option (PagePtr × Pmm))
  | 0, _ => .error .hang
  | fuel + 1, i => do
      checkIndex i
      if s.pageBlkList i ≠ none ∧ idx = i then
        return some (s.takeFirst i)
      else if s.pageBlkList i ≠ none ∧ idx < i then
        let (blk, s) := s.splitBlock i
        return some (← splitMore i s blk)
      else if i + 1 < 17 then s.searchFit idx fuel (i + 1)
      else return none

/-- What `alloc_buddy` leaves behind: the pointer it returns and `*flag`. -/
structure Alloc where
  blk : PagePtr
  flag : ℕ
  pmm : Pmm

/-- `s` of `alloc_buddy`, the number of pages that `memsize` asks for. -/
def requestPages (memsize : Uint) : ℕ :=
  if memsize.toNat % 4 ≠ 0 then memsize.toNat / 4 + 1
  else memsize.toNat / 4

/-- `idx` of `alloc_buddy`. -/
def requestOrder (size : ℕ) : ℕ :=
  let idx := log2 size
  if pow2 idx < size then idx + 1 else idx

def allocBuddy (s : Pmm) (memsize : Uint) : Except Fault Alloc := do
  let idx := requestOrder (requestPages memsize)
  match ← s.searchFit idx 17 idx with
  | none => return ⟨none, 0, s⟩
  | some (blk, s) =>
      let pages ← s.pagesFrom blk
      let s := pages.foldl
        (fun s i => s.setFlags (some i) (s.flags (some i) ||| PHY_BUSY)) s
      return ⟨blk, 1, s⟩

/-- `alloc_pages`.  When no block fits it swaps a page out and panics, whatever
`swap_out` returns; `swapOut` is that return value. -/
def allocPages (swapOut : Pmm → Except Fault ℕ) (s : Pmm) (n : Uint) :
    Except Fault (PagePtr × Pmm) := do
  let pages ← s.allocBuddy (n <<< 2)
  if pages.flag = 1 then return (pages.blk, pages.pmm)
  else if (← swapOut pages.pmm) = 1 then
    .error (.panic "swap out done\n")
  else .error (.panic "swap out failed\n")

/-! ## `free_buddy` -/

/-- The test of `FindBuddy`.  `==` binds tighter than `^`, so the comparison is
between `pg_blk->start_addr` and the mask. -/
def isBuddy (s : Pmm) (idx : ℕ) (p pgBlk : PagePtr) : Bool :=
  let mask : Uint := 1 <<< (12 + idx)
  s.startAddr p ^^^ (if s.startAddr pgBlk = mask then 1 else 0) ≠ 0

/-- Unlink the block that starts at `p` and has `cnt` pages in front of it from
`buddy_table[idx]`. -/
def unlinkBlk (s : Pmm) (idx cnt : ℕ) (p : PagePtr) : Pmm :=
  let pp := s.links.advance (pow2 idx) p
  let s :=
    if pp = none then
      if cnt = 0 then s.setPageBlkList idx none else s.cutBefore p
    else
      let s := s.cutBefore pp
      if cnt = 0 then s.setPageBlkList idx pp
      else
        let q := s.links.prev p
        s.setLinks ((s.links.setNext q pp).setPrev pp q)
  s.addBlkNum idx (-1)

/-- The loop of `FindBuddy`, with the number of turns left. -/
def findBuddyFrom (s : Pmm) (pgBlk : PagePtr) (idx : ℕ) :
    ℕ → ℕ → PagePtr → PagePtr × Pmm
  | 0, _, _ => (none, s)
  | turns + 1, cnt, p =>
      if cnt % pow2 idx = 0 ∧ s.isBuddy idx p pgBlk then
        (p, s.unlinkBlk idx cnt p)
      else s.findBuddyFrom pgBlk idx turns (cnt + 1) (s.links.next p)

def findBuddy (s : Pmm) (pgBlk : PagePtr) (idx : ℕ) :
    Except Fault (PagePtr × Pmm) := do
  checkIndex idx
  let turns : ℤ := s.blkNum idx * pow2 idx
  return s.findBuddyFrom pgBlk idx turns.toNat 0 (s.pageBlkList idx)

/-- The half `BlendBlk` puts first. -/
def buddyIsLow (s : Pmm) (buddyBlk : PagePtr) (idx : ℕ) : Bool :=
  s.startAddr buddyBlk &&& (1 <<< (idx + 12)) = 0

def blendBlk (s : Pmm) (buddyBlk blk : PagePtr) (idx : ℕ) :
    Except Fault (PagePtr × Pmm) := do
  if ¬ (buddyBlk ≠ none ∧ blk ≠ none) then
    .error (.panic "Blend is not allowed\n")
  else
    let (res, other) :=
      if s.buddyIsLow buddyBlk idx then (buddyBlk, blk) else (blk, buddyBlk)
    let p ← s.lastPage res
    return (res, s.setLinks (s.links.join p other))

/-- The merge loop of `free_buddy`. -/
def mergeLoop : ℕ → Pmm → PagePtr → ℕ → Except Fault (PagePtr × ℕ × Pmm)
  | 0, _, _, _ => .error .hang
  | fuel + 1, s, blk, tmp => do
      let (buddyBlk, s) ← s.findBuddy blk tmp
      if buddyBlk = none then return (blk, tmp, s)
      else
        let (blk, s) ← s.blendBlk buddyBlk blk (tmp + 1)
        mergeLoop fuel s blk (tmp + 1)

def freeBuddy (s : Pmm) (pgBlk : PagePtr) : Except Fault Pmm := do
  if (← s.checkFreePages pgBlk) = false then return s
  else
    let pages ← s.pagesFrom pgBlk
    let s := pages.foldl (fun s i => s.setFlags (some i) PHY_FREE) s
    let idx := log2 (← s.countPages pgBlk)
    checkIndex idx
    if s.pageBlkList idx = none then
      return (s.setPageBlkList idx pgBlk).addBlkNum idx 1
    else
      let (blk, tmp, s) ← mergeLoop 18 s pgBlk idx
      checkIndex tmp
      if s.pageBlkList tmp = none then
        return (s.setPageBlkList tmp blk).addBlkNum tmp 1
      else
        let p ← s.lastPage (s.pageBlkList tmp)
        return (s.setLinks (s.links.join p blk)).addBlkNum tmp 1

end Pmm

end OS32
