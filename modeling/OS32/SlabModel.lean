import OS32.VmModel

/-!
# The slab allocator of `slab.c`

A slab is known by the address of its header, and a pointer to one is an
`Option`.  A call that follows a NULL pointer to a slab ends with `nullSlab`: the
kernel has a page there and goes on, but as the memory in it has it.  What
`slab.c` uses of `buddy.c` and `vmm.c` is a parameter, with `vmPages` as the
instance of the kernel.
-/

namespace OS32

open NullList

/-- `slab_t *`. -/
abbrev SlabPtr := Option Uint

abbrev Ushort := BitVec 16

/-- A pointer made from a number. -/
def toPtr (a : Uint) : SlabPtr := if a = 0 then none else some a

namespace Slab

/-! ## Pages -/

/-- The calls of `slab.c` into the page allocator and the page tables. -/
structure PageOps (σ : Type) where
  allocPages : σ → Uint → Except Fault (PagePtr × σ)
  startAddr : σ → PagePtr → Uint
  map : σ → (flags pAddr vAddr : Uint) → Except Fault (PagePtr × σ)
  freeBuddy : σ → PagePtr → Except Fault σ
  unmap : σ → Uint → σ

/-- The page allocator and the page tables of the kernel. -/
def vmPages : PageOps Vm where
  allocPages := Vm.allocPages
  startAddr := fun vm => vm.pmm.startAddr
  map := Vm.map
  freeBuddy := fun vm pgBlk => (vm.pmm.freeBuddy pgBlk).map vm.setPmm
  unmap := Vm.unmap

/-! ## Data -/

def HEAP_START : Uint := 0xE0000000

/-- `sizeof(slab_t)` -/
def sizeofSlab : Uint := 40
/-- `sizeof(kmem_cache_t)` -/
def sizeofKmemCache : Uint := 44

/-- `slab_t` without its links, with `entry i` for
`((ushort *)slab->free_list)[i]`. -/
structure SlabT where
  pgList : PagePtr
  refNum : Uint
  flags : Uint
  slabSize : Uint
  obj : Uint
  freeList : Uint
  active : Uint
  objNum : Uint
  entry : Uint → Ushort

/-- The members of `kmem_cache_node_t`. -/
inductive SlabList where
  | freeSlabs
  | partialSlabs
  | fullSlabs
  deriving DecidableEq

/-- `kmem_cache_t`.  The list `kmem_caches` is kept as the order of the
caches. -/
structure KmemCache where
  size : Uint
  objPerSlab : Uint
  name : String
  refCnt : Uint
  order : ℕ
  node : SlabList → SlabPtr

/-- The statics of `slab.c`, the slabs and the state of the page layer.  The
cache 0 is `kmem_cache_boot`, and `kmem_caches` lists 1 up to `cacheNum`. -/
structure Heap (σ : Type) where
  slabs : Uint → SlabT
  links : Links Uint
  caches : ℕ → KmemCache
  cacheNum : ℕ
  heapTop : Uint
  pages : σ

def kmemCacheBoot : ℕ := 0
def cacheCache : ℕ := 1

variable {σ : Type}

namespace Heap

def setSlab (h : Heap σ) (a : Uint) (slab : SlabT) : Heap σ :=
  { h with slabs := Function.update h.slabs a slab }

def setLinks (h : Heap σ) (links : Links Uint) : Heap σ :=
  { h with links := links }

def setCache (h : Heap σ) (c : ℕ) (cache : KmemCache) : Heap σ :=
  { h with caches := Function.update h.caches c cache }

/-- `caches[c].node.list` -/
def head (h : Heap σ) (c : ℕ) (list : SlabList) : SlabPtr :=
  (h.caches c).node list

def setHead (h : Heap σ) (c : ℕ) (list : SlabList) (p : SlabPtr) : Heap σ :=
  h.setCache c { h.caches c with
    node := Function.update (h.caches c).node list p }

def setRefCnt (h : Heap σ) (c : ℕ) (refCnt : Uint) : Heap σ :=
  h.setCache c { h.caches c with refCnt := refCnt }

/-- The caches met on a walk along `kmem_caches`. -/
def kmemCaches (h : Heap σ) : List ℕ := List.range' 1 h.cacheNum

end Heap

/-- The slab that `p` points to. -/
def deref (p : SlabPtr) : Except Fault Uint :=
  match p with
  | none => .error .nullSlab
  | some a => .ok a

/-! ## Objects of one slab -/

/-- `GetObj`, with the slab afterwards; NULL is `none`.  The address of an
object may be NULL as well. -/
def getObj (slab : SlabT) (objSize : Uint) : Option Uint × SlabT :=
  if slab.active = slab.objNum then (none, slab)
  else
    let objId := (slab.entry slab.active).setWidth 32
    let ret := toPtr (slab.obj + objSize * objId)
    (ret, { slab with
      active := slab.active + 1
      refNum := slab.refNum + 1 })

/-- `FreeObj`.  `obj_id` is an `int`, and `obj_num` is not. -/
def freeObj (objAddr : Uint) (slab : SlabT) (objSize : Uint) : Option SlabT :=
  let objId := (objAddr - slab.obj) / objSize
  if objId.toInt < 0 ∨ slab.objNum ≤ objId then none
  else
    let active := slab.active - 1
    some { slab with
      active := active
      refNum := slab.refNum - 1
      entry := Function.update slab.entry active (objId.setWidth 16) }

/-! ## `apply_slab` -/

/-- The loop of `apply_slab`: `n` turns from `i` on.  `map` rewrites
`pg_list`. -/
def mapPages (P : PageOps σ) : ℕ → ℕ → PagePtr → Heap σ →
    Except Fault (PagePtr × Heap σ)
  | 0, _, pgList, h => .ok (pgList, h)
  | n + 1, i, pgList, h => do
      let pAddr := P.startAddr h.pages pgList + BitVec.ofNat 32 i * PGSIZE
      let (pgList, pages) ← P.map h.pages (PTE_P ||| PTE_W) pAddr h.heapTop
      mapPages P n (i + 1) pgList
        { h with pages := pages, heapTop := h.heapTop + PGSIZE }

/-- The header and the free list that `apply_slab` writes. -/
def newSlab (old : SlabT) (origin pgNumber objPerSlab : Uint)
    (pgList : PagePtr) : SlabT :=
  let freeList := origin + sizeofSlab
  { pgList := pgList
    refNum := 0
    flags := PTE_P ||| PTE_W
    slabSize := pgNumber
    obj := freeList + 2 * objPerSlab
    freeList := freeList
    active := 0
    objNum := objPerSlab
    entry := fun i => if i < objPerSlab then i.setWidth 16 else old.entry i }

def applySlab (P : PageOps σ) (h : Heap σ) (pgNumber : ℕ) (objPerSlab : Uint) :
    Except Fault (Uint × Heap σ) := do
  let (pgList, pages) ← P.allocPages h.pages (BitVec.ofNat 32 pgNumber)
  let origin := h.heapTop
  let (pgList, h) ← mapPages P pgNumber 0 pgList { h with pages := pages }
  let slab := newSlab (h.slabs origin) origin (BitVec.ofNat 32 pgNumber)
    objPerSlab pgList
  let links := (h.links.setPrev (toPtr origin) none).setNext (toPtr origin) none
  return (origin, (h.setSlab origin slab).setLinks links)

/-! ## `init_kmem_cache_alloc` -/

/-- `while(p->next != NULL) p = p->next;` -/
def lastSlab (h : Heap σ) (p : SlabPtr) : Except Fault SlabPtr :=
  if p = none then .error .nullSlab
  else
    match h.links.tail walkBound p with
    | some last => .ok last
    | none => .error .hang

/-- "move the slab in freelist to partial list", which the code has twice. -/
def takeFree (h : Heap σ) (c : ℕ) : Except Fault (Heap σ) := do
  let slab ← deref (h.head c .freeSlabs)
  let next := h.links.next (some slab)
  let t := h.slabs slab
  let t := { t with refNum := t.refNum + 1 }
  if next ≠ none then
    let h := h.setLinks (h.links.setPrev next none)
    let h := h.setHead c .partialSlabs (some slab)
    return (h.setHead c .freeSlabs (h.links.next (some slab))).setSlab slab t
  else
    let h := h.setHead c .partialSlabs (some slab)
    return (h.setHead c .freeSlabs none).setSlab slab t

/-- `free_slabs` is filled from the page allocator if it is empty, and its
first slab is moved to `partial_slabs`. -/
def refill (P : PageOps σ) (h : Heap σ) (c : ℕ) : Except Fault (Heap σ) := do
  if h.head c .freeSlabs = none then
    let (origin, h) ← applySlab P h (pow2 (h.caches c).order)
      (h.caches c).objPerSlab
    takeFree (h.setHead c .freeSlabs (toPtr origin)) c
  else takeFree h c

/-- `GetObj(cache->node.partial_slabs,cache->size)` -/
def getPartialObj (h : Heap σ) (c : ℕ) :
    Except Fault (Option Uint × Heap σ) := do
  let slabp ← deref (h.head c .partialSlabs)
  let (ret, slab) := getObj (h.slabs slabp) (h.caches c).size
  return (ret, h.setSlab slabp slab)

/-- `GetObj` has given NULL, and the first slab of `partial_slabs` is moved to the
end of `full_slabs`. -/
def moveFull (P : PageOps σ) (h : Heap σ) (c : ℕ) : Except Fault (Heap σ) := do
  let slab ← deref (h.head c .partialSlabs)
  let last ← lastSlab h (h.head c .fullSlabs)
  if h.links.next (some slab) = none then
    let h := h.setLinks (h.links.join last (some slab))
    refill P (h.setHead c .partialSlabs none) c
  else
    let h := h.setLinks (h.links.join last (some slab))
    let next ← deref (h.links.next (some slab))
    let h := h.setHead c .partialSlabs (some next)
    return h.setLinks (h.links.setPrev (some next) none)

/-- `init_kmem_cache_alloc`; NULL is `none`. -/
def initKmemCacheAlloc (P : PageOps σ) (h : Heap σ) (c : ℕ) :
    Except Fault (Option Uint × Heap σ) := do
  let h := h.setRefCnt c ((h.caches c).refCnt + 1)
  let h ← if h.head c .partialSlabs = none then refill P h c else .ok h
  let (ret, h) ← getPartialObj h c
  if ret = none then getPartialObj (← moveFull P h c) c else return (ret, h)

/-! ## `kmalloc` -/

def isDigit (x : Char) : Bool := '0' ≤ x ∧ x ≤ '9'

/-- The loop of `CalculateBytes`, from the character 6 on. -/
def calculateBytes (info : String) : ℕ :=
  (info.toList.drop 6).foldl (fun v x =>
    if isDigit x then v * 10 + (x.toNat - '0'.toNat)
    else if x = 'K' then v * 1024 else v) 0

def calculatePages (info : String) : ℕ :=
  let v := calculateBytes info
  if v < 4096 then 1 else v / 4096 * 2

def kmemCacheInfo : List String :=
  ["cache_32B", "cache_64B", "cache_128B", "cache_192B", "cache_256B",
    "cache_512B", "cache_1KB", "cache_2KB", "cache_4KB", "cache_8KB",
    "cache_16KB", "cache_32KB", "cache_64KB", "cache_128KB"]

/-- The cache whose objects are handed out for `size` bytes. -/
def sizeClass (h : Heap σ) (size : Uint) : Option ℕ :=
  h.kmemCaches.tail.find? fun c =>
    size < BitVec.ofNat 32 (calculateBytes (h.caches c).name)

def kmalloc (P : PageOps σ) (h : Heap σ) (size : Uint) :
    Except Fault (Option Uint × Heap σ) :=
  match sizeClass h size with
  | none => .error (.panic "error while in kmalloc\n")
  | some c => initKmemCacheAlloc P h c

/-! ## `kfree` -/

/-- `move_slab_off_full` and `move_slab_off_partial`, which differ in the
list. -/
def moveSlabOff (list : SlabList) (h : Heap σ) (slabp : Uint) (c : ℕ) :
    Heap σ :=
  let prev := h.links.prev (some slabp)
  let next := h.links.next (some slabp)
  if prev = none then h.setHead c list next
  else if next = none then h.setLinks (h.links.setNext prev none)
  else
    let links := h.links.setNext prev next
    let links := links.setPrev (links.next (some slabp))
      (links.prev (some slabp))
    h.setLinks ((links.setNext (some slabp) none).setPrev (some slabp) none)

def moveSlabOffFull (h : Heap σ) (slabp : Uint) (c : ℕ) : Heap σ :=
  moveSlabOff .fullSlabs h slabp c

def moveSlabOffPartial (h : Heap σ) (slabp : Uint) (c : ℕ) : Heap σ :=
  moveSlabOff .partialSlabs h slabp c

/-- The loop of `_check_free_buddy`. -/
def unmapPages (P : PageOps σ) (s : σ) (mapAddr : Uint) : ℕ → σ
  | 0 => s
  | n + 1 => unmapPages P (P.unmap s mapAddr) (mapAddr + PGSIZE) n

def checkFreeBuddy (P : PageOps σ) (h : Heap σ) (slabp : Uint) :
    Except Fault (Bool × Heap σ) := do
  let slab := h.slabs slabp
  let slabEnd := slab.freeList + PGSIZE * slab.slabSize - sizeofSlab
  if slabEnd < h.heapTop then return (false, h)
  else
    let pages ← P.freeBuddy h.pages slab.pgList
    let mapAddr := h.heapTop - PGSIZE * slab.slabSize
    return (true, { h with
      pages := unmapPages P pages mapAddr slab.slabSize.toInt.toNat
      heapTop := mapAddr })

/-- The end of `move_slab_to_free` and `move_slab_to_partial`, which differ in
the list. -/
def addSlab (list : SlabList) (h : Heap σ) (slabp : Uint) (c : ℕ) :
    Except Fault (Heap σ) := do
  if h.head c list = none then return h.setHead c list (some slabp)
  else
    let last ← lastSlab h (h.head c list)
    return h.setLinks (h.links.join last (some slabp))

def moveSlabToFree (P : PageOps σ) (h : Heap σ) (slabp : Uint) (c : ℕ) :
    Except Fault (Heap σ) := do
  let (freed, h) ← checkFreeBuddy P h slabp
  if freed then return h else addSlab .freeSlabs h slabp c

def moveSlabToPartial (h : Heap σ) (slabp : Uint) (c : ℕ) :
    Except Fault (Heap σ) :=
  addSlab .partialSlabs h slabp c

/-- The walk of `_free_obj_kmem_cache` along one list, ended after `fuel`
steps: the slab in which `FreeObj` finds the object, and what it becomes. -/
def findObj (h : Heap σ) (objAddr objSize : Uint) :
    ℕ → SlabPtr → Except Fault (Option (Uint × SlabT))
  | 0, _ => .error .hang
  | _ + 1, none => .ok none
  | fuel + 1, some slabp =>
      match freeObj objAddr (h.slabs slabp) objSize with
      | some slab => .ok (some (slabp, slab))
      | none => findObj h objAddr objSize fuel (h.links.next (some slabp))

def freeObjKmemCache (P : PageOps σ) (h : Heap σ) (objAddr : Uint) (c : ℕ) :
    Except Fault (Bool × Heap σ) := do
  let h := h.setRefCnt c ((h.caches c).refCnt - 1)
  let objSize := (h.caches c).size
  match ← findObj h objAddr objSize walkBound (h.head c .fullSlabs) with
  | some (slabp, slab) =>
      let h := moveSlabOffFull (h.setSlab slabp slab) slabp c
      if slab.active = 0 then return (true, ← moveSlabToFree P h slabp c)
      else return (true, ← moveSlabToPartial h slabp c)
  | none =>
      match ← findObj h objAddr objSize walkBound (h.head c .partialSlabs) with
      | some (slabp, slab) =>
          let h := moveSlabOffPartial (h.setSlab slabp slab) slabp c
          -- a slab with live objects left is put on no list
          if slab.active = 0 then return (true, ← moveSlabToFree P h slabp c)
          else return (true, h)
      | none => return (false, h)

/-- The loop of `kfree`: whether the object was found. -/
def kfreeFrom (P : PageOps σ) (objAddr : Uint) :
    Heap σ → List ℕ → Except Fault (Bool × Heap σ)
  | h, [] => .ok (false, h)
  | h, c :: caches => do
      let (found, h) ← freeObjKmemCache P h objAddr c
      if found then return (true, h) else kfreeFrom P objAddr h caches

def kfree (P : PageOps σ) (h : Heap σ) (objAddr : Uint) :
    Except Fault (Heap σ) := do
  let (found, h) ← kfreeFrom P objAddr h h.kmemCaches
  if found then return h
  else .error (.panic "error,obj not in slab management\n")

/-! ## `init_slab` -/

def createBootCache (name : String) (size : Uint) (pgNum : ℕ) : KmemCache where
  size := size
  objPerSlab := (PGSIZE * BitVec.ofNat 32 pgNum - sizeofSlab) / (2 + size)
  name := name
  refCnt := 0
  order := log2 pgNum
  node := fun _ => none

/-- The loop of `init_create_kmalloc_cache` over the names that are left. -/
def createKmallocCaches (P : PageOps σ) :
    Heap σ → List String → Except Fault (Heap σ)
  | h, [] => .ok h
  | h, info :: infos => do
      let (_, h) ← initKmemCacheAlloc P h cacheCache
      let h := h.setCache (h.cacheNum + 1) (createBootCache info
        (BitVec.ofNat 32 (calculateBytes info)) (calculatePages info))
      createKmallocCaches P { h with cacheNum := h.cacheNum + 1 } infos

/-- The statics of `slab.c` before `init_slab`. -/
def bootHeap (pages : σ) : Heap σ where
  slabs := fun _ => ⟨none, 0, 0, 0, 0, 0, 0, 0, fun _ => 0⟩
  links := ⟨fun _ => none, fun _ => none⟩
  caches := fun _ => ⟨0, 0, "", 0, 0, fun _ => none⟩
  cacheNum := 0
  heapTop := HEAP_START
  pages := pages

def initSlab (P : PageOps σ) (pages : σ) : Except Fault (Heap σ) := do
  let h := (bootHeap pages).setCache kmemCacheBoot
    (createBootCache "kmem_cache" sizeofKmemCache 1)
  let (_, h) ← initKmemCacheAlloc P h kmemCacheBoot
  let h := h.setCache cacheCache
    (createBootCache "cache_cache" sizeofKmemCache 1)
  createKmallocCaches P { h with cacheNum := 1 } kmemCacheInfo

end Slab
end OS32
