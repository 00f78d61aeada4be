import Mathlib.Tactic

/-!
# Machine words, constants and faults

The kernel runs on a 32-bit machine: `uint`, `int` and pointers are 32 bits
wide.  This file fixes the words and the constants of `types.h`, `mmu.h` and
`pmm.h` that the memory-management and synchronisation code uses, and the ways
in which a call may fail to return.
-/

namespace OS32

abbrev Uint := BitVec 32

/-! ## Constants of `mmu.h` and `pmm.h` -/

def PGSIZE : Uint := 4096
def MAXSIZE : Uint := 0x20000000
/-- `MAXSIZE / PGSIZE`, the length of `phy_pages`. -/
def MAX_PG_NUM : ℕ := 131072

def PHY_BUSY : Uint := 0x1
def PHY_FREE : Uint := 0x0

def PTE_P : Uint := 0x001
def PTE_W : Uint := 0x002
def PTE_U : Uint := 0x004

def PAGE_OFFSET : Uint := 0xC0000000
def PAGE_MASK : Uint := 0xFFFFF000

/-- `PGD_IDX(x)`. -/
def pgdIdx (x : Uint) : Uint := (x >>> 22) &&& 0x3FF
/-- `PTE_IDX(x)`. -/
def pteIdx (x : Uint) : Uint := (x >>> 12) &&& 0x3FF

/-! ## Calls that do not return -/

/-- Why a call does not return to its caller. -/
inductive Fault where
  /-- `panic(msg)` prints the message and stops the kernel. -/
  | panic (msg : String)
  /-- A `while` loop over links that never ends. -/
  | hang
  /-- An entry of `buddy_table` or `phy_pages` that does not exist. -/
  | badIndex (index : ℕ)
  /-- A field of `slab_t` accessed through a NULL pointer. -/
  | nullSlab
  /-- A pointer made from a number that is not the address of an object. -/
  | wildPointer
  /-- A page fault in the kernel that `do_pgfault` does not serve, so that the
  access is repeated for ever. -/
  | unservedFault
  deriving DecidableEq, Repr

theorem bind_ok_iff {ε α β : Type*} {x : Except ε α} {f : α → Except ε β}
    {b : β} : (x.bind f = .ok b) ↔ ∃ a, x = .ok a ∧ f a = .ok b := by
  cases x with
  | error => simp [Except.bind]
  | ok a => simp [Except.bind]

theorem map_ok_iff {ε α β : Type*} {x : Except ε α} {f : α → β} {b : β} :
    x.map f = .ok b ↔ ∃ a, x = .ok a ∧ f a = b := by
  cases x with
  | error => simp [Except.map]
  | ok a => simp [Except.map]

/-- A walk along links that takes more steps than there are addresses has
come back to a node it left before, and so never ends. -/
def walkBound : ℕ := 4294967296

end OS32
