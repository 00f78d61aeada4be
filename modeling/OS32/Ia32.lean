import Mathlib.Tactic

/-!
# A fragment of the IA-32 instruction set

Registers, flags and a byte-addressed memory, with the moves and stack
instructions that a context switch in assembly is made of.  Words are stored
with their low byte first.  The flags of a running CPU have their reserved bits
fixed, which makes `pushf` and `popf` inverse to each other.
-/

namespace Ia32

abbrev Word := BitVec 32

abbrev Mem := Word → BitVec 8

/-! ## Words in memory -/

/-- The word at the address `a`. -/
def read32 (m : Mem) (a : Word) : Word :=
  BitVec.ofNat 32 ((m a).toNat + 256 * (m (a + 1)).toNat +
    65536 * (m (a + 2)).toNat + 16777216 * (m (a + 3)).toNat)

def write32 (m : Mem) (a v : Word) : Mem := fun x =>
  if (x - a).toNat < 4 then BitVec.ofNat 8 (v.toNat / 256 ^ (x - a).toNat)
  else m x

def write8 (m : Mem) (a : Word) (v : BitVec 8) : Mem :=
  Function.update m a v

/-- The addresses from `lo` up to, but not including, `hi`. -/
def Within (lo hi : ℕ) (x : Word) : Prop := lo ≤ x.toNat ∧ x.toNat < hi

variable {m m' : Mem} {a b v x : Word}

theorem write32_other (ha : a.toNat + 4 ≤ 2 ^ 32)
    (hx : x.toNat < a.toNat ∨ a.toNat + 4 ≤ x.toNat) :
    write32 m a v x = m x := by
  have hsub : ¬ (x - a).toNat < 4 := by
    rw [BitVec.toNat_sub]
    have hxlt := x.isLt
    omega
  rw [write32, if_neg hsub]

theorem read32_write32 (m : Mem) (a v : Word) :
    read32 (write32 m a v) a = v := by
  have h0 : (a - a).toNat = 0 := by simp
  have h1 : (a + 1 - a).toNat = 1 := by bv_omega
  have h2 : (a + 2 - a).toNat = 2 := by bv_omega
  have h3 : (a + 3 - a).toNat = 3 := by bv_omega
  apply BitVec.eq_of_toNat_eq
  have hv := v.isLt
  simp only [read32, write32, h0, h1, h2, h3, BitVec.toNat_ofNat]
  norm_num
  omega

/-- A word depends on its four bytes. -/
theorem read32_congr (ha : a.toNat + 4 ≤ 2 ^ 32)
    (hsame : ∀ x, Within a.toNat (a.toNat + 4) x → m' x = m x) :
    read32 m' a = read32 m a := by
  have hbyte : ∀ k : ℕ, k < 4 → m' (a + BitVec.ofNat 32 k) =
      m (a + BitVec.ofNat 32 k) := by
    intro k hk
    apply hsame
    unfold Within
    rw [BitVec.toNat_add, BitVec.toNat_ofNat]
    omega
  have h0 := hbyte 0 (by omega)
  have h1 := hbyte 1 (by omega)
  have h2 := hbyte 2 (by omega)
  have h3 := hbyte 3 (by omega)
  simp only [BitVec.add_zero] at h0 h1 h2 h3
  simp only [read32, BitVec.ofNat_eq_ofNat, h0, h1, h2, h3]

theorem read32_write32_other (ha : a.toNat + 4 ≤ 2 ^ 32)
    (hb : b.toNat + 4 ≤ 2 ^ 32)
    (hdisjoint : b.toNat + 4 ≤ a.toNat ∨ a.toNat + 4 ≤ b.toNat) :
    read32 (write32 m a v) b = read32 m b := by
  apply read32_congr hb
  intro x hx
  unfold Within at hx
  exact write32_other ha (by omega)

theorem write8_other {v : BitVec 8} (hx : x.toNat ≠ a.toNat) :
    write8 m a v x = m x :=
  Function.update_of_ne (fun h => hx (congrArg BitVec.toNat h)) _ _

/-! ## Flags -/

/-- The flags `popf` sets in the kernel: all but the reserved bits, `VM`, `RF`,
`VIF` and `VIP`. -/
def popfMask : Word := 0x247FD5

/-- `eflags` of a CPU that runs kernel code. -/
structure Eflags where
  value : Word
  reserved : value &&& ~~~popfMask = 2

theorem popf_reserved (v : Word) :
    (v &&& popfMask ||| 2) &&& ~~~popfMask = 2 := by
  have htwo : (2 : Word) &&& ~~~popfMask = 2 := by decide
  calc (v &&& popfMask ||| 2) &&& ~~~popfMask
      = v &&& (popfMask &&& ~~~popfMask) ||| 2 &&& ~~~popfMask := by
        rw [BitVec.and_or_distrib_right, BitVec.and_assoc]
    _ = 2 := by
        rw [BitVec.and_not_self, htwo]
        simp

/-- The flags after `popf` of the word `v`. -/
def Eflags.popf (v : Word) : Eflags := ⟨v &&& popfMask ||| 2, popf_reserved v⟩

theorem Eflags.popf_value (f : Eflags) : Eflags.popf f.value = f := by
  obtain ⟨v, hv⟩ := f
  have hsplit : v &&& popfMask ||| v &&& ~~~popfMask = v := by
    rw [← BitVec.and_or_distrib_left, BitVec.or_not_self, BitVec.and_allOnes]
  rw [hv] at hsplit
  simp only [popf, hsplit]

/-! ## Instructions -/

inductive Reg where
  | eax
  | ecx
  | edx
  | ebx
  | esp
  | ebp
  | esi
  | edi
  deriving DecidableEq

structure Machine where
  reg : Reg → Word
  eip : Word
  eflags : Eflags
  mem : Mem

/-- In the order of operands of the AT&T syntax. -/
inductive Instr where
  /-- `movl disp(base),dst` -/
  | load (disp : Word) (base dst : Reg)
  /-- `movl src,disp(base)` -/
  | store (src : Reg) (disp : Word) (base : Reg)
  | pushl (src : Reg)
  | popl (dst : Reg)
  | pushf
  | popf
  | ret

namespace Machine

def setReg (s : Machine) (r : Reg) (v : Word) : Machine :=
  { s with reg := Function.update s.reg r v }

def push (s : Machine) (v : Word) : Machine :=
  let esp := s.reg .esp - 4
  { s.setReg .esp esp with mem := write32 s.mem esp v }

/-- The top of the stack, which is then popped. -/
def pop (s : Machine) : Word × Machine :=
  (read32 s.mem (s.reg .esp), s.setReg .esp (s.reg .esp + 4))

def step (s : Machine) : Instr → Machine
  | .load disp base dst => s.setReg dst (read32 s.mem (s.reg base + disp))
  | .store src disp base =>
      { s with mem := write32 s.mem (s.reg base + disp) (s.reg src) }
  | .pushl src => s.push (s.reg src)
  | .popl dst => s.pop.2.setReg dst s.pop.1
  | .pushf => s.push s.eflags.value
  | .popf => { s.pop.2 with eflags := .popf s.pop.1 }
  | .ret => { s.pop.2 with eip := s.pop.1 }

/-- The instructions one after the other, up to a `ret` at their end. -/
def exec (s : Machine) (code : List Instr) : Machine := code.foldl step s

theorem exec_append (s : Machine) (first second : List Instr) :
    s.exec (first ++ second) = (s.exec first).exec second :=
  List.foldl_append

end Machine
end Ia32
