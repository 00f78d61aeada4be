import Mathlib.Data.BitVec
import OS32.Ia32
import OS32.Run

/-!
# The context switch

`switch_to` of `switch_to.S` on the fragment of the instruction set of
`Ia32`.  The context of a thread lies in its PCB.  A thread of `kthread_create`
has its stack in the page of its PCB, growing down from the end of the page; the
thread that boots has its PCB in `stack` and its stack in `kern_stack`.
-/

namespace OS32

open Ia32 Transition

namespace SwitchTo

/-- The first half of `switch_to`: the registers are saved in the context
`4(%esp)`. -/
def saveContext : List Instr :=
  [.load 4 .esp .eax,
    .store .esp 0 .eax,
    .store .ebp 4 .eax,
    .store .ebx 8 .eax,
    .store .esi 12 .eax,
    .store .edi 16 .eax,
    .pushf,
    .popl .ecx,
    .store .ecx 20 .eax]

/-- The second half: they are loaded from the context `8(%esp)`. -/
def loadContext : List Instr :=
  [.load 8 .esp .eax,
    .load 0 .eax .esp,
    .load 4 .eax .ebp,
    .load 8 .eax .ebx,
    .load 12 .eax .esi,
    .load 16 .eax .edi,
    .load 20 .eax .eax,
    .pushl .eax,
    .popf,
    .ret]

def switchTo : List Instr := saveContext ++ loadContext

/-- `sizeof(proc_struct_t)` -/
def pcbSize : Word := 168

def pgSize : Word := 4096

/-- The bytes of a PCB and of a stack from `low` up to `high`. -/
def Occupies (pcb : Word) (low high : ℕ) (x : Word) : Prop :=
  Within pcb.toNat (pcb.toNat + 168) x ∨ Within low high x

/-- Where the PCBs and the stacks are. -/
structure Layout (τ : Type*) where
  pcb : τ → Word
  low : τ → ℕ
  high : τ → ℕ
  room : ∀ t, (pcb t).toNat + 168 ≤ 2 ^ 32 ∧ high t ≤ 2 ^ 32
  separate : ∀ t, (pcb t).toNat + 168 ≤ low t ∨ high t ≤ (pcb t).toNat
  apart : ∀ t u, t ≠ u → ∀ x, Occupies (pcb t) (low t) (high t) x →
    ¬ Occupies (pcb u) (low u) (high u) x

variable {τ : Type*} {L : Layout τ}

/-- The bytes of the PCB and the stack of `t`. -/
def Layout.Own (L : Layout τ) (t : τ) : Word → Prop :=
  Occupies (L.pcb t) (L.low t) (L.high t)

/-- The PCB and the stack of `t` share one page. -/
def Layout.OnePage (L : Layout τ) (t : τ) : Prop :=
  L.low t = (L.pcb t).toNat + 168 ∧ L.high t = (L.pcb t).toNat + 4096

/-- `&t->context` -/
def Layout.context (L : Layout τ) (t : τ) : Word := L.pcb t + 24

/-- The `n` bytes from `p` on are those of `f`. -/
def copy (m : Mem) (p : Word) (n : ℕ) (f : ℕ → BitVec 8) : Mem := fun x =>
  if (x - p).toNat < n then f (x - p).toNat else m x

/-- `memset(p,0,n)` -/
def memset0 (m : Mem) (p n : Word) : Mem := copy m p n.toNat fun _ => 0

/-- `memcpy(p,bytes,len)` -/
def memcpy (m : Mem) (p : Word) (bytes : List (BitVec 8)) : Mem :=
  copy m p bytes.length fun i => bytes.getD i 0

/-- The name is copied without its end, whatever its length. -/
def setProcName (m : Mem) (proc : Word) (name : List (BitVec 8)) : Mem :=
  memcpy m (proc + 56) name

/-- The first part of `kthread_create`: the PCB is cleared and named, and
`state`, `kstack`, `pid` and `mm` are set. -/
def initPcb (m : Mem) (current pid proc : Word) (name : List (BitVec 8)) : Mem :=
  let m := memset0 m proc pcbSize
  let m := setProcName m proc name
  let m := write32 m proc 0
  let m := write32 m (proc + 8) current
  let m := write32 m (proc + 4) pid
  write32 m (proc + 20) 0

/-- The second part: the stack image and the context. -/
def initStack (m : Mem) (kthreadRet proc fn args : Word) : Mem :=
  let stackTop := proc + pgSize
  let m := write32 m (stackTop - 4) args
  let m := write32 m (stackTop - 8) kthreadRet
  let m := write32 m (stackTop - 12) fn
  let m := write32 m (proc + 24) (proc + pgSize - 12)
  write32 m (proc + 44) 0x200

/-- The third part: `state`, `ticks` and `prio`. -/
def initReady (m : Mem) (proc : Word) (prio : BitVec 8) : Mem :=
  let m := write32 m proc 1
  let m := write8 m (proc + 164) prio
  write8 m (proc + 165) prio

/-- `kthread_create` up to the link into the ready list. -/
def kthreadCreate (m : Mem) (kthreadRet current pid proc fn args : Word)
    (name : List (BitVec 8)) (prio : BitVec 8) : Mem :=
  initReady (initStack (initPcb m current pid proc name) kthreadRet proc fn args)
    proc prio

/-! ## What a suspended thread relies on -/

/-- The stack pointer is in the stack of `t`, with room for a word below it and
three words above. -/
def OnStack (L : Layout τ) (t : τ) (esp : Word) : Prop :=
  L.low t + 4 ≤ esp.toNat ∧ esp.toNat + 12 ≤ L.high t

/-- The bytes of `t` nobody else may write while it is suspended: its context
and its stack from `esp` on. -/
def Kept (L : Layout τ) (t : τ) (esp : Word) (x : Word) : Prop :=
  Within (L.context t).toNat ((L.context t).toNat + 24) x ∨
    Within esp.toNat (L.high t) x

/-- The memory holds the state `snap` in which `t` entered `switch_to`. -/
structure Holds (L : Layout τ) (m : Mem) (t : τ) (snap : Machine) : Prop where
  room : OnStack L t (snap.reg .esp)
  esp : read32 m (L.context t) = snap.reg .esp
  ebp : read32 m (L.context t + 4) = snap.reg .ebp
  ebx : read32 m (L.context t + 8) = snap.reg .ebx
  esi : read32 m (L.context t + 12) = snap.reg .esi
  edi : read32 m (L.context t + 16) = snap.reg .edi
  eflags : Eflags.popf (read32 m (L.context t + 20)) = snap.eflags
  stack : ∀ x, Within (snap.reg .esp).toNat (L.high t) x → m x = snap.mem x

/-- `s` goes on where `switch_to` was called in the state `snap`. -/
structure Resumes (L : Layout τ) (t : τ) (snap s : Machine) : Prop where
  eip : s.eip = read32 snap.mem (snap.reg .esp)
  esp : s.reg .esp = snap.reg .esp + 4
  ebp : s.reg .ebp = snap.reg .ebp
  ebx : s.reg .ebx = snap.reg .ebx
  esi : s.reg .esi = snap.reg .esi
  edi : s.reg .edi = snap.reg .edi
  eflags : s.eflags = snap.eflags
  stack : ∀ x, Within (snap.reg .esp).toNat (L.high t) x → s.mem x = snap.mem x

theorem Layout.context_toNat (L : Layout τ) (t : τ) :
    (L.context t).toNat = (L.pcb t).toNat + 24 := by
  have hroom := L.room t
  unfold Layout.context
  bv_omega

theorem Layout.field_toNat (L : Layout τ) (t : τ) {k : ℕ} (hk : k ≤ 20) :
    (L.context t + BitVec.ofNat 32 k).toNat = (L.pcb t).toNat + 24 + k := by
  have hroom := L.room t
  have hcontext := L.context_toNat t
  rw [BitVec.toNat_add, BitVec.toNat_ofNat]
  omega

theorem Layout.fields_toNat (L : Layout τ) (t : τ) :
    (L.context t + 4).toNat = (L.pcb t).toNat + 28 ∧
      (L.context t + 8).toNat = (L.pcb t).toNat + 32 ∧
      (L.context t + 12).toNat = (L.pcb t).toNat + 36 ∧
      (L.context t + 16).toNat = (L.pcb t).toNat + 40 ∧
      (L.context t + 20).toNat = (L.pcb t).toNat + 44 :=
  ⟨L.field_toNat t (k := 4) (by omega), L.field_toNat t (k := 8) (by omega),
    L.field_toNat t (k := 12) (by omega), L.field_toNat t (k := 16) (by omega),
    L.field_toNat t (k := 20) (by omega)⟩

/-- A word of the context. -/
theorem read_field_congr {m m' : Mem} {t : τ} {k : ℕ} (hk : k ≤ 20)
    (hsame : ∀ x, Within (L.context t).toNat ((L.context t).toNat + 24) x →
      m' x = m x) :
    read32 m' (L.context t + BitVec.ofNat 32 k) =
      read32 m (L.context t + BitVec.ofNat 32 k) := by
  have hroom := L.room t
  have hcontext := L.context_toNat t
  have hfield := L.field_toNat t hk
  apply read32_congr (by omega)
  intro x hx
  apply hsame
  unfold Within at hx ⊢
  omega

theorem Holds.congr {m m' : Mem} {t : τ} {snap : Machine}
    (hheld : Holds L m t snap)
    (hsame : ∀ x, Kept L t (snap.reg .esp) x → m' x = m x) :
    Holds L m' t snap := by
  have hcontext : ∀ x, Within (L.context t).toNat ((L.context t).toNat + 24) x →
      m' x = m x := fun x hx => hsame x (Or.inl hx)
  refine ⟨hheld.room, ?_, ?_, ?_, ?_, ?_, ?_, ?_⟩
  · have hzero := read_field_congr (k := 0) (by omega) hcontext
    simp only [BitVec.add_zero] at hzero
    exact hzero.trans hheld.esp
  · exact (read_field_congr (k := 4) (by omega) hcontext).trans hheld.ebp
  · exact (read_field_congr (k := 8) (by omega) hcontext).trans hheld.ebx
  · exact (read_field_congr (k := 12) (by omega) hcontext).trans hheld.esi
  · exact (read_field_congr (k := 16) (by omega) hcontext).trans hheld.edi
  · exact (congrArg Eflags.popf
      (read_field_congr (k := 20) (by omega) hcontext)).trans hheld.eflags
  · exact fun x hx => (hsame x (Or.inr hx)).trans (hheld.stack x hx)

/-! ## The two halves -/

/-- The memory after the first half, which saves in the context `c`. -/
def savedMem (s : Machine) (c : Word) : Mem :=
  let m := write32 s.mem c (s.reg .esp)
  let m := write32 m (c + 4) (s.reg .ebp)
  let m := write32 m (c + 8) (s.reg .ebx)
  let m := write32 m (c + 12) (s.reg .esi)
  let m := write32 m (c + 16) (s.reg .edi)
  let m := write32 m (s.reg .esp - 4) s.eflags.value
  write32 m (c + 20) s.eflags.value

theorem exec_saveContext {s : Machine} {c : Word}
    (hc : read32 s.mem (s.reg .esp + 4) = c) :
    (s.exec saveContext).mem = savedMem s c ∧
      (s.exec saveContext).reg .esp = s.reg .esp := by
  subst hc
  constructor
  · simp [Machine.exec, saveContext, Machine.step, Machine.setReg,
      Machine.push, Machine.pop, read32_write32, savedMem]
  · simp [Machine.exec, saveContext, Machine.step, Machine.setReg,
      Machine.push, Machine.pop]

/-- The second half, from the context `c`. -/
theorem exec_loadContext {s : Machine} {c esp : Word}
    (hc : read32 s.mem (s.reg .esp + 8) = c) (hesp : read32 s.mem c = esp)
    (hroom : 4 ≤ esp.toNat ∧ esp.toNat + 4 ≤ 2 ^ 32) :
    (s.exec loadContext).mem =
        write32 s.mem (esp - 4) (read32 s.mem (c + 20)) ∧
      (s.exec loadContext).eip = read32 s.mem esp ∧
      (s.exec loadContext).reg .esp = esp + 4 ∧
      (s.exec loadContext).reg .ebp = read32 s.mem (c + 4) ∧
      (s.exec loadContext).reg .ebx = read32 s.mem (c + 8) ∧
      (s.exec loadContext).reg .esi = read32 s.mem (c + 12) ∧
      (s.exec loadContext).reg .edi = read32 s.mem (c + 16) ∧
      (s.exec loadContext).eflags = .popf (read32 s.mem (c + 20)) := by
  have hbelow : (esp - 4).toNat + 4 = esp.toNat := by bv_omega
  have hret : ∀ v, read32 (write32 s.mem (esp - 4) v) esp =
      read32 s.mem esp := fun v =>
    read32_write32_other (by omega) (by omega) (by omega)
  subst hc
  subst hesp
  simp only [BitVec.ofNat_eq_ofNat] at hret
  simp [Machine.exec, loadContext, Machine.step, Machine.setReg,
    Machine.push, Machine.pop, read32_write32, hret]

theorem OnStack.below {t : τ} {esp : Word} (hstack : OnStack L t esp) :
    (esp - 4).toNat + 4 = esp.toNat := by
  unfold OnStack at hstack
  bv_omega

/-- The first half writes the context of the thread and the word below its
stack pointer. -/
theorem savedMem_other {s : Machine} {t : τ} {x : Word}
    (hstack : OnStack L t (s.reg .esp))
    (hcontext : ¬ Within (L.context t).toNat ((L.context t).toNat + 24) x)
    (hbelow : ¬ Within ((s.reg .esp).toNat - 4) (s.reg .esp).toNat x) :
    savedMem s (L.context t) x = s.mem x := by
  have hroom := L.room t
  have h0 := L.context_toNat t
  obtain ⟨h4, h8, h12, h16, h20⟩ := L.fields_toNat t
  have hpush := hstack.below
  have hlast := (s.reg .esp).isLt
  unfold Within at hcontext hbelow
  simp only [savedMem]
  rw [write32_other (by omega) (by omega), write32_other (by omega) (by omega),
    write32_other (by omega) (by omega), write32_other (by omega) (by omega),
    write32_other (by omega) (by omega), write32_other (by omega) (by omega),
    write32_other (by omega) (by omega)]

/-- After the first half the memory holds the state of the thread. -/
theorem holds_savedMem {s : Machine} {t : τ}
    (hstack : OnStack L t (s.reg .esp)) :
    Holds L (savedMem s (L.context t)) t s := by
  have hroom := L.room t
  have hseparate := L.separate t
  have h0 := L.context_toNat t
  obtain ⟨h4, h8, h12, h16, h20⟩ := L.fields_toNat t
  have hpush := hstack.below
  have hlast := (s.reg .esp).isLt
  have hkeep := fun x => savedMem_other (x := x) hstack
  unfold OnStack at hstack
  refine ⟨hstack, ?_, ?_, ?_, ?_, ?_, ?_, fun x hx => ?_⟩
  · simp (disch := omega) only [savedMem, read32_write32_other, read32_write32]
  · simp (disch := omega) only [savedMem, read32_write32_other, read32_write32]
  · simp (disch := omega) only [savedMem, read32_write32_other, read32_write32]
  · simp (disch := omega) only [savedMem, read32_write32_other, read32_write32]
  · simp (disch := omega) only [savedMem, read32_write32_other, read32_write32]
  · simp only [savedMem, read32_write32, Eflags.popf_value]
  · unfold Within at hx hkeep
    exact hkeep x (by omega) (by omega)

variable {m : Mem} {t : τ} {snap : Machine} {kthreadRet fn args : Word}

/-- What is kept for a thread is its own. -/
theorem Holds.own_of_kept {snap : Machine} {x : Word}
    (hheld : Holds L m t snap) (hx : Kept L t (snap.reg .esp) x) :
    L.Own t x := by
  have hcontext := L.context_toNat t
  have hstack := hheld.room
  unfold OnStack at hstack
  unfold Kept Within at hx
  unfold Layout.Own Occupies Within
  omega

/-- Writes to the PCB and the stack of one thread leave the states of the
others. -/
theorem Holds.other {u : τ} {m' : Mem} (hheld : Holds L m t snap)
    (hne : t ≠ u) (hsame : ∀ x, ¬ L.Own u x → m' x = m x) :
    Holds L m' t snap :=
  hheld.congr fun x hx => hsame x (L.apart t u hne x (hheld.own_of_kept hx))

/-- The word below the stack pointer is the thread's own. -/
theorem OnStack.own_below {esp x : Word} (hstack : OnStack L t esp)
    (hx : ¬ L.Own t x) : ¬ Within (esp.toNat - 4) esp.toNat x := by
  unfold OnStack at hstack
  unfold Layout.Own Occupies Within at hx
  unfold Within
  omega

/-- The second half resumes a suspended thread, and writes the word below its
stack pointer only. -/
theorem Holds.resumes {machine : Machine}
    (hheld : Holds L machine.mem t snap)
    (hto : read32 machine.mem (machine.reg .esp + 8) = L.context t) :
    Resumes L t snap (machine.exec loadContext) ∧
      ∀ x, ¬ Within ((snap.reg .esp).toNat - 4) (snap.reg .esp).toNat x →
        (machine.exec loadContext).mem x = machine.mem x := by
  have hroom := L.room t
  have hstack := hheld.room
  have hbelow := hstack.below
  unfold OnStack at hstack
  obtain ⟨hmem, heip, hesp, hebp, hebx, hesi, hedi, heflags⟩ :=
    exec_loadContext hto hheld.esp (by omega)
  have hother : ∀ x,
      ¬ Within ((snap.reg .esp).toNat - 4) (snap.reg .esp).toNat x →
        (machine.exec loadContext).mem x = machine.mem x := by
    intro x hx
    unfold Within at hx
    rw [hmem, write32_other (by omega) (by omega)]
  refine ⟨⟨?_, hesp, ?_, ?_, ?_, ?_, ?_, fun x hx => ?_⟩, hother⟩
  · rw [heip]
    apply read32_congr (by omega)
    intro x hx
    apply hheld.stack
    unfold Within at hx ⊢
    omega
  · rw [hebp, hheld.ebp]
  · rw [hebx, hheld.ebx]
  · rw [hesi, hheld.esi]
  · rw [hedi, hheld.edi]
  · rw [heflags, hheld.eflags]
  · rw [hother x (by unfold Within at hx ⊢; omega)]
    exact hheld.stack x hx

/-! ## A new thread -/

theorem copy_other {m : Mem} {p x : Word} {n : ℕ} {f : ℕ → BitVec 8}
    (hp : p.toNat + n ≤ 2 ^ 32)
    (hx : ¬ Within p.toNat (p.toNat + n) x) : copy m p n f x = m x := by
  have hsub : ¬ (x - p).toNat < n := by
    unfold Within at hx
    rw [BitVec.toNat_sub]
    have hxlt := x.isLt
    omega
  rw [copy, if_neg hsub]

theorem copy_within {m : Mem} {p x : Word} {n : ℕ} {f : ℕ → BitVec 8}
    (hx : Within p.toNat (p.toNat + n) x) :
    copy m p n f x = f (x.toNat - p.toNat) := by
  have hsub : (x - p).toNat = x.toNat - p.toNat := by
    unfold Within at hx
    rw [BitVec.toNat_sub]
    have hxlt := x.isLt
    omega
  unfold Within at hx
  rw [copy, hsub, if_pos (by omega)]

/-- As if the new thread had entered `switch_to` with the stack image of
`kthread_create`. -/
def newThread (m : Mem) (proc : Word) : Machine where
  reg r := if r = .esp then proc + pgSize - 12 else 0
  eip := 0
  eflags := .popf 0x200
  mem := m

section NewThread

variable {proc current pid : Word} {name : List (BitVec 8)} {prio : BitVec 8}
  (hpage : proc.toNat + 4096 ≤ 2 ^ 32)

include hpage

/-- The addresses in the page of a new thread. -/
theorem image_toNat :
    (proc + 4).toNat = proc.toNat + 4 ∧
      (proc + 8).toNat = proc.toNat + 8 ∧
      (proc + 20).toNat = proc.toNat + 20 ∧
      (proc + 24).toNat = proc.toNat + 24 ∧
      (proc + 44).toNat = proc.toNat + 44 ∧
      (proc + 56).toNat = proc.toNat + 56 ∧
      (proc + 164).toNat = proc.toNat + 164 ∧
      (proc + 165).toNat = proc.toNat + 165 ∧
      (proc + pgSize - 4).toNat = proc.toNat + 4092 ∧
      (proc + pgSize - 8).toNat = proc.toNat + 4088 ∧
      (proc + pgSize - 12).toNat = proc.toNat + 4084 := by
  unfold pgSize
  refine ⟨?_, ?_, ?_, ?_, ?_, ?_, ?_, ?_, ?_, ?_, ?_⟩ <;> bv_omega

theorem initPcb_other {x : Word}
    (hname : proc.toNat + 56 + name.length ≤ 2 ^ 32)
    (hx : ¬ Within proc.toNat (proc.toNat + 168) x)
    (hnot : ¬ Within (proc.toNat + 56) (proc.toNat + 56 + name.length) x) :
    initPcb m current pid proc name x = m x := by
  have hsize : pcbSize.toNat = 168 := rfl
  obtain ⟨h4, h8, h20, -, -, h56, -⟩ := image_toNat hpage
  rw [← h56] at hnot hname
  rw [← hsize] at hx
  have hhead : x.toNat < proc.toNat ∨ proc.toNat + 24 ≤ x.toNat := by
    unfold Within at hx
    omega
  simp only [initPcb, setProcName, memcpy, memset0]
  rw [write32_other (by omega) (by omega), write32_other (by omega) (by omega),
    write32_other (by omega) (by omega), write32_other (by omega) (by omega),
    copy_other hname hnot, copy_other (by omega) hx]

/-- The saved registers are those `memset` leaves. -/
theorem initPcb_saved {x : Word}
    (hname : proc.toNat + 56 + name.length ≤ 2 ^ 32)
    (hx : Within (proc.toNat + 28) (proc.toNat + 44) x) :
    initPcb m current pid proc name x = 0 := by
  have hsize : pcbSize.toNat = 168 := rfl
  obtain ⟨h4, h8, h20, -, -, h56, -⟩ := image_toNat hpage
  unfold Within at hx
  have hclear : Within proc.toNat (proc.toNat + pcbSize.toNat) x := by
    unfold Within
    omega
  have hnot : ¬ Within (proc + 56).toNat
      ((proc + 56).toNat + name.length) x := by
    unfold Within
    omega
  simp only [initPcb, setProcName, memcpy, memset0]
  rw [write32_other (by omega) (by omega), write32_other (by omega) (by omega),
    write32_other (by omega) (by omega), write32_other (by omega) (by omega),
    copy_other (by omega) hnot, copy_within hclear]

theorem initStack_other {x : Word}
    (hcontext : x.toNat < proc.toNat + 24 ∨
      proc.toNat + 28 ≤ x.toNat)
    (hflags : x.toNat < proc.toNat + 44 ∨ proc.toNat + 48 ≤ x.toNat)
    (hstack : x.toNat < proc.toNat + 4084 ∨
      proc.toNat + 4096 ≤ x.toNat) :
    initStack m kthreadRet proc fn args x = m x := by
  obtain ⟨-, -, -, h24, h44, -, -, -, htop4, htop8, htop12⟩ := image_toNat hpage
  simp only [initStack]
  rw [write32_other (by omega) (by omega), write32_other (by omega) (by omega),
    write32_other (by omega) (by omega), write32_other (by omega) (by omega),
    write32_other (by omega) (by omega)]

theorem initReady_other {x : Word}
    (hstate : x.toNat < proc.toNat ∨ proc.toNat + 4 ≤ x.toNat)
    (hprio : x.toNat < proc.toNat + 164 ∨
      proc.toNat + 166 ≤ x.toNat) :
    initReady m proc prio x = m x := by
  obtain ⟨-, -, -, -, -, -, h164, h165, -⟩ := image_toNat hpage
  simp only [initReady]
  rw [write8_other (by omega), write8_other (by omega),
    write32_other (by omega) (by omega)]

/-- A word of the context or of the stack. -/
theorem read32_initReady {b : Word} (hroom : b.toNat + 4 ≤ 2 ^ 32)
    (hb : proc.toNat + 24 ≤ b.toNat)
    (hlast : b.toNat + 4 ≤ proc.toNat + 48 ∨
      proc.toNat + 168 ≤ b.toNat) :
    read32 (initReady m proc prio) b = read32 m b := by
  apply read32_congr hroom
  intro x hx
  unfold Within at hx
  exact initReady_other hpage (by omega) (by omega)

/-- `kthread_create` writes in the page of the new thread and where the name
goes. -/
theorem kthreadCreate_other {x : Word}
    (hname : proc.toNat + 56 + name.length ≤ 2 ^ 32)
    (hx : ¬ Within proc.toNat (proc.toNat + 4096) x)
    (hnot : ¬ Within (proc.toNat + 56) (proc.toNat + 56 + name.length) x) :
    kthreadCreate m kthreadRet current pid proc fn args name prio x = m x := by
  have hpcb : ¬ Within proc.toNat (proc.toNat + 168) x := by
    unfold Within at hx ⊢
    omega
  unfold Within at hx
  rw [kthreadCreate, initReady_other hpage (by omega) (by omega),
    initStack_other hpage (by omega) (by omega) (by omega),
    initPcb_other hpage hname hpcb hnot]

theorem read32_kthreadCreate_saved {b : Word}
    (hname : proc.toNat + 56 + name.length ≤ 2 ^ 32)
    (hb : proc.toNat + 28 ≤ b.toNat)
    (hlast : b.toNat + 4 ≤ proc.toNat + 44) :
    read32 (kthreadCreate m kthreadRet current pid proc fn args name prio)
      b = 0 := by
  have hzero : read32 (kthreadCreate m kthreadRet current pid proc fn args
      name prio) b = read32 (fun _ => 0) b := by
    apply read32_congr (by omega)
    intro x hx
    have hsaved : Within (proc.toNat + 28) (proc.toNat + 44) x := by
      unfold Within at hx ⊢
      omega
    unfold Within at hx
    rw [kthreadCreate, initReady_other hpage (by omega) (by omega),
      initStack_other hpage (by omega) (by omega) (by omega),
      initPcb_saved hpage hname hsaved]
  exact hzero.trans rfl

/-- From the stack pointer of the new thread on: its function, the return
address and the argument. -/
theorem image_initStack :
    read32 (initStack m kthreadRet proc fn args)
        (proc + pgSize - 12) = fn ∧
      read32 (initStack m kthreadRet proc fn args)
        (proc + pgSize - 8) = kthreadRet ∧
      read32 (initStack m kthreadRet proc fn args)
        (proc + pgSize - 4) = args := by
  obtain ⟨-, -, -, h24, h44, -, -, -, htop4, htop8, htop12⟩ := image_toNat hpage
  simp only [initStack]
  generalize proc + pgSize - 4 = a4 at *
  generalize proc + pgSize - 8 = a8 at *
  generalize proc + pgSize - 12 = a12 at *
  generalize proc + 24 = a24 at *
  generalize proc + 44 = a44 at *
  refine ⟨?_, ?_, ?_⟩ <;>
    simp (disch := omega) only [read32_write32_other, read32_write32]

theorem context_initStack (m : Mem) (kthreadRet fn args : Word) :
    read32 (initStack m kthreadRet proc fn args) (proc + 24) =
        proc + pgSize - 12 ∧
      read32 (initStack m kthreadRet proc fn args) (proc + 44) =
        0x200 := by
  obtain ⟨-, -, -, h24, h44, -⟩ := image_toNat hpage
  simp only [initStack]
  constructor
  · rw [read32_write32_other (by omega) (by omega) (by omega), read32_write32]
  · rw [read32_write32]

theorem image_kthreadCreate (m : Mem) (kthreadRet fn args current pid : Word)
    (name : List (BitVec 8)) (prio : BitVec 8) :
    read32 (kthreadCreate m kthreadRet current pid proc fn args name prio)
        (proc + pgSize - 12) = fn ∧
      read32 (kthreadCreate m kthreadRet current pid proc fn args name prio)
        (proc + pgSize - 8) = kthreadRet ∧
      read32 (kthreadCreate m kthreadRet current pid proc fn args name prio)
        (proc + pgSize - 4) = args := by
  obtain ⟨-, -, -, -, -, -, -, -, htop4, htop8, htop12⟩ := image_toNat hpage
  rw [kthreadCreate, read32_initReady hpage (by omega) (by omega) (by omega),
    read32_initReady hpage (by omega) (by omega) (by omega),
    read32_initReady hpage (by omega) (by omega) (by omega)]
  exact image_initStack hpage

omit hpage

variable {t : τ}

/-- The stack of a new thread ends in the address space. -/
theorem Layout.OnePage.page_le (honePage : L.OnePage t) :
    (L.pcb t).toNat + 4096 ≤ 2 ^ 32 :=
  honePage.2 ▸ (L.room t).2

theorem Layout.OnePage.own_iff (honePage : L.OnePage t) {x : Word} :
    L.Own t x ↔ Within (L.pcb t).toNat ((L.pcb t).toNat + 4096) x := by
  unfold Layout.Own Occupies
  rw [honePage.1, honePage.2]
  unfold Within
  omega

theorem holds_kthreadCreate (honePage : L.OnePage t)
    (hname : (L.pcb t).toNat + 56 + name.length ≤ 2 ^ 32) :
    Holds L (kthreadCreate m kthreadRet current pid (L.pcb t) fn args name prio)
      t (newThread (kthreadCreate m kthreadRet current pid (L.pcb t) fn args name
        prio) (L.pcb t)) := by
  have hpage := honePage.page_le
  obtain ⟨c4, c8, c12, c16, c20⟩ := L.fields_toNat t
  obtain ⟨-, -, -, h24, h44, -, -, -, -, -, htop12⟩ := image_toNat hpage
  obtain ⟨hesp, heflags⟩ := context_initStack hpage
    (initPcb m current pid (L.pcb t) name) kthreadRet fn args
  have hflags : L.context t + 20 = L.pcb t + 44 := by
    unfold Layout.context
    bv_omega
  refine ⟨?_, ?_, ?_, ?_, ?_, ?_, ?_, fun x _ => rfl⟩
  · unfold OnStack
    rw [honePage.1, honePage.2]
    simp only [newThread, if_true]
    omega
  · rw [kthreadCreate, Layout.context,
      read32_initReady hpage (by omega) (by omega) (by omega)]
    exact hesp
  · exact read32_kthreadCreate_saved hpage hname (by omega) (by omega)
  · exact read32_kthreadCreate_saved hpage hname (by omega) (by omega)
  · exact read32_kthreadCreate_saved hpage hname (by omega) (by omega)
  · exact read32_kthreadCreate_saved hpage hname (by omega) (by omega)
  · rw [kthreadCreate, hflags,
      read32_initReady hpage (by omega) (by omega) (by omega), heflags]
    rfl

end NewThread

/-! ## Runs -/

/-- `saved t` is the state in which `t` entered `switch_to`, while it is
suspended; `entry t` are the function and the argument of a thread that has
not run yet. -/
structure State (τ : Type*) where
  machine : Machine
  running : τ
  saved : τ → Option Machine
  entry : τ → Option (Word × Word)

inductive Act (τ : Type*) where
  /-- The running thread does anything else. -/
  | compute
  | create (t : τ) (fn args : Word) (name : List (BitVec 8)) (prio : BitVec 8)
  /-- The running thread calls `switch_to` with the context of `next`. -/
  | switch (next : τ)

/-- One thread runs and no other one exists. -/
def start (machine : Machine) (running : τ) : State τ :=
  ⟨machine, running, fun _ => none, fun _ => none⟩

/-- The memory holds the state of each suspended thread, and the stack image of
those that have not run. -/
structure Inv (L : Layout τ) (kthreadRet : Word) (s : State τ) : Prop where
  running : s.saved s.running = none
  holds : ∀ t snap, s.saved t = some snap → Holds L s.machine.mem t snap
  image : ∀ t fn args, s.entry t = some (fn, args) → ∃ snap,
    s.saved t = some snap ∧
      read32 snap.mem (snap.reg .esp) = fn ∧
      read32 snap.mem (snap.reg .esp + 4) = kthreadRet ∧
      read32 snap.mem (snap.reg .esp + 8) = args

variable {s s' : State τ}

theorem start_inv (machine : Machine) (running : τ) :
    Inv L kthreadRet (start machine running) := by
  constructor <;> simp [start]

variable [DecidableEq τ]

/-- The states saved once the running thread has entered `switch_to`. -/
def State.entered (s : State τ) : τ → Option Machine :=
  Function.update s.saved s.running (some s.machine)

inductive Step (L : Layout τ) (kthreadRet : Word) (s : State τ) :
    Act τ → State τ → Prop
  | compute {machine : Machine}
      (hkept : ∀ t snap, s.saved t = some snap →
        ∀ x, Kept L t (snap.reg .esp) x → machine.mem x = s.machine.mem x) :
      Step L kthreadRet s .compute { s with machine := machine }
  | create {t : τ} {fn args pid : Word} {name : List (BitVec 8)}
      {prio : BitVec 8} {m : Mem} (hrunning : t ≠ s.running)
      (hfresh : s.saved t = none) (honePage : L.OnePage t)
      (hname : (L.pcb t).toNat + 56 + name.length ≤ 2 ^ 32)
      (hkept : ∀ u snap, s.saved u = some snap →
        ∀ x, Kept L u (snap.reg .esp) x → ¬ Within ((L.pcb t).toNat + 56)
          ((L.pcb t).toNat + 56 + name.length) x)
      (hm : m = kthreadCreate s.machine.mem kthreadRet (L.pcb s.running) pid
        (L.pcb t) fn args name prio) :
      Step L kthreadRet s (.create t fn args name prio)
        { s with
          machine := { s.machine with mem := m }
          saved := Function.update s.saved t (some (newThread m (L.pcb t)))
          entry := Function.update s.entry t (some (fn, args)) }
  | switch {next : τ} {snap : Machine}
      (hstack : OnStack L s.running (s.machine.reg .esp))
      (hfrom : read32 s.machine.mem (s.machine.reg .esp + 4) =
        L.context s.running)
      (hto : read32 s.machine.mem (s.machine.reg .esp + 8) = L.context next)
      (hsaved : s.entered next = some snap) :
      Step L kthreadRet s (.switch next)
        { machine := s.machine.exec switchTo
          running := next
          saved := Function.update s.entered next none
          entry := Function.update s.entry next none }

theorem Inv.afterCreate (hs : Inv L kthreadRet s) {fn args pid : Word}
    {name : List (BitVec 8)} {prio : BitVec 8} (hrunning : t ≠ s.running)
    (honePage : L.OnePage t)
    (hname : (L.pcb t).toNat + 56 + name.length ≤ 2 ^ 32)
    (hkept : ∀ u snap, s.saved u = some snap →
      ∀ x, Kept L u (snap.reg .esp) x → ¬ Within ((L.pcb t).toNat + 56)
        ((L.pcb t).toNat + 56 + name.length) x) {m : Mem}
    (hm : m = kthreadCreate s.machine.mem kthreadRet (L.pcb s.running) pid
      (L.pcb t) fn args name prio) :
    Inv L kthreadRet { s with
      machine := { s.machine with mem := m }
      saved := Function.update s.saved t (some (newThread m (L.pcb t)))
      entry := Function.update s.entry t (some (fn, args)) } := by
  constructor
  · exact (Function.update_of_ne hrunning.symm _ _).trans hs.running
  · intro u snap hsaved
    by_cases hut : u = t
    · subst hut
      obtain rfl : newThread m (L.pcb u) = snap := by simpa using hsaved
      subst hm
      exact holds_kthreadCreate honePage hname
    · simp only [Function.update_of_ne hut] at hsaved
      have hheld := hs.holds u snap hsaved
      refine hheld.congr fun x hx => ?_
      have hapart := L.apart u t hut x (hheld.own_of_kept hx)
      subst hm
      exact kthreadCreate_other honePage.page_le hname
        (mt honePage.own_iff.mpr hapart) (hkept u snap hsaved x hx)
  · intro u fn' args' hentry
    by_cases hut : u = t
    · subst hut
      obtain ⟨rfl, rfl⟩ : fn = fn' ∧ args = args' := by simpa using hentry
      refine ⟨_, Function.update_self _ _ _, ?_⟩
      have himage := image_kthreadCreate honePage.page_le s.machine.mem
        kthreadRet fn args (L.pcb s.running) pid name prio
      have h4 : L.pcb u + pgSize - 12 + 4 = L.pcb u + pgSize - 8 := by bv_omega
      have h8 : L.pcb u + pgSize - 12 + 8 = L.pcb u + pgSize - 4 := by bv_omega
      simpa only [newThread, if_true, h4, h8, hm] using himage
    · simp only [Function.update_of_ne hut] at hentry ⊢
      exact hs.image u fn' args' hentry

/-- The first half of `switch_to` suspends the running thread. -/
theorem Inv.afterSave (hs : Inv L kthreadRet s)
    (hstack : OnStack L s.running (s.machine.reg .esp)) (u : τ)
    (snap : Machine) (hsaved : s.entered u = some snap) :
    Holds L (savedMem s.machine (L.context s.running)) u snap := by
  unfold State.entered at hsaved
  by_cases hu : u = s.running
  · subst hu
    obtain rfl : s.machine = snap := by simpa using hsaved
    exact holds_savedMem hstack
  · rw [Function.update_of_ne hu] at hsaved
    refine (hs.holds u snap hsaved).other hu fun x hx => ?_
    have hcontext := L.context_toNat s.running
    refine savedMem_other hstack ?_ (hstack.own_below hx)
    unfold Layout.Own Occupies Within at hx
    unfold Within
    omega

/-- `switch_to` resumes the thread it is given and leaves the other suspended
threads alone. -/
theorem Inv.switch (hs : Inv L kthreadRet s)
    (hstack : OnStack L s.running (s.machine.reg .esp))
    (hfrom : read32 s.machine.mem (s.machine.reg .esp + 4) =
      L.context s.running)
    (hto : read32 s.machine.mem (s.machine.reg .esp + 8) = L.context t)
    (hsaved : s.entered t = some snap) :
    Resumes L t snap (s.machine.exec switchTo) ∧
      ∀ u snap', u ≠ t → s.entered u = some snap' →
        Holds L (s.machine.exec switchTo).mem u snap' := by
  obtain ⟨hmem, hesp⟩ := exec_saveContext hfrom
  have hheld := hs.afterSave hstack
  rw [← hmem] at hheld
  -- the argument is still on the stack of the caller
  have harg : read32 (s.machine.exec saveContext).mem
      ((s.machine.exec saveContext).reg .esp + 8) = L.context t := by
    have hroom := L.room s.running
    have hseparate := L.separate s.running
    have hcontext := L.context_toNat s.running
    have hstack' := hstack
    unfold OnStack at hstack'
    have h8 : (s.machine.reg .esp + 8).toNat =
        (s.machine.reg .esp).toNat + 8 := by bv_omega
    rw [hesp, hmem, ← hto]
    apply read32_congr (by omega)
    intro x hx
    apply savedMem_other hstack <;> unfold Within at hx ⊢ <;> omega
  obtain ⟨hresumes, hother⟩ := (hheld t snap hsaved).resumes harg
  have hexec : s.machine.exec switchTo =
      (s.machine.exec saveContext).exec loadContext :=
    Machine.exec_append _ _ _
  rw [hexec]
  refine ⟨hresumes, fun u snap' hu hsaved' => ?_⟩
  exact (hheld u snap' hsaved').other hu fun x hx =>
    hother x ((hheld t snap hsaved).room.own_below hx)

theorem Inv.afterStep {a : Act τ} (hs : Inv L kthreadRet s)
    (hstep : Step L kthreadRet s a s') : Inv L kthreadRet s' := by
  cases hstep with
  | compute hkept =>
      exact ⟨hs.running, fun t snap hsaved =>
        (hs.holds t snap hsaved).congr (hkept t snap hsaved), hs.image⟩
  | create hrunning _ honePage hname hkept hm =>
      exact hs.afterCreate hrunning honePage hname hkept hm
  | switch hstack hfrom hto hsaved =>
      rename_i next snap
      obtain ⟨_, hheld⟩ := hs.switch hstack hfrom hto hsaved
      refine ⟨Function.update_self _ _ _, fun u snap' hu => ?_,
        fun u fn args hentry => ?_⟩
      · by_cases hun : u = next
        · simp [hun] at hu
        · simp only [Function.update_of_ne hun] at hu
          exact hheld u snap' hun hu
      · by_cases hun : u = next
        · simp [hun] at hentry
        · simp only [Function.update_of_ne hun] at hentry
          obtain ⟨snap', hsnap, himage⟩ := hs.image u fn args hentry
          have hur : u ≠ s.running := by
            rintro rfl
            rw [hs.running] at hsnap
            cases hsnap
          refine ⟨snap', ?_, himage⟩
          simp only [Function.update_of_ne hun, State.entered,
            Function.update_of_ne hur]
          exact hsnap

omit [DecidableEq τ] in
/-- The word at `k` bytes above the stack pointer of a resumed thread is the
one that was there. -/
theorem Resumes.read_above {machine : Machine} {k : ℕ}
    (hresumes : Resumes L t snap machine)
    (hstack : OnStack L t (snap.reg .esp)) (hk : k ≤ 8) :
    read32 machine.mem (snap.reg .esp + BitVec.ofNat 32 k) =
      read32 snap.mem (snap.reg .esp + BitVec.ofNat 32 k) := by
  have hroom := L.room t
  unfold OnStack at hstack
  have hadd : (snap.reg .esp + BitVec.ofNat 32 k).toNat =
      (snap.reg .esp).toNat + k := by
    rw [BitVec.toNat_add, BitVec.toNat_ofNat]
    omega
  apply read32_congr (by omega)
  intro x hx
  apply hresumes.stack
  unfold Within at hx ⊢
  omega

/-- A suspended thread resumes where it called `switch_to`, and a new one
starts at its function with its argument and `kthread_ret` on the stack. -/
theorem context_switch {machine : Machine} {running next : τ}
    {acts : List (Act τ)} {s s' : State τ}
    (hrun : Run (Step L kthreadRet) (start machine running) acts s)
    (hstep : Step L kthreadRet s (.switch next) s') :
    (∀ snap, s.entered next = some snap →
      Resumes L next snap s'.machine) ∧
    ∀ fn args, s.entry next = some (fn, args) →
      s'.machine.eip = fn ∧
        read32 s'.machine.mem (s'.machine.reg .esp) = kthreadRet ∧
        read32 s'.machine.mem (s'.machine.reg .esp + 4) = args := by
  have hs : Inv L kthreadRet s := hrun.invariant (Inv L kthreadRet)
    (fun _ _ _ hs hstep => hs.afterStep hstep) (start_inv machine running)
  cases hstep with
  | switch hstack hfrom hto hsaved =>
      rename_i snap
      obtain ⟨hresumes, _⟩ := hs.switch hstack hfrom hto hsaved
      have hheld := hs.afterSave hstack next snap hsaved
      refine ⟨fun snap' hsnap' => ?_, fun fn args hentry => ?_⟩
      · obtain rfl : snap = snap' := Option.some.inj (hsaved.symm.trans hsnap')
        exact hresumes
      · obtain ⟨snap', hsnap, hfn, hret, harg⟩ := hs.image next fn args hentry
        have hne : next ≠ s.running := by
          rintro rfl
          rw [hs.running] at hsnap
          cases hsnap
        obtain rfl : snap = snap' := by
          rw [State.entered, Function.update_of_ne hne, hsnap] at hsaved
          exact (Option.some.inj hsaved).symm
        have h4 := hresumes.read_above (k := 4) hheld.room (by omega)
        have h8 := hresumes.read_above (k := 8) hheld.room (by omega)
        have hadd : snap.reg .esp + 4 + 4 = snap.reg .esp + 8 := by bv_omega
        refine ⟨hresumes.eip.trans hfn, ?_, ?_⟩
        · rw [hresumes.esp]
          exact h4.trans hret
        · rw [hresumes.esp, hadd]
          exact h8.trans harg

theorem not_occupies {pcb pcb' x : Word} {low high low' high' : ℕ}
    (hpcbs : pcb.toNat + 168 ≤ pcb'.toNat ∨ pcb'.toNat + 168 ≤ pcb.toNat)
    (hpcb : pcb.toNat + 168 ≤ low' ∨ high' ≤ pcb.toNat)
    (hpcb' : high ≤ pcb'.toNat ∨ pcb'.toNat + 168 ≤ low)
    (hstacks : high ≤ low' ∨ high' ≤ low)
    (hx : Occupies pcb low high x) : ¬ Occupies pcb' low' high' x := by
  unfold Occupies Within at hx ⊢
  omega

/-- The first thread has its PCB in one page and its stack in another one, the
second thread both in a third page. -/
def bootLayout : Layout Bool where
  pcb t := if t then 0x2000 else 0x1000
  low t := if t then 0x20A8 else 0x3000
  high t := if t then 0x3000 else 0x4000
  room := by decide
  separate := by decide
  apart := by
    intro t u hne x
    cases t <;> cases u
    · exact absurd rfl hne
    · exact not_occupies (by decide) (by decide) (by decide) (by decide)
    · exact not_occupies (by decide) (by decide) (by decide) (by decide)
    · exact absurd rfl hne

/-- The first thread is about to call `switch_to` for the second. -/
def aboutToSwitch : Machine where
  reg r := if r = .esp then 0x3F00 else 0
  eip := 0x100000
  eflags := .popf 0x200
  mem := write32 (write32 (fun _ => 0) 0x3F04 0x1018) 0x3F08 0x2018

def withSecond : Mem :=
  kthreadCreate aboutToSwitch.mem 0x101000 0x1000 1 0x2000 0x102000 0x42 [0x41] 5

/-- After `kthread_create` of the second one. -/
def secondCreated : State Bool where
  machine := { aboutToSwitch with mem := withSecond }
  running := false
  saved := Function.update (fun _ => none) true
    (some (newThread withSecond 0x2000))
  entry := Function.update (fun _ => none) true (some (0x102000, 0x42))

theorem context_switch_new_thread : ∃ s',
    Run (Step bootLayout 0x101000) (start aboutToSwitch false)
        [.create true 0x102000 0x42 [0x41] 5] secondCreated ∧
      Step bootLayout 0x101000 secondCreated (.switch true) s' ∧
      s'.machine.eip = 0x102000 ∧
      read32 s'.machine.mem (s'.machine.reg .esp) = 0x101000 ∧
      read32 s'.machine.mem (s'.machine.reg .esp + 4) = 0x42 := by
  have hcreate : Step bootLayout 0x101000 (start aboutToSwitch false)
      (.create true 0x102000 0x42 [0x41] 5) secondCreated :=
    @Step.create _ _ _ _ _ true 0x102000 0x42 1 [0x41] 5 _ (by decide) rfl
      ⟨rfl, rfl⟩ (by decide) (fun _ _ h => by cases h) rfl
  have hrun := Run.nil.snoc hcreate
  have hswitch : Step bootLayout 0x101000 secondCreated (.switch true) _ :=
    .switch ⟨by decide, by decide⟩ (by decide +kernel) (by decide +kernel) rfl
  exact ⟨_, hrun, hswitch, (context_switch hrun hswitch).2 _ _ rfl⟩

end SwitchTo
end OS32
