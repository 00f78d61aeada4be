import OS32.Interrupt
import OS32.SwitchTo

/-!
# Preemption

The handler of an interrupt may call `switch_to`.  The interrupted thread then
waits with its `pt_regs` on its stack while others run, are interrupted and
switch in their turn, until it is resumed inside the handler, which returns.
-/

namespace Ia32

/-! ## What pushing leaves alone -/

/-- `n` words have been pushed since the stack pointer was `e` and the memory
`m`. -/
structure Grown (m : Mem) (e : Word) (s : Machine) (n : ℕ) : Prop where
  top : s.reg .esp + BitVec.ofNat 32 (4 * n) = e
  mem : ∀ x, 4 * n ≤ (x - s.reg .esp).toNat → s.mem x = m x

namespace Grown

variable {m : Mem} {e : Word} {s : Machine} {n : ℕ}

theorem nil (s : Machine) : Grown s.mem (s.reg .esp) s 0 :=
  ⟨BitVec.add_zero _, fun _ _ => rfl⟩

theorem push (hs : Grown m e s n) (hsmall : n < 2 ^ 30 - 1) (v : Word) :
    Grown m e (s.push v) (n + 1) := by
  have hesp : (s.push v).reg .esp = s.reg .esp - 4 := rfl
  have hback : s.reg .esp - 4 + BitVec.ofNat 32 4 = s.reg .esp :=
    BitVec.sub_add_cancel _ _
  constructor
  · rw [hesp, Nat.mul_succ, Nat.add_comm, ← add_ofNat_add, hback]
    exact hs.top
  · intro x hx
    rw [hesp] at hx
    have hsub : (x - (s.reg .esp - 4)).toNat =
        ((x - s.reg .esp).toNat + 4) % 2 ^ 32 := by
      rw [← BitVec.toNat_ofNat]
      congr 1
      bv_omega
    rw [hsub] at hx
    have hout : ¬ (x - (s.reg .esp - 4)).toNat < 4 := by
      rw [hsub]
      omega
    have hmem : (s.push v).mem x = s.mem x := by
      change write32 s.mem (s.reg .esp - 4) v x = _
      rw [write32, if_neg hout]
    rw [hmem]
    apply hs.mem
    omega

theorem reg {s' : Machine} (hs : Grown m e s n)
    (hesp : s'.reg .esp = s.reg .esp) (hmem : s'.mem = s.mem) :
    Grown m e s' n := by
  constructor
  · rw [hesp]
    exact hs.top
  · rw [hesp, hmem]
    exact hs.mem

theorem pushal (hs : Grown m e s n) (hsmall : n < 2 ^ 30 - 8) :
    Grown m e s.pushal (n + 8) := by
  have h1 := hs.push (by omega) (s.reg .eax)
  have h2 := h1.push (by omega) (s.reg .ecx)
  have h3 := h2.push (by omega) (s.reg .edx)
  have h4 := h3.push (by omega) (s.reg .ebx)
  have h5 := h4.push (by omega) (s.reg .esp)
  have h6 := h5.push (by omega) (s.reg .ebp)
  have h7 := h6.push (by omega) (s.reg .esi)
  exact h7.push (by omega) (s.reg .edi)

end Grown
end Ia32

namespace OS32

open Ia32 Transition

namespace Preemption

open Interrupt (idtTable idtTable_eq enterHandler enterHandler_pushed
  gateSelector isTrapGate pushesCode commonExit commonExit_resumed Resumed)
open SwitchTo (Layout OnStack Kept Holds)

/-! ## The stub up to the handler -/

/-- The CPU and the stub push sixteen words. -/
theorem enterHandler_grown (c : Cpu) {vector : ℕ} {code : List SysInstr}
    (hcode : idtTable vector = some code) (entry next err : Word) :
    Grown c.mem (c.reg .esp) (enterHandler c vector code entry next err).toMachine
      16 := by
  have h1 := (Grown.nil c.toMachine).push (by omega) c.eflags.value
  have h2 := h1.push (by omega) (c.cs.setWidth 32)
  have h3 := h2.push (by omega) c.eip
  have hstub : Grown c.mem (c.reg .esp)
      ((c.deliver gateSelector entry (isTrapGate vector)
        (if pushesCode vector then some err else none)).exec code).toMachine
      5 := by
    rw [idtTable_eq hcode]
    by_cases hpush : pushesCode vector = true
    · rw [if_pos hpush, if_pos hpush]
      have h4 := h3.push (by omega) err
      have h5 := h4.push (by omega) (BitVec.ofNat 32 vector)
      exact h5.reg rfl rfl
    · rw [if_neg hpush, if_neg hpush]
      have h4 := h3.push (by omega) 0
      have h5 := h4.push (by omega) (BitVec.ofNat 32 vector)
      exact h5.reg rfl rfl
  unfold enterHandler
  dsimp only
  generalize (c.deliver gateSelector entry (isTrapGate vector)
    (if pushesCode vector then some err else none)).exec code = t at *
  have h6 : Grown c.mem (c.reg .esp) (t.step .pushal).toMachine 13 :=
    hstub.pushal (by omega)
  have h7 := h6.push (by omega) ((t.step .pushal).ds.setWidth 32)
  have h8 : Grown c.mem (c.reg .esp)
      (t.exec [.pushal, .pushDs, .movAx 0x10, .movDs, .movEs]).toMachine 14 :=
    h7.reg rfl rfl
  have h9 := h8.push (by omega) ((t.exec [.pushal, .pushDs, .movAx 0x10,
    .movDs, .movEs]).reg .esp)
  exact h9.push (by omega) next

/-! ## Threads that are interrupted -/

/-- An interrupt whose handler has not returned: the state of the CPU when it
came, and where the stub has put the return address `next` of the handler. -/
structure Pending where
  cpu : Cpu
  vector : ℕ
  err : Word
  next : Word
  base : Word

/-- The bytes from the return address to the end of the `pt_regs`. -/
def Pending.Frame (p : Pending) (x : Word) : Prop :=
  Within p.base.toNat (p.base.toNat + 64) x

variable {τ : Type*} [DecidableEq τ]

/-- `pending t` are the interrupts of the thread `t`, the latest one first. -/
structure State (τ : Type*) where
  threads : SwitchTo.State τ
  cs : BitVec 16
  ds : BitVec 16
  es : BitVec 16
  pending : τ → List Pending

namespace State

def cpu (s : State τ) : Cpu :=
  { s.threads.machine with cs := s.cs, ds := s.ds, es := s.es }

/-- The running thread goes on in the state `c` with other pending
interrupts. -/
def goOn (s : State τ) (c : Cpu) (pending : List Pending) : State τ where
  threads := { s.threads with machine := c.toMachine }
  cs := c.cs
  ds := c.ds
  es := c.es
  pending := Function.update s.pending s.threads.running pending

end State

/-- One thread runs, with interrupts to come. -/
def start (c : Cpu) (running : τ) : State τ :=
  ⟨SwitchTo.start c.toMachine running, c.cs, c.ds, c.es, fun _ => []⟩

inductive Act (τ : Type*) where
  | compute
  | create (t : τ) (fn args : Word) (name : List (BitVec 8)) (prio : BitVec 8)
  | switch (next : τ)
  | interrupt (vector : ℕ) (err : Word)
  /-- `interrupt_handler` returns to the stub, which ends in `iret`. -/
  | ret

/-- Compiled code leaves the segment registers alone, the `pt_regs` of the
interrupts of its thread, and, as the stack grows down, the stack above them. -/
inductive Step (L : Layout τ) (kthreadRet : Word) (s : State τ) :
    Act τ → State τ → Prop
  | compute {threads : SwitchTo.State τ}
      (hstep : SwitchTo.Step L kthreadRet s.threads .compute threads)
      (hframes : ∀ p ∈ s.pending s.threads.running, ∀ x, p.Frame x →
        threads.machine.mem x = s.threads.machine.mem x) :
      Step L kthreadRet s .compute { s with threads := threads }
  | create {t : τ} {fn args : Word} {name : List (BitVec 8)} {prio : BitVec 8}
      {threads : SwitchTo.State τ}
      (hstep : SwitchTo.Step L kthreadRet s.threads (.create t fn args name prio)
        threads)
      (hframes : ∀ p ∈ s.pending s.threads.running, ∀ x, p.Frame x →
        ¬ Within ((L.pcb t).toNat + 56) ((L.pcb t).toNat + 56 + name.length) x) :
      Step L kthreadRet s (.create t fn args name prio)
        { s with threads := threads }
  | switch {next : τ} {threads : SwitchTo.State τ}
      (hstep : SwitchTo.Step L kthreadRet s.threads (.switch next) threads)
      (hframes : ∀ p ∈ s.pending s.threads.running,
        (s.threads.machine.reg .esp).toNat ≤ p.base.toNat) :
      Step L kthreadRet s (.switch next) { s with threads := threads }
  | interrupt {vector : ℕ} {code : List SysInstr} {entry next err : Word}
      {c : Cpu} (hcode : idtTable vector = some code)
      (hroom : L.low s.threads.running + 68 ≤
        (s.threads.machine.reg .esp).toNat)
      (hstack : (s.threads.machine.reg .esp).toNat ≤
        L.high s.threads.running)
      (hframes : ∀ p ∈ s.pending s.threads.running,
        (s.threads.machine.reg .esp).toNat ≤ p.base.toNat)
      (hc : c = enterHandler s.cpu vector code entry next err) :
      Step L kthreadRet s (.interrupt vector err)
        (s.goOn c (⟨s.cpu, vector, err, next, c.reg .esp⟩ ::
          s.pending s.threads.running))
  | ret {p : Pending} {rest : List Pending}
      (hpending : s.pending s.threads.running = p :: rest)
      (hesp : s.threads.machine.reg .esp = p.base) :
      Step L kthreadRet s .ret
        (s.goOn ((s.cpu.step (.instr .ret)).exec commonExit) rest)

/-! ## What stays on the stacks -/

/-- The return address and the `pt_regs` of a pending interrupt of the thread
are in memory. -/
structure Intact (L : Layout τ) (t : τ) (m : Mem) (p : Pending) : Prop where
  es : p.cpu.es = 0x10
  words : ∃ esp, Stacked m p.base (p.next :: (p.base + 8) ::
    Interrupt.frame p.cpu p.vector p.err esp)
  top : p.base + 64 = p.cpu.reg .esp
  low : L.low t + 4 ≤ p.base.toNat
  high : p.base.toNat + 64 ≤ L.high t

variable {L : Layout τ} {kthreadRet : Word} {t : τ} {m m' : Mem} {p : Pending}

omit [DecidableEq τ] in
theorem Intact.congr (hp : Intact L t m p)
    (hsame : ∀ x, p.Frame x → m' x = m x) : Intact L t m' p := by
  obtain ⟨esp, hwords⟩ := hp.words
  refine ⟨hp.es, ⟨esp, hwords.congr fun k hk => hsame _ ?_⟩, hp.top, hp.low,
    hp.high⟩
  have hroom := L.room t
  have hhigh := hp.high
  have hlength : (p.next :: (p.base + 8) ::
    Interrupt.frame p.cpu p.vector p.err esp).length = 16 := rfl
  rw [hlength] at hk
  have hadd : (p.base + BitVec.ofNat 32 k).toNat = p.base.toNat + k := by
    rw [BitVec.toNat_add, BitVec.toNat_ofNat]
    omega
  unfold Pending.Frame Within
  omega

omit [DecidableEq τ] in
/-- The frame of an interrupt lies in the stack of its thread. -/
theorem Intact.own_of_frame (hp : Intact L t m p) {x : Word} (hx : p.Frame x) :
    L.Own t x := by
  have hlow := hp.low
  have hhigh := hp.high
  unfold Pending.Frame Within at hx
  unfold Layout.Own SwitchTo.Occupies Within
  omega

/-- The frames of suspended threads are in the part of the stack that nobody
writes. -/
structure Inv (L : Layout τ) (kthreadRet : Word) (s : State τ) : Prop where
  threads : SwitchTo.Inv L kthreadRet s.threads
  es : s.es = 0x10
  running : ∀ p ∈ s.pending s.threads.running,
    Intact L s.threads.running s.threads.machine.mem p
  suspended : ∀ t snap, s.threads.saved t = some snap → ∀ p ∈ s.pending t,
    Intact L t snap.mem p ∧ (snap.reg .esp).toNat ≤ p.base.toNat
  absent : ∀ t, t ≠ s.threads.running → s.threads.saved t = none →
    s.pending t = []

variable {s s' : State τ}

omit [DecidableEq τ] in
theorem start_inv {c : Cpu} (hes : c.es = 0x10) (running : τ) :
    Inv L kthreadRet (start c running) where
  threads := SwitchTo.start_inv c.toMachine running
  es := hes
  running := by simp [start]
  suspended := by simp [start, SwitchTo.start]
  absent _ _ _ := rfl

/-! ## What one act keeps -/

omit [DecidableEq τ] in
theorem Inv.ne_running (hs : Inv L kthreadRet s) {u : τ} {snap : Machine}
    (hsaved : s.threads.saved u = some snap) : u ≠ s.threads.running := by
  rintro rfl
  rw [hs.threads.running] at hsaved
  cases hsaved

/-- Nothing changes for the suspended threads. -/
theorem Inv.goOn (hs : Inv L kthreadRet s) {c : Cpu} {pending : List Pending}
    (hthreads : SwitchTo.Inv L kthreadRet
      { s.threads with machine := c.toMachine })
    (hes : c.es = 0x10)
    (hrunning : ∀ p ∈ pending, Intact L s.threads.running c.mem p) :
    Inv L kthreadRet (s.goOn c pending) := by
  refine ⟨hthreads, hes, fun p hp => ?_, fun u snap hsaved p hp => ?_,
    fun u hu hsaved => ?_⟩
  · simp only [State.goOn, Function.update_self] at hp
    exact hrunning p hp
  · have hne : u ≠ s.threads.running := hs.ne_running hsaved
    simp only [State.goOn, Function.update_of_ne hne] at hp
    exact hs.suspended u snap hsaved p hp
  · have hne : u ≠ s.threads.running := hu
    simp only [State.goOn, Function.update_of_ne hne]
    exact hs.absent u hne hsaved

theorem Inv.afterCompute (hs : Inv L kthreadRet s) {threads : SwitchTo.State τ}
    (hstep : SwitchTo.Step L kthreadRet s.threads .compute threads)
    (hframes : ∀ p ∈ s.pending s.threads.running, ∀ x, p.Frame x →
      threads.machine.mem x = s.threads.machine.mem x) :
    Inv L kthreadRet { s with threads := threads } := by
  have hthreads := hs.threads.afterStep hstep
  cases hstep with
  | compute hkept =>
      exact ⟨hthreads, hs.es, fun p hp => (hs.running p hp).congr (hframes p hp),
        hs.suspended, hs.absent⟩

theorem Inv.afterCreate (hs : Inv L kthreadRet s) {fn args : Word}
    {name : List (BitVec 8)} {prio : BitVec 8} {threads : SwitchTo.State τ}
    (hstep : SwitchTo.Step L kthreadRet s.threads (.create t fn args name prio)
      threads)
    (hframes : ∀ p ∈ s.pending s.threads.running, ∀ x, p.Frame x →
      ¬ Within ((L.pcb t).toNat + 56) ((L.pcb t).toNat + 56 + name.length) x) :
    Inv L kthreadRet { s with threads := threads } := by
  have hthreads := hs.threads.afterStep hstep
  cases hstep with
  | create hrunning hfresh honePage hname hkept hm =>
      refine ⟨hthreads, hs.es, fun p hp => ?_, fun u snap hsaved p hp => ?_,
        fun u hu hsaved => ?_⟩
      · have hintact := hs.running p hp
        refine hintact.congr fun x hx => ?_
        have hapart := L.apart s.threads.running t hrunning.symm x
          (hintact.own_of_frame hx)
        have hout := hframes p hp x hx
        subst hm
        exact SwitchTo.kthreadCreate_other honePage.page_le hname
          (mt honePage.own_iff.mpr hapart) hout
      · by_cases hut : u = t
        · subst hut
          have hnone := hs.absent u hrunning hfresh
          dsimp only at hp
          rw [hnone] at hp
          cases hp
        · simp only [Function.update_of_ne hut] at hsaved
          exact hs.suspended u snap hsaved p hp
      · by_cases hut : u = t
        · simp [hut] at hsaved
        · simp only [Function.update_of_ne hut] at hsaved
          exact hs.absent u hu hsaved

/-- Once the running thread has entered `switch_to` its interrupts lie in the
part of its stack that is kept. -/
theorem Inv.entered (hs : Inv L kthreadRet s)
    (hframes : ∀ p ∈ s.pending s.threads.running,
      (s.threads.machine.reg .esp).toNat ≤ p.base.toNat)
    {u : τ} {snap : Machine} (hsaved : s.threads.entered u = some snap) :
    ∀ p ∈ s.pending u,
      Intact L u snap.mem p ∧ (snap.reg .esp).toNat ≤ p.base.toNat := by
  unfold SwitchTo.State.entered at hsaved
  by_cases hu : u = s.threads.running
  · subst hu
    obtain rfl : s.threads.machine = snap := by simpa using hsaved
    exact fun p hp => ⟨hs.running p hp, hframes p hp⟩
  · rw [Function.update_of_ne hu] at hsaved
    exact hs.suspended u snap hsaved

theorem Inv.afterSwitch (hs : Inv L kthreadRet s) {next : τ}
    {threads : SwitchTo.State τ}
    (hstep : SwitchTo.Step L kthreadRet s.threads (.switch next) threads)
    (hframes : ∀ p ∈ s.pending s.threads.running,
      (s.threads.machine.reg .esp).toNat ≤ p.base.toNat) :
    Inv L kthreadRet { s with threads := threads } := by
  have hthreads := hs.threads.afterStep hstep
  cases hstep with
  | switch hstack hfrom hto hsaved =>
      have hresumes := (hs.threads.switch hstack hfrom hto hsaved).1
      refine ⟨hthreads, hs.es, fun p hp => ?_, fun u snap' hu => ?_,
        fun u hu hnone => ?_⟩
      · obtain ⟨hintact, habove⟩ := hs.entered hframes hsaved p hp
        refine hintact.congr fun x hx => hresumes.stack x ?_
        have hhigh := hintact.high
        unfold Pending.Frame Within at hx
        unfold Within
        omega
      · by_cases hun : u = next
        · simp [hun] at hu
        · simp only [Function.update_of_ne hun] at hu
          exact hs.entered hframes hu
      · simp only [Function.update_of_ne hu] at hnone
        unfold SwitchTo.State.entered at hnone
        have hne : u ≠ s.threads.running := by
          rintro rfl
          simp at hnone
        rw [Function.update_of_ne hne] at hnone
        exact hs.absent u hne hnone

/-- Where the words of an interrupt lie. -/
theorem enterHandler_base {c u : Cpu} {vector : ℕ} {code : List SysInstr}
    (hcode : idtTable vector = some code) {entry next err : Word}
    (hu : u = enterHandler c vector code entry next err)
    (hroom : 64 ≤ (c.reg .esp).toNat) :
    (u.reg .esp).toNat + 64 = (c.reg .esp).toNat ∧
      ∀ x, ¬ Within (u.reg .esp).toNat ((u.reg .esp).toNat + 64) x →
        u.mem x = c.mem x := by
  subst hu
  obtain ⟨htop, hmem⟩ := enterHandler_grown c hcode entry next err
  generalize enterHandler c vector code entry next err = u at *
  have hbase : (u.reg .esp).toNat + 64 = (c.reg .esp).toNat := by
    rw [← htop, BitVec.toNat_add, BitVec.toNat_ofNat] at hroom ⊢
    have hlt := (u.reg .esp).isLt
    omega
  refine ⟨hbase, fun x hx => hmem x ?_⟩
  have hesp := (c.reg .esp).isLt
  have hxlt := x.isLt
  unfold Within at hx
  rw [BitVec.toNat_sub]
  omega

theorem Inv.afterInterrupt (hs : Inv L kthreadRet s) {vector : ℕ}
    {code : List SysInstr} {entry next err : Word} {c : Cpu}
    (hcode : idtTable vector = some code)
    (hroom : L.low s.threads.running + 68 ≤ (s.threads.machine.reg .esp).toNat)
    (hstack : (s.threads.machine.reg .esp).toNat ≤ L.high s.threads.running)
    (hframes : ∀ p ∈ s.pending s.threads.running,
      (s.threads.machine.reg .esp).toNat ≤ p.base.toNat)
    (hc : c = enterHandler s.cpu vector code entry next err) :
    Inv L kthreadRet (s.goOn c (⟨s.cpu, vector, err, next, c.reg .esp⟩ ::
      s.pending s.threads.running)) := by
  have hesp : s.cpu.reg .esp = s.threads.machine.reg .esp := rfl
  obtain ⟨hbase, hmem⟩ := enterHandler_base hcode hc (by rw [hesp]; omega)
  rw [hesp] at hbase
  obtain ⟨regs, esp, hpushed, hregs, hes⟩ :=
    enterHandler_pushed s.cpu hcode entry next err
  rw [← hc] at hpushed hregs hes
  refine hs.goOn ?_ hes fun p hp => ?_
  · refine hs.threads.afterStep (.compute fun u snap hsaved x hx => hmem x ?_)
    have hapart := L.apart u s.threads.running (hs.ne_running hsaved) x
      ((hs.threads.holds u snap hsaved).own_of_kept hx)
    unfold SwitchTo.Occupies Within at hapart
    unfold Within
    omega
  · rcases List.mem_cons.mp hp with rfl | hp
    · refine ⟨hs.es, ⟨esp, ?_⟩, hpushed.top, ?_, ?_⟩
      · rw [← hregs]
        exact hpushed.words
      · change L.low s.threads.running + 4 ≤ (c.reg .esp).toNat
        omega
      · change (c.reg .esp).toNat + 64 ≤ L.high s.threads.running
        omega
    · refine (hs.running p hp).congr fun x hx => hmem x ?_
      have habove := hframes p hp
      unfold Pending.Frame Within at hx
      unfold Within
      omega

theorem Inv.afterRet (hs : Inv L kthreadRet s) {rest : List Pending}
    (hpending : s.pending s.threads.running = p :: rest) :
    Inv L kthreadRet (s.goOn ((s.cpu.step (.instr .ret)).exec commonExit)
      rest) := by
  have hmem : ((s.cpu.step (.instr .ret)).exec commonExit).mem =
      s.threads.machine.mem := rfl
  refine hs.goOn ?_ hs.es fun q hq => ?_
  · exact hs.threads.afterStep (.compute fun _ _ _ x _ => congrFun hmem x)
  · refine (hs.running q ?_).congr fun x _ => congrFun hmem x
    rw [hpending]
    exact List.mem_cons_of_mem p hq

theorem Inv.afterStep {a : Act τ} (hs : Inv L kthreadRet s)
    (hstep : Step L kthreadRet s a s') : Inv L kthreadRet s' := by
  cases hstep with
  | compute hstep hframes => exact hs.afterCompute hstep hframes
  | create hstep hframes => exact hs.afterCreate hstep hframes
  | switch hstep hframes => exact hs.afterSwitch hstep hframes
  | interrupt hcode hroom hstack hframes hc =>
      exact hs.afterInterrupt hcode hroom hstack hframes hc
  | ret hpending _ => exact hs.afterRet hpending

/-! ## The return -/

omit [DecidableEq τ] in
/-- `interrupt_handler` returns to the stub, and the stub to the interrupted
code. -/
theorem Intact.resumed {c : Cpu} (hp : Intact L t c.mem p) (hes : c.es = 0x10)
    (hesp : c.reg .esp = p.base) :
    (c.step (.instr .ret)).eip = p.next ∧
      Resumed p.cpu ((c.step (.instr .ret)).exec commonExit) := by
  obtain ⟨esp, hwords⟩ := hp.words
  rw [← hesp] at hwords
  have hpushed : Pushed c.toMachine (p.cpu.reg .esp) _ :=
    ⟨by rw [hesp]; exact hp.top, hwords⟩
  have hregs := hpushed.pop_snd
  have hframe := hregs.pop_snd
  refine ⟨hpushed.pop_fst, commonExit_resumed ?_ ⟨hframe.top, hframe.words⟩⟩
  change c.es = p.cpu.es
  rw [hes, hp.es]

/-- An interrupt is not noticed, although its handler may switch to other threads
that are interrupted in their turn: when it returns, to the stub that called it,
the thread goes on in the state in which the interrupt came. -/
theorem preemption_transparent {c : Cpu} {running : τ} (hes : c.es = 0x10)
    {before between : List (Act τ)} {s₁ s₂ s₃ s₄ : State τ} {vector : ℕ}
    {err : Word} (hbefore : Run (Step L kthreadRet) (start c running) before s₁)
    (hint : Step L kthreadRet s₁ (.interrupt vector err) s₂)
    (hbetween : Run (Step L kthreadRet) s₂ between s₃)
    (hret : Step L kthreadRet s₃ .ret s₄)
    (hthread : s₃.threads.running = s₁.threads.running)
    (hpending : s₃.pending s₁.threads.running =
      s₂.pending s₁.threads.running) :
    (s₃.cpu.step (.instr .ret)).eip = read32 s₂.cpu.mem (s₂.cpu.reg .esp) ∧
      Resumed s₁.cpu s₄.cpu ∧ s₄.threads.running = s₁.threads.running ∧
      s₄.pending s₁.threads.running = s₁.pending s₁.threads.running := by
  have hstep : ∀ s a s', Inv L kthreadRet s → Step L kthreadRet s a s' →
      Inv L kthreadRet s' := fun _ _ _ hs => hs.afterStep
  have hs₁ := hbefore.invariant (Inv L kthreadRet) hstep (start_inv hes running)
  have hs₂ := hs₁.afterStep hint
  have hs₃ := hbetween.invariant (Inv L kthreadRet) hstep hs₂
  cases hint with
  | interrupt hcode hroom hstack hframes hc =>
      rename_i code entry next u
      have hnew : (s₁.goOn u (⟨s₁.cpu, vector, err, next, u.reg .esp⟩ ::
          s₁.pending s₁.threads.running)).pending s₁.threads.running =
          ⟨s₁.cpu, vector, err, next, u.reg .esp⟩ ::
            s₁.pending s₁.threads.running := Function.update_self _ _ _
      rw [hnew, ← hthread] at hpending
      cases hret with
      | ret hpending' hesp =>
          obtain ⟨rfl, rfl⟩ := List.cons.inj (hpending'.symm.trans hpending)
          have hintact := hs₃.running _ (hpending ▸ List.mem_cons_self)
          obtain ⟨heip, hresumed⟩ := hintact.resumed (c := s₃.cpu) hs₃.es hesp
          obtain ⟨esp, hwords⟩ := (hs₂.running _
            (hnew ▸ List.mem_cons_self)).words
          refine ⟨heip.trans hwords.1.symm, hresumed, hthread, ?_⟩
          rw [← hthread]
          exact Function.update_self _ _ _

/-! ## A timer interrupt that switches -/

/-- Some kernel code of the first of two threads. -/
def idle : Cpu :=
  { Interrupt.kernelCode with
    reg := fun r => if r = .esp then 0x3F00 else 7
    eip := 0x100000 }

/-- The stack at a call of `switch_to`. -/
def callSwitch (s : Machine) (esp fromCtx toCtx : Word) : Machine :=
  { s with
    reg := Function.update s.reg .esp esp
    mem := write32 (write32 s.mem (esp + 4) fromCtx) (esp + 8) toCtx }

theorem callSwitch_mem {s : Machine} {esp fromCtx toCtx x : Word}
    (hesp : esp.toNat + 12 ≤ 2 ^ 32)
    (hx : ¬ Within (esp.toNat + 4) (esp.toNat + 12) x) :
    (callSwitch s esp fromCtx toCtx).mem x = s.mem x := by
  have h4 : (esp + 4).toNat = esp.toNat + 4 := by bv_omega
  have h8 : (esp + 8).toNat = esp.toNat + 8 := by bv_omega
  unfold Within at hx
  change write32 (write32 s.mem (esp + 4) fromCtx) (esp + 8) toCtx x = s.mem x
  rw [write32_other (by omega) (by omega),
    write32_other (by omega) (by omega)]

/-- The running thread is about to call `switch_to`. -/
def State.calls (s : State τ) (esp fromCtx toCtx : Word) : State τ :=
  { s with
    threads :=
      { s.threads with
        machine := callSwitch s.threads.machine esp fromCtx toCtx } }

/-- The second thread has been created. -/
def created : State Bool :=
  let m := SwitchTo.kthreadCreate idle.mem 0x101000 0x1000 1 0x2000 0x102000 0x42
    [0x41] 5
  { start idle false with
    threads :=
      { machine := { idle.toMachine with mem := m }
        running := false
        saved := Function.update (fun _ => none) true
          (some (SwitchTo.newThread m 0x2000))
        entry := Function.update (fun _ => none) true
          (some (0x102000, 0x42)) } }

def inHandler : State Bool :=
  let c := enterHandler created.cpu 32 Interrupt.interrupt32 0xC0101000
    0xC0102000 0
  created.goOn c [⟨created.cpu, 32, 0, 0xC0102000, c.reg .esp⟩]

def switchesTo (s : State Bool) (next : Bool) : State Bool :=
  { s with
    threads :=
      { machine := s.threads.machine.exec SwitchTo.switchTo
        running := next
        saved := Function.update s.threads.entered next none
        entry := Function.update s.threads.entry next none } }

/-- The handler of the first thread has switched to the second one. -/
def secondRuns : State Bool :=
  switchesTo (inHandler.calls 0x3E80 0x1018 0x2018) true

/-- The second thread has switched back. -/
def firstRuns : State Bool :=
  switchesTo (secondRuns.calls 0x2F00 0x2018 0x1018) false

/-- The first thread is back at the end of its handler. -/
def unwound : State Bool :=
  { firstRuns with
    threads :=
      { firstRuns.threads with
        machine := firstRuns.threads.machine.setReg .esp 0x3EC0 } }

theorem Inv.calls (hs : Inv L kthreadRet s) {esp fromCtx toCtx : Word}
    (hlow : L.low s.threads.running ≤ esp.toNat)
    (hhigh : esp.toNat + 12 ≤ L.high s.threads.running)
    (hframes : ∀ p ∈ s.pending s.threads.running,
      esp.toNat + 12 ≤ p.base.toNat) :
    Step L kthreadRet s .compute (s.calls esp fromCtx toCtx) := by
  have hroom := L.room s.threads.running
  refine .compute (.compute fun t snap hsaved x hx => ?_) fun p hp x hx => ?_
  · apply callSwitch_mem (by omega)
    have hapart := L.apart t s.threads.running (hs.ne_running hsaved) x
      ((hs.threads.holds t snap hsaved).own_of_kept hx)
    unfold SwitchTo.Occupies Within at hapart
    unfold Within
    omega
  · apply callSwitch_mem (by omega)
    have habove := hframes p hp
    unfold Pending.Frame Within at hx
    unfold Within
    omega

/-- The first thread goes on after its timer interrupt. -/
theorem preemption_transparent_timer :
    ∃ s₂ s₃ s₄, Step SwitchTo.bootLayout 0x101000 created (.interrupt 32 0) s₂ ∧
      Run (Step SwitchTo.bootLayout 0x101000) s₂
        [.compute, .switch true, .compute, .switch false, .compute] s₃ ∧
      Step SwitchTo.bootLayout 0x101000 s₃ .ret s₄ ∧
      Resumed created.cpu s₄.cpu := by
  have hcreate : Step SwitchTo.bootLayout 0x101000 (start idle false)
      (.create true 0x102000 0x42 [0x41] 5) created :=
    .create (@SwitchTo.Step.create _ _ _ _ _ true 0x102000 0x42 1 [0x41] 5 _
      (by decide) rfl ⟨rfl, rfl⟩ (by decide) (fun _ _ h => by cases h) rfl)
      fun _ hp => by cases hp
  have hint : Step SwitchTo.bootLayout 0x101000 created (.interrupt 32 0)
      inHandler :=
    .interrupt rfl (by decide +kernel) (by decide +kernel)
      (fun _ hp => by cases hp) rfl
  have hstart : Inv SwitchTo.bootLayout 0x101000 (start idle false) :=
    start_inv rfl false
  have hs := (hstart.afterStep hcreate).afterStep hint
  have hcall₁ : Step SwitchTo.bootLayout 0x101000 inHandler .compute
      (inHandler.calls 0x3E80 0x1018 0x2018) :=
    hs.calls (by decide) (by decide) (by decide +kernel)
  have hswitch₁ : Step SwitchTo.bootLayout 0x101000
      (inHandler.calls 0x3E80 0x1018 0x2018) (.switch true) secondRuns :=
    .switch (.switch ⟨by decide +kernel, by decide +kernel⟩
      (by decide +kernel) (by decide +kernel) rfl) (by decide +kernel)
  have hs₁ := (hs.afterStep hcall₁).afterStep hswitch₁
  have hcall₂ : Step SwitchTo.bootLayout 0x101000 secondRuns .compute
      (secondRuns.calls 0x2F00 0x2018 0x1018) :=
    hs₁.calls (by decide) (by decide) fun _ hp => by cases hp
  have hswitch₂ : Step SwitchTo.bootLayout 0x101000
      (secondRuns.calls 0x2F00 0x2018 0x1018) (.switch false) firstRuns :=
    .switch (.switch ⟨by decide +kernel, by decide +kernel⟩
      (by decide +kernel) (by decide +kernel) rfl) fun _ hp => by cases hp
  have hunwind : Step SwitchTo.bootLayout 0x101000 firstRuns .compute unwound :=
    .compute (.compute fun _ _ _ _ _ => rfl) fun _ _ _ _ => rfl
  have hbetween : Run (Step SwitchTo.bootLayout 0x101000) inHandler
      [.compute, .switch true, .compute, .switch false, .compute] unwound :=
    ((((Run.nil.snoc hcall₁).snoc hswitch₁).snoc hcall₂).snoc hswitch₂).snoc
      hunwind
  have hret : Step SwitchTo.bootLayout 0x101000 unwound .ret _ :=
    .ret rfl (by decide +kernel)
  exact ⟨inHandler, unwound, _, hint, hbetween, hret,
    (preemption_transparent rfl (Run.nil.snoc hcreate) hint hbetween hret rfl
      rfl).2.1⟩

end Preemption
end OS32
