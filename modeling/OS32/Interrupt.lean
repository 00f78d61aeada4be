import OS32.Ia32Interrupt

/-!
# Interrupts: `intr.S`, `pt_regs` and `interrupt_handler`

A stub pushes a zero where the CPU pushes no error code, then its vector, and
the common stub pushes the registers, so that the stack becomes a `pt_regs`.
Whatever handler runs in between, as long as it leaves the `pt_regs` alone the
interrupted code goes on as if nothing had happened.
-/

namespace OS32

open Ia32

namespace Interrupt

/-! ## The stubs -/

/-- A stub for a vector with an error code. -/
def withCode (vector : Word) : List SysInstr := [.cli, .pushImm vector]

/-- A stub for a vector without one. -/
def dummyCode (vector : Word) : List SysInstr :=
  [.cli, .pushImm 0, .pushImm vector]

def interrupt0 : List SysInstr := dummyCode 0
def interrupt1 : List SysInstr := dummyCode 1
def interrupt2 : List SysInstr := dummyCode 2
def interrupt3 : List SysInstr := dummyCode 3
def interrupt4 : List SysInstr := dummyCode 4
def interrupt5 : List SysInstr := dummyCode 5
def interrupt6 : List SysInstr := dummyCode 6
def interrupt7 : List SysInstr := dummyCode 7
def interrupt8 : List SysInstr := withCode 8
def interrupt9 : List SysInstr := dummyCode 9
def interrupt10 : List SysInstr := withCode 10
def interrupt11 : List SysInstr := withCode 11
def interrupt12 : List SysInstr := withCode 12
def interrupt13 : List SysInstr := withCode 13
def interrupt14 : List SysInstr := withCode 14
def interrupt15 : List SysInstr := dummyCode 15
def interrupt16 : List SysInstr := dummyCode 16
def interrupt17 : List SysInstr := withCode 17
def interrupt18 : List SysInstr := dummyCode 18
def interrupt19 : List SysInstr := dummyCode 19
def interrupt20 : List SysInstr := dummyCode 20
def interrupt21 : List SysInstr := dummyCode 21
def interrupt22 : List SysInstr := dummyCode 22
def interrupt23 : List SysInstr := dummyCode 23
def interrupt24 : List SysInstr := dummyCode 24
def interrupt25 : List SysInstr := dummyCode 25
def interrupt26 : List SysInstr := dummyCode 26
def interrupt27 : List SysInstr := dummyCode 27
def interrupt28 : List SysInstr := dummyCode 28
def interrupt29 : List SysInstr := dummyCode 29
def interrupt30 : List SysInstr := dummyCode 30
def interrupt31 : List SysInstr := dummyCode 31
def interrupt32 : List SysInstr := dummyCode 32
def interrupt33 : List SysInstr := dummyCode 33
def interrupt34 : List SysInstr := dummyCode 34
def interrupt35 : List SysInstr := dummyCode 35
def interrupt36 : List SysInstr := dummyCode 36
def interrupt37 : List SysInstr := dummyCode 37
def interrupt38 : List SysInstr := dummyCode 38
def interrupt39 : List SysInstr := dummyCode 39
def interrupt40 : List SysInstr := dummyCode 40
def interrupt41 : List SysInstr := dummyCode 41
def interrupt42 : List SysInstr := dummyCode 42
def interrupt43 : List SysInstr := dummyCode 43
def interrupt44 : List SysInstr := dummyCode 44
def interrupt45 : List SysInstr := dummyCode 45
def interrupt46 : List SysInstr := dummyCode 46
def interrupt47 : List SysInstr := dummyCode 47
def interrupt255 : List SysInstr := dummyCode 255

/-- What `init_idt` enters into `idt_table`. -/
def idtTable : ℕ → Option (List SysInstr)
  | 0 => some interrupt0
  | 1 => some interrupt1
  | 2 => some interrupt2
  | 3 => some interrupt3
  | 4 => some interrupt4
  | 5 => some interrupt5
  | 6 => some interrupt6
  | 7 => some interrupt7
  | 8 => some interrupt8
  | 9 => some interrupt9
  | 10 => some interrupt10
  | 11 => some interrupt11
  | 12 => some interrupt12
  | 13 => some interrupt13
  | 14 => some interrupt14
  | 15 => some interrupt15
  | 16 => some interrupt16
  | 17 => some interrupt17
  | 18 => some interrupt18
  | 19 => some interrupt19
  | 20 => some interrupt20
  | 21 => some interrupt21
  | 22 => some interrupt22
  | 23 => some interrupt23
  | 24 => some interrupt24
  | 25 => some interrupt25
  | 26 => some interrupt26
  | 27 => some interrupt27
  | 28 => some interrupt28
  | 29 => some interrupt29
  | 30 => some interrupt30
  | 31 => some interrupt31
  | 32 => some interrupt32
  | 33 => some interrupt33
  | 34 => some interrupt34
  | 35 => some interrupt35
  | 36 => some interrupt36
  | 37 => some interrupt37
  | 38 => some interrupt38
  | 39 => some interrupt39
  | 40 => some interrupt40
  | 41 => some interrupt41
  | 42 => some interrupt42
  | 43 => some interrupt43
  | 44 => some interrupt44
  | 45 => some interrupt45
  | 46 => some interrupt46
  | 47 => some interrupt47
  | 255 => some interrupt255
  | _ => none

/-- `interrupt_common_stub` up to the call, which pushes the address `next`. -/
def commonEntry (next : Word) : List SysInstr :=
  [.pushal, .pushDs, .movAx 0x10, .movDs, .movEs, .instr (.pushl .esp),
    .call next]

/-- `interrupt_common_stub` after the call. -/
def commonExit : List SysInstr :=
  [.addEsp 4, .popDs, .popal, .addEsp 8, .iret]

/-! ## `pt_regs` -/

structure PtRegs where
  ds : Word
  edi : Word
  esi : Word
  ebp : Word
  esp : Word
  ebx : Word
  edx : Word
  ecx : Word
  eax : Word
  int_no : Word
  err_code : Word
  eip : Word
  cs : Word
  eflags : Word
  useresp : Word
  ss : Word

/-- The `pt_regs` at the address `regs`. -/
def ptRegs (m : Mem) (regs : Word) : PtRegs where
  ds := read32 m regs
  edi := read32 m (regs + 4)
  esi := read32 m (regs + 8)
  ebp := read32 m (regs + 12)
  esp := read32 m (regs + 16)
  ebx := read32 m (regs + 20)
  edx := read32 m (regs + 24)
  ecx := read32 m (regs + 28)
  eax := read32 m (regs + 32)
  int_no := read32 m (regs + 36)
  err_code := read32 m (regs + 40)
  eip := read32 m (regs + 44)
  cs := read32 m (regs + 48)
  eflags := read32 m (regs + 52)
  useresp := read32 m (regs + 56)
  ss := read32 m (regs + 60)

/-- `interrupt_handler`: the bytes it writes to ports and the handler it
calls. -/
def interruptHandler {H : Type*} (handlers : Word → Option H) (regs : PtRegs) :
    List (Word × BitVec 8) × Option H :=
  let slave := if 40 ≤ regs.int_no then [(0xA0, 0x20)] else []
  let eoi := if 32 ≤ regs.int_no then slave ++ [(0x20, 0x20)] else []
  (eoi, handlers regs.int_no)

/-! ## An interrupt -/

/-- The vectors for which the CPU pushes an error code. -/
def pushesCode (vector : ℕ) : Bool :=
  vector = 8 ∨ (10 ≤ vector ∧ vector ≤ 14) ∨ vector = 17

/-- `init_idt` makes a trap gate of `interrupt255` only. -/
def isTrapGate (vector : ℕ) : Bool := vector = 255

/-- The selector in all gates, `STA_X`. -/
def gateSelector : BitVec 16 := 0x8

/-- From the interrupted code up to the first instruction of
`interrupt_handler`. -/
def enterHandler (c : Cpu) (vector : ℕ) (code : List SysInstr)
    (entry next err : Word) : Cpu :=
  let errCode := if pushesCode vector then some err else none
  let c := c.deliver gateSelector entry (isTrapGate vector) errCode
  (c.exec code).exec (commonEntry next)

/-- `interrupt_handler` in the state `c` returns in the state `c'`, having left
the `pt_regs` alone: the calling convention gives back the stack pointer, and
compiled code does not change `es`. -/
structure Returns (c c' : Cpu) : Prop where
  esp : c'.reg .esp = c.reg .esp + 4
  es : c'.es = c.es
  ptRegs : ∀ k : ℕ, k < 56 →
    c'.mem (read32 c.mem (c.reg .esp + 4) + BitVec.ofNat 32 k) =
      c.mem (read32 c.mem (c.reg .esp + 4) + BitVec.ofNat 32 k)

/-! ## Entry -/

theorem idtTable_eq {vector : ℕ} {code : List SysInstr}
    (hcode : idtTable vector = some code) :
    code = if pushesCode vector then withCode (BitVec.ofNat 32 vector)
      else dummyCode (BitVec.ofNat 32 vector) := by
  unfold idtTable at hcode
  split at hcode <;> cases hcode <;> rfl

/-- The error code in `pt_regs`. -/
def errWord (vector : ℕ) (err : Word) : Word :=
  if pushesCode vector then err else 0

/-- After the stub of the vector. -/
theorem stub_pushed (c : Cpu) {vector : ℕ} {code : List SysInstr}
    (hcode : idtTable vector = some code) (entry err : Word) :
    let t := (c.deliver gateSelector entry (isTrapGate vector)
      (if pushesCode vector then some err else none)).exec code
    Pushed t.toMachine (c.reg .esp) [BitVec.ofNat 32 vector,
        errWord vector err, c.eip, c.cs.setWidth 32, c.eflags.value] ∧
      (∀ r, r ≠ .esp → t.reg r = c.reg r) ∧ t.ds = c.ds ∧ t.es = c.es := by
  have h1 := (Pushed.nil c.toMachine).push (by simp) c.eflags.value
  have h2 := h1.push (by simp) (c.cs.setWidth 32)
  have h3 := h2.push (by simp) c.eip
  rw [idtTable_eq hcode]
  by_cases hpush : pushesCode vector = true
  · rw [if_pos hpush, if_pos hpush, errWord, if_pos hpush]
    have h4 := h3.push (by simp) err
    have hcli : Pushed ((c.deliver gateSelector entry (isTrapGate vector)
        (some err)).step .cli).toMachine (c.reg .esp)
        [err, c.eip, c.cs.setWidth 32, c.eflags.value] := ⟨h4.top, h4.words⟩
    have h5 := hcli.push (by simp) (BitVec.ofNat 32 vector)
    refine ⟨h5, ?_, rfl, rfl⟩
    intro r hr
    cases r <;> first | rfl | exact absurd rfl hr
  · rw [if_neg hpush, if_neg hpush, errWord, if_neg hpush]
    have hcli : Pushed ((c.deliver gateSelector entry (isTrapGate vector)
        none).step .cli).toMachine (c.reg .esp)
        [c.eip, c.cs.setWidth 32, c.eflags.value] := ⟨h3.top, h3.words⟩
    have h4 := hcli.push (by simp) 0
    have h5 := h4.push (by simp) (BitVec.ofNat 32 vector)
    refine ⟨h5, ?_, rfl, rfl⟩
    intro r hr
    cases r <;> first | rfl | exact absurd rfl hr

/-- The words of the `pt_regs`. -/
def frame (c : Cpu) (vector : ℕ) (err esp : Word) : List Word :=
  [c.ds.setWidth 32, c.reg .edi, c.reg .esi, c.reg .ebp, esp, c.reg .ebx,
    c.reg .edx, c.reg .ecx, c.reg .eax, BitVec.ofNat 32 vector,
    errWord vector err, c.eip, c.cs.setWidth 32, c.eflags.value]

theorem movAx_low (eax : Word) (v : BitVec 16) :
    (eax &&& 0xFFFF0000 ||| v.setWidth 32).setWidth 16 = v := by
  have hmask : (0xFFFF0000 : Word).setWidth 16 = 0 := by decide
  rw [BitVec.setWidth_or, BitVec.setWidth_and, hmask,
    BitVec.setWidth_setWidth_of_le _ (by omega), BitVec.setWidth_eq]
  simp

/-- `interrupt_common_stub` up to the call. -/
theorem commonEntry_pushed {t : Cpu} {e : Word} {words : List Word}
    (ht : Pushed t.toMachine e words) (hsmall : words.length < 2 ^ 29)
    (next : Word) :
    ∃ regs esp, Pushed (t.exec (commonEntry next)).toMachine e
        (next :: regs :: t.ds.setWidth 32 :: t.reg .edi :: t.reg .esi ::
          t.reg .ebp :: esp :: t.reg .ebx :: t.reg .edx :: t.reg .ecx ::
          t.reg .eax :: words) ∧
      regs = (t.exec (commonEntry next)).reg .esp + 8 ∧
      (t.exec (commonEntry next)).es = 0x10 := by
  have h1 : Pushed (t.step .pushal).toMachine e _ := ht.pushal (by omega)
  have hds : (t.step .pushal).ds = t.ds := rfl
  have h2 : Pushed ((t.step .pushal).step .pushDs).toMachine e _ :=
    h1.push (by simp only [List.length_cons]; omega) _
  rw [hds] at h2
  have hexec : t.exec (commonEntry next) =
      ((t.step .pushal).step .pushDs).exec [.movAx 0x10, .movDs, .movEs,
        .instr (.pushl .esp), .call next] := rfl
  rw [hexec]
  generalize (t.step .pushal).step .pushDs = t₂ at h2 ⊢
  have h3 : Pushed (t₂.exec [.movAx 0x10, .movDs, .movEs]).toMachine e _ :=
    h2.setReg (by decide) _
  have hes : (t₂.exec [.movAx 0x10, .movDs, .movEs]).es = 0x10 := movAx_low _ _
  have hexec₂ : t₂.exec [.movAx 0x10, .movDs, .movEs, .instr (.pushl .esp),
      .call next] = (t₂.exec [.movAx 0x10, .movDs, .movEs]).exec
        [.instr (.pushl .esp), .call next] := rfl
  rw [hexec₂]
  generalize t₂.exec [.movAx 0x10, .movDs, .movEs] = t₃ at h3 hes ⊢
  have h4 := h3.push (by simp only [List.length_cons]; omega) (t₃.reg .esp)
  have h5 := h4.push (by simp only [List.length_cons]; omega) next
  have hesp : (t₃.exec [.instr (.pushl .esp), .call next]).reg .esp =
      t₃.reg .esp - 4 - 4 := rfl
  refine ⟨t₃.reg .esp, t.reg .esp, h5, ?_, hes⟩
  rw [hesp]
  bv_omega

/-- On entry to `interrupt_handler` the return address and the address of the
`pt_regs` lie on top of it. -/
theorem enterHandler_pushed (c : Cpu) {vector : ℕ} {code : List SysInstr}
    (hcode : idtTable vector = some code) (entry next err : Word) :
    ∃ regs esp, Pushed (enterHandler c vector code entry next err).toMachine
        (c.reg .esp) (next :: regs :: frame c vector err esp) ∧
      regs = (enterHandler c vector code entry next err).reg .esp + 8 ∧
      (enterHandler c vector code entry next err).es = 0x10 := by
  rcases stub_pushed c hcode entry err with ⟨hstub, hregs, hds, _⟩
  unfold enterHandler
  dsimp only
  generalize (c.deliver gateSelector entry (isTrapGate vector)
    (if pushesCode vector then some err else none)).exec code = t at *
  obtain ⟨regs, esp, hpushed, hrest⟩ :=
    commonEntry_pushed hstub (by simp) next
  rw [hregs .edi (by decide), hregs .esi (by decide), hregs .ebp (by decide),
    hregs .ebx (by decide), hregs .edx (by decide), hregs .ecx (by decide),
    hregs .eax (by decide), hds] at hpushed
  exact ⟨regs, esp, hpushed, hrest⟩

/-! ## Return -/

/-- `c'` goes on where `c` was interrupted. -/
structure Resumed (c c' : Cpu) : Prop where
  reg : c'.reg = c.reg
  eip : c'.eip = c.eip
  cs : c'.cs = c.cs
  eflags : c'.eflags = c.eflags
  ds : c'.ds = c.ds
  es : c'.es = c.es

variable {c u u' : Cpu} {vector : ℕ} {err regs esp next : Word}

/-- The `pt_regs` are on top of the stack again after the call. -/
theorem Returns.pushed (hreturns : Returns u u')
    (hu : Pushed u.toMachine (c.reg .esp)
      (next :: regs :: frame c vector err esp))
    (hregs : regs = u.reg .esp + 8) :
    Pushed (u'.step (.addEsp 4)).toMachine (c.reg .esp)
      (frame c vector err esp) := by
  have harg : read32 u.mem (u.reg .esp + 4) = regs := hu.words.2.1
  have hesp : (u'.step (.addEsp 4)).reg .esp = regs := by
    change u'.reg .esp + 4 = regs
    rw [hreturns.esp, hregs, BitVec.add_assoc]
    rfl
  have hframe := hu.pop_snd.pop_snd
  have htop : u.toMachine.pop.2.pop.2.reg .esp = regs := by
    change u.reg .esp + 4 + 4 = regs
    rw [hregs, BitVec.add_assoc]
    rfl
  have hsame := hreturns.ptRegs
  rw [harg] at hsame
  constructor
  · rw [hesp, ← htop]
    exact hframe.top
  · have hwords := hframe.words
    rw [htop] at hwords
    rw [hesp]
    exact hwords.congr hsame

theorem iret_resumed {t : Cpu}
    (ht : Pushed t.toMachine (c.reg .esp)
      [c.eip, c.cs.setWidth 32, c.eflags.value])
    (hreg : ∀ r, r ≠ .esp → t.reg r = c.reg r) (hds : t.ds = c.ds)
    (hes : t.es = c.es) : Resumed c (t.step .iret) := by
  have h1 := ht.pop_snd
  have h2 := h1.pop_snd
  have h3 := h2.pop_snd
  have hcs : (c.cs.setWidth 32).setWidth 16 = c.cs := by
    rw [BitVec.setWidth_setWidth_of_le _ (by omega), BitVec.setWidth_eq]
  have hother : ∀ r, r ≠ .esp → (t.step .iret).reg r = t.reg r := by
    intro r hr
    have hpops : (t.step .iret).reg r = t.toMachine.pop.2.pop.2.pop.2.reg r :=
      rfl
    rw [hpops, Pushed.pop_snd_reg _ hr, Pushed.pop_snd_reg _ hr,
      Pushed.pop_snd_reg _ hr]
  constructor
  · funext r
    by_cases hr : r = .esp
    · subst hr
      exact (BitVec.add_zero _).symm.trans h3.top
    · rw [hother r hr, hreg r hr]
  · exact ht.pop_fst
  · change t.toMachine.pop.2.pop.1.setWidth 16 = c.cs
    rw [h1.pop_fst, hcs]
  · change Eflags.popf t.toMachine.pop.2.pop.2.pop.1 = c.eflags
    rw [h2.pop_fst, Eflags.popf_value]
  · exact hds
  · exact hes

theorem commonExit_resumed (hes : u.es = c.es)
    (hu : Pushed (u.step (.addEsp 4)).toMachine (c.reg .esp)
      (frame c vector err esp)) :
    Resumed c (u.exec commonExit) := by
  have hexec : u.exec commonExit = ((((u.step (.addEsp 4)).step .popDs).step
      .popal).step (.addEsp 8)).step .iret := rfl
  have hes₁ : ((u.step (.addEsp 4)).step .popDs).es = c.es := hes
  have hds : ((u.step (.addEsp 4)).step .popDs).ds = c.ds := by
    change (u.step (.addEsp 4)).toMachine.pop.1.setWidth 16 = c.ds
    rw [hu.pop_fst, BitVec.setWidth_setWidth_of_le _ (by omega),
      BitVec.setWidth_eq]
  have h1 : Pushed ((u.step (.addEsp 4)).step .popDs).toMachine _ _ :=
    hu.pop_snd
  rw [hexec]
  generalize (u.step (.addEsp 4)).step .popDs = t at h1 hes₁ hds ⊢
  rcases h1.popal with ⟨h2, hedi, hesi, hebp, hebx, hedx, hecx, heax⟩
  have hpopal : Pushed (t.step .popal).toMachine _ _ := h2
  refine iret_resumed hpopal.addEsp_eight ?_ hds hes₁
  intro r hr
  rw [Cpu.addEsp_reg _ _ hr]
  cases r with
  | eax => exact heax
  | ecx => exact hecx
  | edx => exact hedx
  | ebx => exact hebx
  | esp => exact absurd rfl hr
  | ebp => exact hebp
  | esi => exact hesi
  | edi => exact hedi

/-! ## Transparency -/

/-- The `pt_regs` of a handler show the interrupted state. -/
structure Shows (c : Cpu) (vector : ℕ) (err : Word) (regs : PtRegs) : Prop where
  ds : regs.ds = c.ds.setWidth 32
  edi : regs.edi = c.reg .edi
  esi : regs.esi = c.reg .esi
  ebp : regs.ebp = c.reg .ebp
  ebx : regs.ebx = c.reg .ebx
  edx : regs.edx = c.reg .edx
  ecx : regs.ecx = c.reg .ecx
  eax : regs.eax = c.reg .eax
  int_no : regs.int_no = BitVec.ofNat 32 vector
  err_code : regs.err_code = if pushesCode vector then err else 0
  eip : regs.eip = c.eip
  cs : regs.cs = c.cs.setWidth 32
  eflags : regs.eflags = c.eflags.value

theorem shows_of_stacked {m : Mem} {a : Word}
    (hwords : Stacked m a (frame c vector err esp)) :
    Shows c vector err (ptRegs m a) := by
  simp only [frame, Stacked, BitVec.add_assoc] at hwords
  rcases hwords with ⟨hds, hedi, hesi, hebp, _, hebx, hedx, hecx, heax, hno,
    hcode, heip, hcs, heflags, _⟩
  exact ⟨hds, hedi, hesi, hebp, hebx, hedx, hecx, heax, hno, hcode, heip, hcs,
    heflags⟩

/-- `interrupt_handler` sees the interrupted state in its `pt_regs`, and if it
leaves them alone the interrupted code goes on in that state. -/
theorem interrupt_transparent (c : Cpu) {vector : ℕ} {code : List SysInstr}
    (hcode : idtTable vector = some code) (entry next err : Word)
    (hes : c.es = 0x10) :
    let u := enterHandler c vector code entry next err
    Shows c vector err (ptRegs u.mem (read32 u.mem (u.reg .esp + 4))) ∧
      ∀ u', Returns u u' → Resumed c (u'.exec commonExit) := by
  obtain ⟨regs, esp, hu, hregs, hes'⟩ :=
    enterHandler_pushed c hcode entry next err
  dsimp only
  generalize enterHandler c vector code entry next err = u at *
  have harg : read32 u.mem (u.reg .esp + 4) = regs := hu.words.2.1
  have hframe : Stacked u.mem (u.reg .esp + 4 + 4) _ := hu.words.2.2
  constructor
  · rw [harg, hregs]
    rw [BitVec.add_assoc] at hframe
    exact shows_of_stacked hframe
  · intro u' hreturns
    refine commonExit_resumed ?_ (hreturns.pushed hu hregs)
    rw [hreturns.es, hes', hes]

/-- A handler that returns at once. -/
def returnAtOnce (u : Cpu) : Cpu := { u with toMachine := u.toMachine.pop.2 }

theorem returns_returnAtOnce (u : Cpu) : Returns u (returnAtOnce u) :=
  ⟨rfl, rfl, fun _ _ => rfl⟩

/-- Some kernel code. -/
def kernelCode : Cpu where
  reg := fun r => if r = .esp then 0xC0105000 else 7
  eip := 0xC0100000
  eflags := ⟨0x202, by decide⟩
  mem := fun _ => 0
  cs := 0x8
  ds := 0x10
  es := 0x10

/-- A page fault in kernel code. -/
theorem page_fault_transparent :
    ∃ u, u = enterHandler kernelCode 14 interrupt14 0xC0101000 0xC0102000 2 ∧
      Shows kernelCode 14 2
        (ptRegs u.mem (read32 u.mem (u.reg .esp + 4))) ∧
      Resumed kernelCode ((returnAtOnce u).exec commonExit) := by
  have hcode : idtTable 14 = some interrupt14 := rfl
  have htransparent := interrupt_transparent kernelCode hcode 0xC0101000
    0xC0102000 2 rfl
  exact ⟨_, rfl, htransparent.1, htransparent.2 _ (returns_returnAtOnce _)⟩

/-- `interrupt_handler` calls the handler registered for the vector. -/
theorem vector_handled {H : Type*} (handlers : Word → Option H) {regs : PtRegs}
    {vector : ℕ} (hregs : regs.int_no = BitVec.ofNat 32 vector)
    (hvector : vector < 2 ^ 32) :
    interruptHandler handlers regs =
      ((if 32 ≤ vector then
        (if 40 ≤ vector then [(0xA0, 0x20)] else []) ++ [(0x20, 0x20)] else []),
        handlers (BitVec.ofNat 32 vector)) := by
  have hle : ∀ k : ℕ, k < 2 ^ 32 →
      (BitVec.ofNat 32 k ≤ BitVec.ofNat 32 vector ↔ k ≤ vector) := by
    intro k hk
    rw [BitVec.le_def, BitVec.toNat_ofNat, BitVec.toNat_ofNat]
    omega
  have h32 : (32 : Word) ≤ BitVec.ofNat 32 vector ↔ 32 ≤ vector :=
    hle 32 (by omega)
  have h40 : (40 : Word) ≤ BitVec.ofNat 32 vector ↔ 40 ≤ vector :=
    hle 40 (by omega)
  unfold interruptHandler
  rw [hregs]
  simp only [h32, h40]

end Interrupt
end OS32
