import OS32.Ia32

/-!
# Interrupts on the IA-32 fragment

Segment registers, the instructions an interrupt stub is made of, and what the
CPU does when it delivers an interrupt and executes `iret`, both without a
change of the privilege level.  What has been pushed since a moment is
described by the list of the words, the latest one first.
-/

namespace Ia32

variable {m m' : Mem} {a b v e : Word}

/-! ## Words on a stack -/

/-- `words` lie in memory from `a` on. -/
def Stacked (m : Mem) (a : Word) : List Word → Prop
  | [] => True
  | v :: words => read32 m a = v ∧ Stacked m (a + 4) words

/-- A word depends on its four bytes, also where it wraps around. -/
theorem read32_congr_wrap
    (hsame : ∀ k : ℕ, k < 4 →
      m' (a + BitVec.ofNat 32 k) = m (a + BitVec.ofNat 32 k)) :
    read32 m' a = read32 m a := by
  have h0 := hsame 0 (by omega)
  have h1 := hsame 1 (by omega)
  have h2 := hsame 2 (by omega)
  have h3 := hsame 3 (by omega)
  simp only [BitVec.add_zero] at h0
  simp only [read32, ← BitVec.ofNat_eq_ofNat] at h1 h2 h3 ⊢
  rw [h0, h1, h2, h3]

theorem add_ofNat_add (a : Word) (j k : ℕ) :
    a + BitVec.ofNat 32 j + BitVec.ofNat 32 k = a + BitVec.ofNat 32 (j + k) := by
  rw [BitVec.ofNat_add, BitVec.add_assoc]

/-- Words between `a + 4` and `a - 4` are not touched by a write at `a`. -/
theorem read32_write32_above {d : ℕ} (hlow : 4 ≤ d) (hhigh : d ≤ 2 ^ 32 - 4) :
    read32 (write32 m a v) (a + BitVec.ofNat 32 d) =
      read32 m (a + BitVec.ofNat 32 d) := by
  apply read32_congr_wrap
  intro k hk
  have hout : ¬ (a + BitVec.ofNat 32 (d + k) - a).toNat < 4 := by
    rw [BitVec.toNat_sub, BitVec.toNat_add, BitVec.toNat_ofNat]
    have ha := a.isLt
    omega
  rw [add_ofNat_add, write32, if_neg hout]

theorem Stacked.write {words : List Word} {d : ℕ}
    (hwords : Stacked m (a + BitVec.ofNat 32 d) words) (hlow : 4 ≤ d)
    (hhigh : d + 4 * words.length ≤ 2 ^ 32) :
    Stacked (write32 m a v) (a + BitVec.ofNat 32 d) words := by
  induction words generalizing d with
  | nil => trivial
  | cons w words ih =>
      rcases hwords with ⟨hhead, htail⟩
      rw [List.length_cons] at hhigh
      have hnext : a + BitVec.ofNat 32 d + 4 = a + BitVec.ofNat 32 (d + 4) :=
        add_ofNat_add a d 4
      rw [hnext] at htail
      refine ⟨?_, ?_⟩
      · rw [read32_write32_above hlow (by omega), hhead]
      · rw [hnext]
        exact ih htail (by omega) (by omega)

/-- Bytes that stay keep the words they make up. -/
theorem Stacked.congr {words : List Word} (hwords : Stacked m a words)
    (hsame : ∀ k : ℕ, k < 4 * words.length →
      m' (a + BitVec.ofNat 32 k) = m (a + BitVec.ofNat 32 k)) :
    Stacked m' a words := by
  induction words generalizing a with
  | nil => trivial
  | cons w words ih =>
      rcases hwords with ⟨hhead, htail⟩
      rw [List.length_cons] at hsame
      refine ⟨?_, ih htail ?_⟩
      · rw [read32_congr_wrap fun k hk => hsame k (by omega), hhead]
      · intro k hk
        have hshift := hsame (4 + k) (by omega)
        rwa [← add_ofNat_add] at hshift

/-! ## Instructions -/

/-- The flags after an addition. -/
def Eflags.add (f : Eflags) (x y : Word) : Eflags :=
  let r := x + y
  let bit (c : Bool) (k : ℕ) : Word := if c then 1 <<< k else 0
  let parity := (List.range 8).countP r.getLsbD % 2
  .popf (f.value &&& ~~~0x8D5 ||| bit (r < x) 0 ||| bit (parity = 0) 2 |||
    bit ((x ^^^ y ^^^ r) &&& 0x10 ≠ 0) 4 ||| bit (r = 0) 6 ||| bit r.msb 7 |||
    bit (x.msb = y.msb ∧ r.msb ≠ x.msb) 11)

/-- A CPU with its segment registers. -/
structure Cpu extends Machine where
  cs : BitVec 16
  ds : BitVec 16
  es : BitVec 16

inductive SysInstr where
  | instr (i : Instr)
  | cli
  /-- `pushl $v` -/
  | pushImm (v : Word)
  | pushal
  | popal
  | pushDs
  | popDs
  /-- `movw $v,%ax` -/
  | movAx (v : BitVec 16)
  /-- `movw %ax,%ds` -/
  | movDs
  /-- `movw %ax,%es` -/
  | movEs
  /-- `addl $v,%esp` -/
  | addEsp (v : Word)
  /-- `call`, with the address of the next instruction -/
  | call (next : Word)
  | iret

namespace Machine

def pushal (s : Machine) : Machine :=
  let esp := s.reg .esp
  let s := s.exec [.pushl .eax, .pushl .ecx, .pushl .edx, .pushl .ebx]
  (s.push esp).exec [.pushl .ebp, .pushl .esi, .pushl .edi]

/-- The saved `esp` is skipped. -/
def popal (s : Machine) : Machine :=
  let s := s.exec [.popl .edi, .popl .esi, .popl .ebp]
  s.pop.2.exec [.popl .ebx, .popl .edx, .popl .ecx, .popl .eax]

end Machine

namespace Cpu

def push (c : Cpu) (v : Word) : Cpu :=
  { c with toMachine := c.toMachine.push v }

def step (c : Cpu) : SysInstr → Cpu
  | .instr i => { c with toMachine := c.toMachine.step i }
  | .cli => { c with eflags := .popf (c.eflags.value &&& ~~~0x200) }
  | .pushImm v => c.push v
  | .pushal => { c with toMachine := c.toMachine.pushal }
  | .popal => { c with toMachine := c.toMachine.popal }
  | .pushDs => c.push (c.ds.setWidth 32)
  | .popDs =>
      { c with
        toMachine := c.toMachine.pop.2
        ds := c.toMachine.pop.1.setWidth 16 }
  | .movAx v =>
      let eax := c.reg .eax &&& 0xFFFF0000 ||| v.setWidth 32
      { c with toMachine := c.toMachine.setReg .eax eax }
  | .movDs => { c with ds := (c.reg .eax).setWidth 16 }
  | .movEs => { c with es := (c.reg .eax).setWidth 16 }
  | .addEsp v =>
      let s := c.toMachine.setReg .esp (c.reg .esp + v)
      { c with toMachine :=
          { s with eflags := c.eflags.add (c.reg .esp) v } }
  | .call next => c.push next
  | .iret =>
      let (eip, s) := c.toMachine.pop
      let (cs, s) := s.pop
      let (eflags, s) := s.pop
      { c with
        toMachine := { s with eip := eip, eflags := .popf eflags }
        cs := cs.setWidth 16 }

/-- The instructions one after the other, up to an `iret` at their end. -/
def exec (c : Cpu) (code : List SysInstr) : Cpu := code.foldl step c

/-- An interrupt is delivered through a gate with the code segment `selector`:
`eflags`, `cs`, `eip` and perhaps an error code are pushed, `TF`, `NT`, `RF`
and `VM` cleared, and `IF` unless the gate is a trap gate. -/
def deliver (c : Cpu) (selector : BitVec 16) (entry : Word) (isTrap : Bool)
    (errCode : Option Word) : Cpu :=
  let c' := ((c.push c.eflags.value).push (c.cs.setWidth 32)).push c.eip
  let c' := errCode.elim c' c'.push
  let mask : Word := if isTrap then 0x34100 else 0x34300
  { c' with
    eip := entry
    eflags := .popf (c.eflags.value &&& ~~~mask)
    cs := selector }

theorem addEsp_reg (c : Cpu) (v : Word) {r : Reg} (hr : r ≠ .esp) :
    (c.step (.addEsp v)).reg r = c.reg r := Function.update_of_ne hr _ _

end Cpu

/-! ## What an instruction does to the stack -/

/-- Since the stack pointer was `e`, `words` have been pushed. -/
structure Pushed (s : Machine) (e : Word) (words : List Word) : Prop where
  top : s.reg .esp + BitVec.ofNat 32 (4 * words.length) = e
  words : Stacked s.mem (s.reg .esp) words

namespace Pushed

variable {s : Machine} {words : List Word}

theorem nil (s : Machine) : Pushed s (s.reg .esp) [] :=
  ⟨BitVec.add_zero _, trivial⟩

theorem push (hs : Pushed s e words) (hsmall : words.length < 2 ^ 30 - 1)
    (v : Word) : Pushed (s.push v) e (v :: words) := by
  have hesp : (s.push v).reg .esp = s.reg .esp - 4 := rfl
  have hback : s.reg .esp - 4 + BitVec.ofNat 32 4 = s.reg .esp :=
    BitVec.sub_add_cancel _ _
  constructor
  · rw [hesp, List.length_cons, Nat.mul_succ, Nat.add_comm, ← add_ofNat_add,
      hback]
    exact hs.top
  · have hwords := hs.words
    rw [← hback] at hwords
    rw [hesp]
    exact ⟨read32_write32 _ _ _, hwords.write (by omega) (by omega)⟩

theorem setReg (hs : Pushed s e words) {r : Reg} (hr : r ≠ .esp) (w : Word) :
    Pushed (s.setReg r w) e words := by
  have hesp : (s.setReg r w).reg .esp = s.reg .esp :=
    Function.update_of_ne (Ne.symm hr) _ _
  exact ⟨by rw [hesp]; exact hs.top, by rw [hesp]; exact hs.words⟩

theorem pop_fst (hs : Pushed s e (v :: words)) : s.pop.1 = v := hs.words.1

theorem pop_snd (hs : Pushed s e (v :: words)) : Pushed s.pop.2 e words := by
  have hesp : s.pop.2.reg .esp = s.reg .esp + BitVec.ofNat 32 4 := rfl
  constructor
  · have htop := hs.top
    rw [List.length_cons, Nat.mul_succ, Nat.add_comm, ← add_ofNat_add] at htop
    rw [hesp]
    exact htop
  · exact hs.words.2

theorem popl (hs : Pushed s e (v :: words)) {r : Reg} (hr : r ≠ .esp) :
    Pushed (s.step (.popl r)) e words :=
  hs.pop_snd.setReg hr _

theorem pop_snd_reg (s : Machine) {q : Reg} (hq : q ≠ .esp) :
    s.pop.2.reg q = s.reg q := Function.update_of_ne hq _ _

theorem popl_reg (hs : Pushed s e (v :: words)) (r : Reg) :
    (s.step (.popl r)).reg r = v := by
  have hload : (s.step (.popl r)).reg r = s.pop.1 :=
    Function.update_self (β := fun _ => Word) _ _ _
  rw [hload, hs.pop_fst]

theorem popl_reg_other {r q : Reg} (hq : q ≠ r) (hesp : q ≠ .esp) :
    (s.step (.popl r)).reg q = s.reg q := by
  have hload : (s.step (.popl r)).reg q = s.pop.2.reg q :=
    Function.update_of_ne hq _ _
  rw [hload, pop_snd_reg s hesp]

/-- `popl` into some registers, one after the other. -/
theorem exec_popl {regs : List Reg} {values : List Word}
    (hs : Pushed s e (values ++ words)) (hlength : regs.length = values.length)
    (hregs : regs.Nodup) (hesp : .esp ∉ regs) :
    Pushed (s.exec (regs.map .popl)) e words ∧
      regs.map (s.exec (regs.map .popl)).reg = values ∧
      ∀ q, q ≠ .esp → q ∉ regs →
        (s.exec (regs.map .popl)).reg q = s.reg q := by
  induction regs generalizing s values with
  | nil =>
      obtain rfl := List.length_eq_zero_iff.mp hlength.symm
      exact ⟨hs, rfl, fun _ _ _ => rfl⟩
  | cons r regs ih =>
      obtain ⟨w, values, rfl⟩ := List.exists_cons_of_length_eq_add_one
        hlength.symm
      rw [List.nodup_cons] at hregs
      rw [List.mem_cons, not_or] at hesp
      rw [List.length_cons, List.length_cons, Nat.add_right_cancel_iff]
        at hlength
      have hpop : Pushed (s.step (.popl r)) e (values ++ words) :=
        Pushed.popl hs (Ne.symm hesp.1)
      rcases ih hpop hlength hregs.2 hesp.2 with ⟨hpushed, hvalues, hother⟩
      refine ⟨hpushed, ?_, ?_⟩
      · rw [List.map_cons]
        congr 1
        exact (hother r (Ne.symm hesp.1) hregs.1).trans (popl_reg hs r)
      · intro q hq hmem
        rw [List.mem_cons, not_or] at hmem
        exact (hother q hq hmem.2).trans (popl_reg_other hmem.1 hq)

theorem pushal (hs : Pushed s e words) (hsmall : words.length < 2 ^ 30 - 8) :
    Pushed s.pushal e (s.reg .edi :: s.reg .esi :: s.reg .ebp :: s.reg .esp ::
      s.reg .ebx :: s.reg .edx :: s.reg .ecx :: s.reg .eax :: words) := by
  have h1 := hs.push (by omega) (s.reg .eax)
  have h2 := h1.push (by simp only [List.length_cons]; omega) (s.reg .ecx)
  have h3 := h2.push (by simp only [List.length_cons]; omega) (s.reg .edx)
  have h4 := h3.push (by simp only [List.length_cons]; omega) (s.reg .ebx)
  have h5 := h4.push (by simp only [List.length_cons]; omega) (s.reg .esp)
  have h6 := h5.push (by simp only [List.length_cons]; omega) (s.reg .ebp)
  have h7 := h6.push (by simp only [List.length_cons]; omega) (s.reg .esi)
  exact h7.push (by simp only [List.length_cons]; omega) (s.reg .edi)

theorem addEsp_eight {c : Cpu}
    (hs : Pushed c.toMachine e (v :: b :: words)) :
    Pushed (c.step (.addEsp 8)).toMachine e words := by
  have hesp : (c.step (.addEsp 8)).reg .esp =
      c.toMachine.pop.2.pop.2.reg .esp := by
    change c.reg .esp + 8 = c.reg .esp + 4 + 4
    rw [BitVec.add_assoc]
    rfl
  have hpop := hs.pop_snd.pop_snd
  constructor
  · rw [hesp]
    exact hpop.top
  · rw [hesp]
    exact hpop.words

/-- `popal` loads what `pushal` has pushed, apart from `esp`. -/
theorem popal {edi esi ebp esp ebx edx ecx eax : Word}
    (hs : Pushed s e (edi :: esi :: ebp :: esp :: ebx :: edx :: ecx :: eax ::
      words)) :
    Pushed s.popal e words ∧ s.popal.reg .edi = edi ∧ s.popal.reg .esi = esi ∧
      s.popal.reg .ebp = ebp ∧ s.popal.reg .ebx = ebx ∧
      s.popal.reg .edx = edx ∧ s.popal.reg .ecx = ecx ∧
      s.popal.reg .eax = eax := by
  have hfirst := exec_popl (show Pushed s e ([edi, esi, ebp] ++ _) from hs)
    (show [Reg.edi, .esi, .ebp].length = 3 from rfl) (by decide) (by decide)
  rcases hfirst with ⟨hpushed, hvalues, _⟩
  have hskip := hpushed.pop_snd
  have hsecond := exec_popl
    (show Pushed _ e ([ebx, edx, ecx, eax] ++ words) from hskip)
    (show [Reg.ebx, .edx, .ecx, .eax].length = 4 from rfl) (by decide)
    (by decide)
  rcases hsecond with ⟨hlast, hvalues', hother⟩
  have hkept : ∀ q, q ≠ .esp → q ∉ [Reg.ebx, .edx, .ecx, .eax] →
      s.popal.reg q = (s.exec [.popl .edi, .popl .esi, .popl .ebp]).reg q :=
    fun q hq hmem => (hother q hq hmem).trans (pop_snd_reg _ hq)
  simp only [List.map_cons, List.map_nil, List.cons.injEq, and_true]
    at hvalues hvalues'
  refine ⟨hlast, ?_, ?_, ?_, hvalues'⟩
  · exact (hkept .edi (by decide) (by decide)).trans hvalues.1
  · exact (hkept .esi (by decide) (by decide)).trans hvalues.2.1
  · exact (hkept .ebp (by decide) (by decide)).trans hvalues.2.2

end Pushed

end Ia32
