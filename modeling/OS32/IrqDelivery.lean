import OS32.Interrupt
import OS32.Pic
import OS32.Run

/-!
# From a device to its handler

`init_8259` sets up the two interrupt controllers, and `interrupt_handler` ends
an interrupt before it calls the handler.  So nothing is in service while a
handler runs, which may not return for long: the timer's handler switches to
another thread.
-/

namespace OS32

open Ia32 Transition

namespace Interrupt

/-- The bytes that `init_8259` sends.  The last one was meant for 0xA1, whose
mask is clear since the first word. -/
def init8259 : List (Word × BitVec 8) :=
  [(0x20, 0x11), (0xA0, 0x11), (0x21, 0x20), (0xA1, 0x28), (0x21, 0x04),
    (0xA1, 0x02), (0x21, 0x01), (0xA1, 0x01), (0x21, 0x00), (0x21, 0x00)]

/-- `entering` is the vector whose stub or `interrupt_handler` runs, before the
handler is called. -/
structure Irqs where
  pics : Cascade
  flag : Bool
  entering : Option (BitVec 8)

inductive IrqAct where
  | raise (irq : Irq)
  | withdraw (irq : Irq)
  /-- The processor acknowledges an interrupt and gets its vector. -/
  | accept (vector : BitVec 8)
  /-- An exception or an `int` instruction. -/
  | software (vector : BitVec 8)
  /-- `interrupt_handler` calls the handler. -/
  | handle
  /-- The code that runs sets or clears the interrupt flag. -/
  | flag (value : Bool)

/-- The stubs begin with `cli`, and all gates for devices are interrupt
gates. -/
inductive IrqStep (s : Irqs) : IrqAct → Irqs → Prop
  | raise (irq : Irq) : IrqStep s (.raise irq) { s with pics := s.pics.raise irq }
  | withdraw (irq : Irq) :
      IrqStep s (.withdraw irq) { s with pics := s.pics.withdraw irq }
  | accept (hflag : s.flag = true) (hcode : s.entering = none) :
      IrqStep s (.accept s.pics.acknowledge.2)
        ⟨s.pics.acknowledge.1, false, some s.pics.acknowledge.2⟩
  | software (vector : BitVec 8) (hcode : s.entering = none) :
      IrqStep s (.software vector) ⟨s.pics, false, some vector⟩
  | handle {H : Type} (handlers : Word → Option H) (regs : PtRegs)
      {vector : BitVec 8} (hcode : s.entering = some vector)
      (hregs : regs.int_no = vector.setWidth 32) :
      IrqStep s .handle
        ⟨s.pics.after (interruptHandler handlers regs).1, false, none⟩
  | flag (value : Bool) (hcode : s.entering = none) :
      IrqStep s (.flag value) { s with flag := value }

/-- What the devices see: the processor serves one request after the other. -/
inductive ServiceStep (a : Set Irq) : IrqAct → Set Irq → Prop
  | raise (irq : Irq) : ServiceStep a (.raise irq) (insert irq a)
  | withdraw (irq : Irq) : ServiceStep a (.withdraw irq) (a \ {irq})
  | accept {vector : BitVec 8} {b : Set Irq}
      (hserves : Cascade.Serves (Irq.vector 32 40) 39 a vector b) :
      ServiceStep a (.accept vector) b
  | software (vector : BitVec 8) : ServiceStep a (.software vector) a
  | handle : ServiceStep a .handle a
  | flag (value : Bool) : ServiceStep a (.flag value) a

/-- What is in service while a stub runs is ended by the bytes which its vector
makes `interrupt_handler` send. -/
structure IrqInv (s : Irqs) : Prop where
  configured : s.pics.Configured 32 40
  master : s.pics.master.Single
  slave : s.pics.slave.Single
  idle : s.entering = none → s.pics.master.Idle ∧ s.pics.slave.Idle
  low : ∀ vector, s.entering = some vector → vector < 32 → s.pics.master.Idle
  low' : ∀ vector, s.entering = some vector → vector < 40 → s.pics.slave.Idle

variable {s t : Irqs}

/-! ## `init_8259` -/

theorem int_of_no_request (isr imr : Fin 8 → Bool) (expected : List ℕ)
    (vectorBase cascade : BitVec 8) (autoEoi : Bool) :
    (Pic.mk (fun _ => false) isr imr expected vectorBase cascade
      autoEoi).int = false := by
  rw [Pic.int_eq_false_iff]
  intro j
  simp [Pic.ready]

/-- The controllers after `init_8259`, whatever they were before. -/
theorem after_init8259 (before : Cascade) :
    before.after init8259 =
      ⟨⟨fun _ => false, fun _ => false, fun _ => false, [], 32, 4, false⟩,
        ⟨fun _ => false, fun _ => false, fun _ => false, [], 40, 2, false⟩,
        false⟩ := by
  simp [init8259, Cascade.after, Cascade.out, Pic.command, Pic.data,
    Cascade.settle, int_of_no_request, Pic.withdraw]

theorem init8259_pending (before : Cascade) :
    (before.after init8259).pending = ∅ := by
  rw [after_init8259]
  ext irq
  cases irq <;> simp [Cascade.pending]

theorem init8259_inv (before : Cascade) :
    IrqInv ⟨before.after init8259, false, none⟩ := by
  rw [after_init8259]
  have hidle : ∀ j : Fin 8, (fun _ : Fin 8 => false) j = false := fun _ => rfl
  refine ⟨⟨rfl, rfl, hidle, hidle, rfl, rfl, rfl, ?_, ?_⟩,
    Pic.Idle.single hidle, Pic.Idle.single hidle, fun _ => ⟨hidle, hidle⟩,
    by simp, by simp⟩
  · exact (int_of_no_request ..).symm
  · exact (int_of_no_request ..).symm

/-! ## The steps -/

/-- A change of the requests alone. -/
theorem IrqInv.requests (hs : IrqInv s) {pics : Cascade}
    (hconfigured : pics.Configured 32 40)
    (hmaster : pics.master.isr = s.pics.master.isr)
    (hslave : pics.slave.isr = s.pics.slave.isr) :
    IrqInv { s with pics := pics } := by
  have hidle : s.pics.master.Idle → pics.master.Idle := fun h => by
    unfold Pic.Idle
    rwa [hmaster]
  have hidle' : s.pics.slave.Idle → pics.slave.Idle := fun h => by
    unfold Pic.Idle
    rwa [hslave]
  refine ⟨hconfigured, ?_, ?_, fun hcode => ?_, fun vector hcode hlt => ?_,
    fun vector hcode hlt => ?_⟩
  · unfold Pic.Single
    rw [hmaster]
    exact hs.master
  · unfold Pic.Single
    rw [hslave]
    exact hs.slave
  · exact (hs.idle hcode).imp hidle hidle'
  · exact hidle (hs.low vector hcode hlt)
  · exact hidle' (hs.low' vector hcode hlt)

/-- The vectors of the slave. -/
theorem slave_vector (j : Fin 8) :
    ¬ (40 + BitVec.ofNat 8 j : BitVec 8) < 40 := by
  decide +revert

theorem Serves.vector_ge {a b : Set Irq} {v : BitVec 8}
    (hserves : Cascade.Serves (Irq.vector 32 40) 39 a v b) : ¬ v < 32 := by
  have hge : ∀ j : Fin 8, ¬ (32 + BitVec.ofNat 8 j : BitVec 8) < 32 := by
    decide
  have hge' : ∀ j : Fin 8, ¬ (40 + BitVec.ofNat 8 j : BitVec 8) < 32 := by
    decide
  rcases hserves with ⟨⟨j, hj⟩ | j, _, _, rfl, _⟩ | ⟨_, rfl, _⟩
  · exact hge j
  · exact hge' j
  · decide

theorem IrqInv.accept (hs : IrqInv s) (hcode : s.entering = none) :
    Cascade.Serves (Irq.vector 32 40) 39 s.pics.pending s.pics.acknowledge.2
        s.pics.acknowledge.1.pending ∧
      IrqInv ⟨s.pics.acknowledge.1, false, some s.pics.acknowledge.2⟩ := by
  obtain ⟨hmaster, hslave⟩ := hs.idle hcode
  have hack := hs.configured.acknowledge hmaster hslave
  refine ⟨hack.serves, hack.configured, hack.master, hack.slave, by simp,
    fun vector hvector hlt => ?_, fun vector hvector hlt => ?_⟩
  · obtain rfl := Option.some.inj hvector
    exact absurd hlt (Serves.vector_ge hack.serves)
  · obtain rfl := Option.some.inj hvector
    rcases hack.low with hidle | ⟨j, hj⟩
    · exact hidle
    · rw [hj] at hlt
      exact absurd hlt (slave_vector j)

theorem eoi_of_vector {H : Type} (handlers : Word → Option H) {regs : PtRegs}
    {vector : BitVec 8} (hregs : regs.int_no = vector.setWidth 32) :
    (interruptHandler handlers regs).1 =
      if vector < 32 then []
      else if vector < 40 then [(0x20, 0x20)]
      else [(0xA0, 0x20), (0x20, 0x20)] := by
  have hnat : regs.int_no = BitVec.ofNat 32 vector.toNat :=
    hregs.trans (BitVec.ofNat_toNat ..).symm
  have h32 : 32 ≤ vector.toNat ↔ ¬ vector < 32 := by bv_omega
  have h40 : 40 ≤ vector.toNat ↔ ¬ vector < 40 := by bv_omega
  rw [vector_handled handlers hnat (by bv_omega)]
  simp only [h32, h40, ite_not]
  split_ifs <;> rfl

/-- After the bytes that `interrupt_handler` sends nothing is in service. -/
theorem IrqInv.handle {H : Type} (handlers : Word → Option H)
    {vector : BitVec 8} {regs : PtRegs} (hs : IrqInv s)
    (hcode : s.entering = some vector)
    (hregs : regs.int_no = vector.setWidth 32) :
    (s.pics.after (interruptHandler handlers regs).1).pending =
        s.pics.pending ∧
      IrqInv ⟨s.pics.after (interruptHandler handlers regs).1, false, none⟩ := by
  have hdone : ∀ pics : Cascade, pics.Configured 32 40 → pics.master.Idle →
      pics.slave.Idle → IrqInv ⟨pics, false, none⟩ :=
    fun pics hconfigured hmaster hslave => ⟨hconfigured, hmaster.single,
      hslave.single, fun _ => ⟨hmaster, hslave⟩, by simp, by simp⟩
  rw [eoi_of_vector handlers hregs]
  split_ifs with hlow hmaster
  · have hlt : vector < 40 := by bv_omega
    exact ⟨rfl, hdone _ hs.configured (hs.low vector hcode hlow)
      (hs.low' vector hcode hlt)⟩
  · obtain ⟨hconfigured, hpending, hslave, hidle⟩ := hs.configured.endMaster
    refine ⟨hpending, hdone _ hconfigured (hidle hs.master) ?_⟩
    change (s.pics.out 0x20 0x20).slave.Idle
    rw [hslave]
    exact hs.low' vector hcode hmaster
  · obtain ⟨hconfigured, hpending, hisr, hidle⟩ := hs.configured.endSlave
    obtain ⟨hconfigured', hpending', hslave, hidle'⟩ := hconfigured.endMaster
    refine ⟨hpending'.trans hpending, hdone _ hconfigured' (hidle' ?_) ?_⟩
    · unfold Pic.Single
      rw [hisr]
      exact hs.master
    · change ((s.pics.out 0xA0 0x20).out 0x20 0x20).slave.Idle
      rw [hslave]
      exact hidle hs.slave

theorem IrqInv.step {a : IrqAct} (hs : IrqInv s) (hstep : IrqStep s a t) :
    IrqInv t ∧ ServiceStep s.pics.pending a t.pics.pending := by
  cases hstep with
  | raise irq =>
      obtain ⟨hconfigured, hpending, hmaster, hslave⟩ := hs.configured.raise irq
      refine ⟨hs.requests hconfigured hmaster hslave, ?_⟩
      rw [hpending]
      exact .raise irq
  | withdraw irq =>
      obtain ⟨hconfigured, hpending, hmaster, hslave⟩ :=
        hs.configured.withdraw irq
      refine ⟨hs.requests hconfigured hmaster hslave, ?_⟩
      rw [hpending]
      exact .withdraw irq
  | accept hflag hcode =>
      obtain ⟨hserves, hinv⟩ := hs.accept hcode
      exact ⟨hinv, .accept hserves⟩
  | software vector hcode =>
      obtain ⟨hmaster, hslave⟩ := hs.idle hcode
      exact ⟨⟨hs.configured, hs.master, hs.slave, by simp, fun _ _ _ => hmaster,
        fun _ _ _ => hslave⟩, .software vector⟩
  | handle handlers regs hcode hregs =>
      obtain ⟨hpending, hinv⟩ := hs.handle handlers hcode hregs
      refine ⟨hinv, ?_⟩
      rw [hpending]
      exact .handle
  | flag value hcode =>
      exact ⟨⟨hs.configured, hs.master, hs.slave, hs.idle, hs.low, hs.low'⟩,
        .flag value⟩

/-- Controllers as the BIOS sets them up, with a request in service. -/
def biosPics : Cascade :=
  ⟨⟨fun _ => false, fun j => j.val = 1, fun _ => false, [], 8, 4, false⟩,
    ⟨fun _ => false, fun _ => false, fun _ => true, [], 0x70, 2, false⟩, false⟩

end Interrupt
end OS32
