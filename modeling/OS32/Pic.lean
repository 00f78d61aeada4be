import Mathlib.Tactic

/-!
# Two cascaded interrupt controllers

An 8259A has eight request lines, of which line 0 has the highest priority.  A
request stays in service from its acknowledgement until the processor signals
the end of the interrupt, and meanwhile keeps requests of the same and of lower
priority back.  The output of a second controller is wired to line 2 of the
first one, which notices rising edges only.
-/

/-- One controller.  `expected` are the initialisation words still to come. -/
structure Pic where
  irr : Fin 8 → Bool
  isr : Fin 8 → Bool
  imr : Fin 8 → Bool
  expected : List ℕ
  vectorBase : BitVec 8
  cascade : BitVec 8
  autoEoi : Bool

namespace Pic

/-- A request that nothing in service keeps back. -/
def ready (p : Pic) (j : Fin 8) : Bool :=
  p.irr j && !p.imr j && (Fin.find? fun k => decide (k ≤ j) && p.isr k).isNone

/-- The level of the output. -/
def int (p : Pic) : Bool := (Fin.find? p.ready).isSome

def raise (p : Pic) (j : Fin 8) : Pic :=
  { p with irr := Function.update p.irr j true }

/-- The line goes low before the request has been acknowledged. -/
def withdraw (p : Pic) (j : Fin 8) : Pic :=
  { p with irr := Function.update p.irr j false }

/-- The acknowledgement by the processor.  Line 7 stands for a request that is
there no more. -/
def acknowledge (p : Pic) : Pic × Fin 8 :=
  match Fin.find? p.ready with
  | some j => ({ p with
      irr := Function.update p.irr j false
      isr := if p.autoEoi then p.isr else Function.update p.isr j true }, j)
  | none => (p, 7)

/-- The request of the highest priority in service ends. -/
def endOfInterrupt (p : Pic) : Pic :=
  match Fin.find? p.isr with
  | some j => { p with isr := Function.update p.isr j false }
  | none => p

/-- A byte for the command port: the first initialisation word, or the end of
an interrupt; the other commands are left out. -/
def command (p : Pic) (value : BitVec 8) : Pic :=
  if value.getLsbD 4 then { p with
    irr := fun _ => false
    isr := fun _ => false
    imr := fun _ => false
    expected := 2 :: ((if value.getLsbD 1 then [] else [3]) ++
      if value.getLsbD 0 then [4] else [])
    autoEoi := false }
  else if value = 0x20 then p.endOfInterrupt
  else p

/-- A byte for the data port: the next initialisation word, or the mask. -/
def data (p : Pic) (value : BitVec 8) : Pic :=
  match p.expected with
  | [] => { p with imr := fun j => value.getLsbD j }
  | word :: words =>
      let p := { p with expected := words }
      if word = 2 then { p with vectorBase := value &&& 0xF8 }
      else if word = 3 then { p with cascade := value }
      else { p with autoEoi := value.getLsbD 1 }

/-- Nothing is in service. -/
def Idle (p : Pic) : Prop := ∀ j, p.isr j = false

/-- At most one request is in service. -/
def Single (p : Pic) : Prop := ∀ i j, p.isr i = true → p.isr j = true → i = j

variable {p : Pic} {j k : Fin 8}

theorem ready_iff : p.ready j = true ↔
    p.irr j = true ∧ p.imr j = false ∧ ∀ k ≤ j, p.isr k = false := by
  simp only [ready, Bool.and_eq_true, Bool.not_eq_true', Fin.isNone_find?_iff,
    Bool.and_eq_false_iff, decide_eq_false_iff_not, and_assoc]
  refine and_congr_right fun _ => and_congr_right fun _ => forall_congr' fun k => ?_
  tauto

theorem int_iff : p.int = true ↔ ∃ j, p.ready j = true := by
  rw [int, Fin.isSome_find?_iff]

theorem int_eq_false_iff : p.int = false ↔ ∀ j, p.ready j = false := by
  rw [← Bool.not_eq_true, int_iff, not_exists]
  simp only [Bool.not_eq_true]

theorem acknowledge_none (hnone : p.int = false) : p.acknowledge = (p, 7) := by
  have hfind : Fin.find? p.ready = none :=
    Fin.find?_eq_none_iff.mpr (int_eq_false_iff.mp hnone)
  rw [acknowledge, hfind]

/-- The request of the highest priority is acknowledged. -/
theorem acknowledge_some (hint : p.int = true) :
    ∃ j, p.ready j = true ∧ (∀ k < j, p.ready k = false) ∧
      p.acknowledge = ({ p with
        irr := Function.update p.irr j false
        isr := if p.autoEoi then p.isr else Function.update p.isr j true }, j) := by
  obtain ⟨j, hj⟩ := Option.isSome_iff_exists.mp hint
  obtain ⟨hready, hleast⟩ := Fin.find?_eq_some_iff.mp hj
  exact ⟨j, hready, hleast, by rw [acknowledge, hj]⟩

/-- While its acknowledged request is in service the output is low. -/
theorem int_acknowledge (hauto : p.autoEoi = false) :
    p.acknowledge.1.int = false := by
  cases hint : p.int with
  | false => rw [acknowledge_none hint, hint]
  | true =>
      obtain ⟨j, hready, hleast, hack⟩ := acknowledge_some hint
      rw [hack, hauto, int_eq_false_iff]
      intro k
      rw [← Bool.not_eq_true, ready_iff]
      rintro ⟨hirr, himr, hfree⟩
      dsimp only at hirr himr hfree
      rcases lt_or_ge k j with hlt | hle
      · rw [Function.update_of_ne hlt.ne] at hirr
        have hbefore := hleast k hlt
        rw [← Bool.not_eq_true, ready_iff] at hbefore
        have hisr := (ready_iff.mp hready).2.2
        exact hbefore ⟨hirr, himr, fun i hi => hisr i (hi.trans hlt.le)⟩
      · simpa using hfree j hle

theorem Single.acknowledge (hidle : p.Idle) : p.acknowledge.1.Single := by
  intro i j hi hj
  cases hint : p.int with
  | false =>
      rw [acknowledge_none hint] at hi
      simp [hidle i] at hi
  | true =>
      obtain ⟨m, _, _, hack⟩ := acknowledge_some hint
      rw [hack] at hi hj
      dsimp only at hi hj
      split_ifs at hi hj
      · simp [hidle i] at hi
      · have hone : ∀ k, Function.update p.isr m true k = true → k = m := by
          intro k hk
          by_contra hne
          simp [Function.update_of_ne hne, hidle k] at hk
        rw [hone i hi, hone j hj]

/-- One end of interrupt is enough for one request in service. -/
theorem Single.idle (hp : p.Single) : p.endOfInterrupt.Idle := by
  intro j
  cases hfind : Fin.find? p.isr with
  | none =>
      rw [endOfInterrupt, hfind]
      exact Fin.find?_eq_none_iff.mp hfind j
  | some i =>
      rw [endOfInterrupt, hfind]
      by_cases hj : j = i
      · simp [hj]
      · have hi := (Fin.find?_eq_some_iff.mp hfind).1
        simp only [Function.update_of_ne hj]
        rw [← Bool.not_eq_true]
        exact fun hisr => hj (hp j i hisr hi)

/-- The end of an interrupt changes nothing but what is in service. -/
theorem endOfInterrupt_eq (p : Pic) :
    ∃ isr, p.endOfInterrupt = { p with isr := isr } := by
  unfold endOfInterrupt
  split
  · exact ⟨_, rfl⟩
  · exact ⟨p.isr, rfl⟩

theorem command_eoi (p : Pic) : p.command 0x20 = p.endOfInterrupt := by
  simp [command]

theorem Idle.single (hp : p.Idle) : p.Single := by
  intro i j hi
  simp [hp i] at hi

end Pic

/-! ## The cascade -/

/-- `line` is the level of the slave's output when the master last looked. -/
structure Cascade where
  master : Pic
  slave : Pic
  line : Bool

/-- A request line that leads to a device. -/
inductive Irq where
  | master (j : Fin 8) (hj : j ≠ 2)
  | slave (j : Fin 8)

/-- The slave's lines come in place of line 2. -/
def Irq.rank : Irq → ℕ
  | .master j _ => 8 * j
  | .slave j => 16 + j

def Irq.vector (base base' : BitVec 8) : Irq → BitVec 8
  | .master j _ => base + BitVec.ofNat 8 j
  | .slave j => base' + BitVec.ofNat 8 j

namespace Cascade

/-- The master sees the slave's output. -/
def settle (c : Cascade) : Cascade :=
  { c with
    master := if c.slave.int then
        if c.line then c.master else c.master.raise 2
      else c.master.withdraw 2
    line := c.slave.int }

def raise (c : Cascade) : Irq → Cascade
  | .master j _ => { c with master := c.master.raise j }
  | .slave j => { c with slave := c.slave.raise j }.settle

def withdraw (c : Cascade) : Irq → Cascade
  | .master j _ => { c with master := c.master.withdraw j }
  | .slave j => { c with slave := c.slave.withdraw j }.settle

/-- The vector for the processor; the slave supplies it for its line. -/
def acknowledge (c : Cascade) : Cascade × BitVec 8 :=
  let (master, j) := c.master.acknowledge
  if master.cascade.getLsbD j then
    let (slave, k) := c.slave.acknowledge
    ({ c with master := master, slave := slave }.settle,
      slave.vectorBase + BitVec.ofNat 8 k)
  else ({ c with master := master }, master.vectorBase + BitVec.ofNat 8 j)

/-- A byte for a port. -/
def out (c : Cascade) (port : BitVec 32) (value : BitVec 8) : Cascade :=
  if port = 0x20 then { c with master := c.master.command value }
  else if port = 0x21 then { c with master := c.master.data value }
  else if port = 0xA0 then { c with slave := c.slave.command value }.settle
  else if port = 0xA1 then { c with slave := c.slave.data value }.settle
  else c

def after (c : Cascade) (ports : List (BitVec 32 × BitVec 8)) : Cascade :=
  ports.foldl (fun c sent => c.out sent.1 sent.2) c

/-- The devices that wait to be acknowledged. -/
def pending (c : Cascade) : Set Irq :=
  {irq | match irq with
    | .master j _ => c.master.irr j = true
    | .slave j => c.slave.irr j = true}

/-- Initialised with vectors from `base` and `base'` on, and nothing masked. -/
structure Configured (c : Cascade) (base base' : BitVec 8) : Prop where
  masterBase : c.master.vectorBase = base
  slaveBase : c.slave.vectorBase = base'
  masterMask : ∀ j, c.master.imr j = false
  slaveMask : ∀ j, c.slave.imr j = false
  masterEoi : c.master.autoEoi = false
  slaveEoi : c.slave.autoEoi = false
  cascade : c.master.cascade = 4
  line : c.line = c.slave.int
  linked : c.master.irr 2 = c.slave.int

/-- What the processor gets: the request of the highest priority, or the
vector `spurious` where there is none. -/
def Serves (vector : Irq → BitVec 8) (spurious : BitVec 8) (a : Set Irq)
    (v : BitVec 8) (b : Set Irq) : Prop :=
  (∃ irq ∈ a, (∀ other ∈ a, irq.rank ≤ other.rank) ∧ v = vector irq ∧
    b = a \ {irq}) ∨
  (a = ∅ ∧ v = spurious ∧ b = a)

variable {c : Cascade} {base base' : BitVec 8} {irq : Irq}

/-- The first controller has seen the rising edge of a request that waits. -/
theorem settle_linked (hseen : c.slave.int = true → c.line = true →
    c.master.irr 2 = true) :
    c.settle.line = c.settle.slave.int ∧
      c.settle.master.irr 2 = c.settle.slave.int := by
  refine ⟨rfl, ?_⟩
  unfold settle
  cases hint : c.slave.int with
  | false => simp [Pic.withdraw]
  | true =>
      cases hline : c.line with
      | false => simp [Pic.raise]
      | true => simpa using hseen hint hline

theorem settle_master_irr {j : Fin 8} (hj : j ≠ 2) :
    c.settle.master.irr j = c.master.irr j := by
  unfold settle
  split_ifs <;> simp [Pic.raise, Pic.withdraw, Function.update_of_ne hj]

/-- Looking at the line changes line 2 only. -/
theorem settle_master_eq (c : Cascade) :
    ∃ irr, c.settle.master = { c.master with irr := irr } := by
  unfold settle
  split_ifs
  · exact ⟨c.master.irr, rfl⟩
  · exact ⟨_, rfl⟩
  · exact ⟨_, rfl⟩

@[simp] theorem settle_master_isr (c : Cascade) :
    c.settle.master.isr = c.master.isr := by
  obtain ⟨irr, hmaster⟩ := c.settle_master_eq
  rw [hmaster]

@[simp] theorem settle_slave (c : Cascade) : c.settle.slave = c.slave := rfl

theorem settle_pending (c : Cascade) : c.settle.pending = c.pending := by
  ext irq
  cases irq with
  | master j hj => simp [pending, settle_master_irr hj]
  | slave j => rfl

/-- What keeps the settings keeps the cascade configured once the line has been
looked at. -/
theorem Configured.settle {d : Cascade} (hc : c.Configured base base')
    (hmaster : ∃ irr isr, d.master = { c.master with irr := irr, isr := isr })
    (hslave : ∃ irr isr, d.slave = { c.slave with irr := irr, isr := isr })
    (hseen : d.slave.int = true → d.line = true → d.master.irr 2 = true) :
    d.settle.Configured base base' := by
  obtain ⟨hline, hlinked⟩ := settle_linked hseen
  obtain ⟨irr, hsettle⟩ := d.settle_master_eq
  obtain ⟨_, _, hmaster⟩ := hmaster
  obtain ⟨_, _, hslave⟩ := hslave
  refine ⟨?_, ?_, ?_, ?_, ?_, ?_, ?_, hline, hlinked⟩
  · rw [hsettle, hmaster]
    exact hc.masterBase
  · rw [settle_slave, hslave]
    exact hc.slaveBase
  · rw [hsettle, hmaster]
    exact hc.masterMask
  · rw [settle_slave, hslave]
    exact hc.slaveMask
  · rw [hsettle, hmaster]
    exact hc.masterEoi
  · rw [settle_slave, hslave]
    exact hc.slaveEoi
  · rw [hsettle, hmaster]
    exact hc.cascade

/-- A change at the other lines of the master. -/
theorem Configured.setMaster {irr isr : Fin 8 → Bool}
    (hc : c.Configured base base') (hirr : irr 2 = c.master.irr 2) :
    Configured { c with master := { c.master with irr := irr, isr := isr } }
      base base' :=
  ⟨hc.masterBase, hc.slaveBase, hc.masterMask, hc.slaveMask, hc.masterEoi,
    hc.slaveEoi, hc.cascade, hc.line, hirr.trans hc.linked⟩

/-! ## Requests -/

theorem Configured.raise (hc : c.Configured base base') (irq : Irq) :
    (c.raise irq).Configured base base' ∧
      (c.raise irq).pending = insert irq c.pending ∧
      (c.raise irq).master.isr = c.master.isr ∧
      (c.raise irq).slave.isr = c.slave.isr := by
  cases irq with
  | master j hj =>
      refine ⟨hc.setMaster (Function.update_of_ne hj.symm ..), ?_, rfl, rfl⟩
      ext other
      cases other with
      | master k hk =>
          rcases eq_or_ne k j with rfl | hne
          · simp [Cascade.raise, pending, Pic.raise]
          · simp [Cascade.raise, pending, Pic.raise, hne]
      | slave k => simp [Cascade.raise, pending]
  | slave j =>
      refine ⟨hc.settle ⟨_, _, rfl⟩ ⟨_, _, rfl⟩ fun _ hline => ?_, ?_, ?_, rfl⟩
      · rw [hc.linked, ← hc.line]
        exact hline
      · rw [Cascade.raise, settle_pending]
        ext other
        cases other with
        | master k hk => simp [pending]
        | slave k =>
            rcases eq_or_ne k j with rfl | hne
            · simp [pending, Pic.raise]
            · simp [pending, Pic.raise, hne]
      · rw [Cascade.raise, settle_master_isr]

theorem Configured.withdraw (hc : c.Configured base base') (irq : Irq) :
    (c.withdraw irq).Configured base base' ∧
      (c.withdraw irq).pending = c.pending \ {irq} ∧
      (c.withdraw irq).master.isr = c.master.isr ∧
      (c.withdraw irq).slave.isr = c.slave.isr := by
  cases irq with
  | master j hj =>
      refine ⟨hc.setMaster (Function.update_of_ne hj.symm ..), ?_, rfl, rfl⟩
      ext other
      cases other with
      | master k hk =>
          rcases eq_or_ne k j with rfl | hne
          · simp [Cascade.withdraw, pending, Pic.withdraw]
          · simp [Cascade.withdraw, pending, Pic.withdraw, hne]
      | slave k => simp [Cascade.withdraw, pending]
  | slave j =>
      refine ⟨hc.settle ⟨_, _, rfl⟩ ⟨_, _, rfl⟩ fun _ hline => ?_, ?_, ?_, rfl⟩
      · rw [hc.linked, ← hc.line]
        exact hline
      · rw [Cascade.withdraw, settle_pending]
        ext other
        cases other with
        | master k hk => simp [pending]
        | slave k =>
            rcases eq_or_ne k j with rfl | hne
            · simp [pending, Pic.withdraw]
            · simp [pending, Pic.withdraw, hne]
      · rw [Cascade.withdraw, settle_master_isr]

/-! ## Acknowledgement and end of interrupt -/

theorem ready_of_idle {p : Pic} (hidle : p.Idle) (hmask : ∀ j, p.imr j = false)
    (j : Fin 8) : p.ready j = p.irr j := by
  rw [Bool.eq_iff_iff, Pic.ready_iff]
  simp [hmask j, hidle _]

theorem acknowledge_direct {master : Pic} {j : Fin 8}
    (hack : c.master.acknowledge = (master, j))
    (hdirect : master.cascade.getLsbD j = false) :
    c.acknowledge = ({ c with master := master },
      master.vectorBase + BitVec.ofNat 8 j) := by
  rw [Cascade.acknowledge, hack]
  simp only [hdirect, Bool.false_eq_true, if_false]

theorem acknowledge_through {master : Pic} {j : Fin 8}
    (hack : c.master.acknowledge = (master, j))
    (hthrough : master.cascade.getLsbD j = true) :
    c.acknowledge = (settle { c with
        master := master
        slave := c.slave.acknowledge.1 },
      c.slave.acknowledge.1.vectorBase +
        BitVec.ofNat 8 c.slave.acknowledge.2) := by
  rw [Cascade.acknowledge, hack]
  simp only [hthrough, if_true]

/-- Only line 2 leads to the slave. -/
theorem cascade_bit (j : Fin 8) :
    (4 : BitVec 8).getLsbD j = decide (j = 2) := by
  decide +revert

/-- The processor has got the vector `v` of the request of the highest
priority. -/
structure Acknowledged (c d : Cascade) (base base' v : BitVec 8) : Prop where
  configured : d.Configured base base'
  serves : Serves (Irq.vector base base') (base + 7) c.pending v d.pending
  master : d.master.Single
  slave : d.slave.Single
  low : d.slave.Idle ∨ ∃ j : Fin 8, v = base' + BitVec.ofNat 8 j

theorem Configured.acknowledge_none (hc : c.Configured base base')
    (hmaster : c.master.Idle) (hslave : c.slave.Idle)
    (hint : c.master.int = false) :
    Acknowledged c c.acknowledge.1 base base' c.acknowledge.2 := by
  have hnone : ∀ j, c.master.irr j = false := fun j => by
    rw [← ready_of_idle hmaster hc.masterMask]
    exact Pic.int_eq_false_iff.mp hint j
  have hnone' : ∀ j, c.slave.irr j = false := fun j => by
    rw [← ready_of_idle hslave hc.slaveMask]
    exact Pic.int_eq_false_iff.mp (hc.linked.symm.trans (hnone 2)) j
  rw [acknowledge_direct (Pic.acknowledge_none hint)
    (by rw [hc.cascade, cascade_bit]; rfl)]
  refine ⟨hc, Or.inr ⟨?_, by rw [hc.masterBase]; rfl, rfl⟩, hmaster.single,
    hslave.single, Or.inl hslave⟩
  ext irq
  cases irq with
  | master j hj => simp [pending, hnone]
  | slave j => simp [pending, hnone']

/-- A request at a line of the master that does not lead to the slave. -/
theorem Configured.acknowledge_master (hc : c.Configured base base')
    (hmaster : c.master.Idle) (hslave : c.slave.Idle) {j : Fin 8} (htwo : j ≠ 2)
    (hj : c.master.irr j = true) (hleast : ∀ k < j, c.master.irr k = false)
    {isr : Fin 8 → Bool} (hack : c.master.acknowledge = ({ c.master with
      irr := Function.update c.master.irr j false, isr := isr }, j)) :
    Acknowledged c c.acknowledge.1 base base' c.acknowledge.2 := by
  have hsingle := Pic.Single.acknowledge hmaster
  rw [hack] at hsingle
  rw [acknowledge_direct hack (by rw [hc.cascade, cascade_bit]; simpa using htwo)]
  refine ⟨hc.setMaster (Function.update_of_ne (Ne.symm htwo) ..),
    Or.inl ⟨.master j htwo, hj, ?_, by rw [hc.masterBase]; rfl, ?_⟩,
    hsingle, hslave.single, Or.inl hslave⟩
  · rintro (⟨i, hi⟩ | i) hother
    · have hge : ¬ i < j := fun hlt => by
        simp [pending, hleast i hlt] at hother
      simp only [Irq.rank]
      omega
    · have hint : c.slave.int = true :=
        Pic.int_iff.mpr ⟨i, (ready_of_idle hslave hc.slaveMask i).trans hother⟩
      have hge : ¬ 2 < j := fun hlt => by
        have hlinked := hc.linked
        rw [hleast 2 hlt, hint] at hlinked
        cases hlinked
      simp only [Irq.rank]
      omega
  · ext other
    cases other with
    | master k hk =>
        rcases eq_or_ne k j with rfl | hne
        · simp [pending]
        · simp [pending, hne]
    | slave k => simp [pending]

/-- A request at line 2 is one of the slave. -/
theorem Configured.acknowledge_slave (hc : c.Configured base base')
    (hmaster : c.master.Idle) (hslave : c.slave.Idle)
    (htwo : c.master.irr 2 = true) (hleast : ∀ k < 2, c.master.irr k = false)
    {isr : Fin 8 → Bool} (hack : c.master.acknowledge = ({ c.master with
      irr := Function.update c.master.irr 2 false, isr := isr }, 2)) :
    Acknowledged c c.acknowledge.1 base base' c.acknowledge.2 := by
  have hready := ready_of_idle hslave hc.slaveMask
  have hsingle := Pic.Single.acknowledge hmaster
  have hsingle' := Pic.Single.acknowledge hslave
  have hlow := Pic.int_acknowledge hc.slaveEoi
  obtain ⟨k, hk, hleast', hack'⟩ :=
    Pic.acknowledge_some (hc.linked.symm.trans htwo)
  rw [acknowledge_through hack (by rw [hc.cascade, cascade_bit]; rfl)]
  rw [hack] at hsingle
  rw [hack'] at hsingle' hlow ⊢
  simp only [hready] at hk hleast'
  refine ⟨hc.settle ⟨_, _, rfl⟩ ⟨_, _, rfl⟩ fun hhigh => ?_,
    Or.inl ⟨.slave k, hk, ?_, by rw [hc.slaveBase]; rfl, ?_⟩, ?_, hsingle',
    Or.inr ⟨k, by rw [hc.slaveBase]⟩⟩
  · exact absurd (hlow.symm.trans hhigh) Bool.false_ne_true
  · rintro (⟨i, hi⟩ | i) hother
    · have hge : ¬ i < 2 := fun hlt => by
        simp [pending, hleast i hlt] at hother
      simp only [Irq.rank]
      omega
    · have hge : ¬ i < k := fun hlt => by
        simp [pending, hleast' i hlt] at hother
      simp only [Irq.rank]
      omega
  · rw [settle_pending]
    ext other
    cases other with
    | master i hi => simp [pending, Function.update_of_ne hi]
    | slave i =>
        rcases eq_or_ne i k with rfl | hne
        · simp [pending]
        · simp [pending, hne]
  · rw [Pic.Single, settle_master_isr]
    exact hsingle

/-- With nothing in service the processor gets the request of the highest
priority. -/
theorem Configured.acknowledge (hc : c.Configured base base')
    (hmaster : c.master.Idle) (hslave : c.slave.Idle) :
    Acknowledged c c.acknowledge.1 base base' c.acknowledge.2 := by
  cases hint : c.master.int with
  | false => exact hc.acknowledge_none hmaster hslave hint
  | true =>
      obtain ⟨j, hj, hleast, hack⟩ := Pic.acknowledge_some hint
      simp only [ready_of_idle hmaster hc.masterMask] at hj hleast
      by_cases htwo : j = 2
      · subst htwo
        exact hc.acknowledge_slave hmaster hslave hj hleast hack
      · exact hc.acknowledge_master hmaster hslave htwo hj hleast hack

theorem Configured.endMaster (hc : c.Configured base base') :
    (c.out 0x20 0x20).Configured base base' ∧
      (c.out 0x20 0x20).pending = c.pending ∧
      (c.out 0x20 0x20).slave = c.slave ∧
      (c.master.Single → (c.out 0x20 0x20).master.Idle) := by
  have hout : c.out 0x20 0x20 =
      { c with master := c.master.endOfInterrupt } := by
    rw [out, if_pos rfl, Pic.command_eoi]
  obtain ⟨isr, heoi⟩ := c.master.endOfInterrupt_eq
  rw [hout]
  refine ⟨?_, ?_, rfl, fun hsingle => hsingle.idle⟩
  · rw [heoi]
    exact hc.setMaster rfl
  · rw [heoi]
    rfl

theorem Configured.endSlave (hc : c.Configured base base') :
    (c.out 0xA0 0x20).Configured base base' ∧
      (c.out 0xA0 0x20).pending = c.pending ∧
      (c.out 0xA0 0x20).master.isr = c.master.isr ∧
      (c.slave.Single → (c.out 0xA0 0x20).slave.Idle) := by
  have hout : c.out 0xA0 0x20 =
      Cascade.settle { c with slave := c.slave.endOfInterrupt } := by
    rw [out, if_neg (by decide), if_neg (by decide), if_pos rfl,
      Pic.command_eoi]
  obtain ⟨isr, heoi⟩ := c.slave.endOfInterrupt_eq
  rw [hout]
  refine ⟨hc.settle ⟨_, _, rfl⟩ ⟨_, _, heoi⟩ fun _ hline => ?_, ?_, ?_,
    fun hsingle => hsingle.idle⟩
  · rw [hc.linked, ← hc.line]
    exact hline
  · rw [settle_pending, heoi]
    rfl
  · rw [settle_master_isr]

/-- With nothing in service the processor is asked just if a device waits. -/
theorem Configured.int_iff (hc : c.Configured base base')
    (hmaster : c.master.Idle) (hslave : c.slave.Idle) :
    c.master.int = true ↔ c.pending.Nonempty := by
  have hready := ready_of_idle hmaster hc.masterMask
  have hready' := ready_of_idle hslave hc.slaveMask
  rw [Pic.int_iff]
  constructor
  · rintro ⟨j, hj⟩
    rw [hready] at hj
    by_cases htwo : j = 2
    · subst htwo
      obtain ⟨k, hk⟩ := Pic.int_iff.mp (hc.linked.symm.trans hj)
      exact ⟨.slave k, (hready' k).symm.trans hk⟩
    · exact ⟨.master j htwo, hj⟩
  · rintro ⟨⟨j, hj⟩ | k, hirq⟩
    · exact ⟨j, (hready j).trans hirq⟩
    · refine ⟨2, (hready 2).trans (hc.linked.trans ?_)⟩
      exact Pic.int_iff.mpr ⟨k, (hready' k).trans hirq⟩

end Cascade
