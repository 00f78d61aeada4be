import OS32.Basic
import OS32.Run

/-!
# The ring buffer of `ioqueue.c`

`ioq_putchar` on a queue that is not full and `ioq_getchar` on one that is not
empty do not wait.  Whatever the order of such calls, the queue hands out the
bytes that were put in, in their order, and holds up to `buf_size - 1` of them.
-/

namespace OS32

open Transition

namespace Ioq

/-- `char`. -/
abbrev Byte := BitVec 8

def bufSize : ℤ := 1024

/-- `ioqueue_t` without its lock; a thread stands for its
`proc_struct_t *`. -/
structure Ioqueue (τ : Type*) where
  producer : Option τ
  consumer : Option τ
  buf : ℤ → Byte
  head : ℤ
  tail : ℤ

variable {τ : Type*}

/-- `ioqueue_init`, on a queue with the bytes `buf`. -/
def ioqueueInit (buf : ℤ → Byte) : Ioqueue τ := ⟨none, none, buf, 0, 0⟩

def nextPos (pos : ℤ) : ℤ := (pos + 1).tmod bufSize

def ioqFull (ioq : Ioqueue τ) : Bool := nextPos ioq.head = ioq.tail

def ioqEmpty (ioq : Ioqueue τ) : Bool := ioq.head = ioq.tail

/-- `ioq->buf[ioq->head] = byte; ioq->head = next_pos(ioq->head);` -/
def store (ioq : Ioqueue τ) (byte : Byte) : Ioqueue τ :=
  { ioq with
    buf := Function.update ioq.buf ioq.head byte
    head := nextPos ioq.head }

/-- `byte = ioq->buf[ioq->tail]; ioq->tail = next_pos(ioq->tail);` -/
def take (ioq : Ioqueue τ) : Byte × Ioqueue τ :=
  (ioq.buf ioq.tail, { ioq with tail := nextPos ioq.tail })

/-- `ioq_putchar` on a queue that is not full, and the thread it passes to
`thread_unblock`. -/
def ioqPutchar (ioq : Ioqueue τ) (byte : Byte) : Ioqueue τ × Option τ :=
  let ioq := store ioq byte
  ({ ioq with consumer := none }, ioq.consumer)

/-- `ioq_getchar` on a queue that is not empty, and the thread it passes to
`thread_unblock`. -/
def ioqGetchar (ioq : Ioqueue τ) : Byte × Ioqueue τ × Option τ :=
  let (byte, ioq) := take ioq
  (byte, { ioq with producer := none }, ioq.producer)

/-! ## Runs -/

inductive Call where
  | put (byte : Byte)
  | get

/-- A queue and the bytes that went in and out so far. -/
structure State (τ : Type*) where
  ioq : Ioqueue τ
  put : List Byte
  got : List Byte

/-- The calls that do not wait. -/
def step (s : State τ) : Call → Option (State τ)
  | .put byte =>
      if ioqFull s.ioq then none
      else some { s with
        ioq := (ioqPutchar s.ioq byte).1
        put := s.put ++ [byte] }
  | .get =>
      if ioqEmpty s.ioq then none
      else some { s with
        ioq := (ioqGetchar s.ioq).2.1
        got := s.got ++ [(ioqGetchar s.ioq).1] }

def initial (buf : ℤ → Byte) : State τ := ⟨ioqueueInit buf, [], []⟩

/-! ## The invariant -/

/-- The slot of the `i`-th byte. -/
def slot (i : ℕ) : ℤ := ((i % 1024 : ℕ) : ℤ)

theorem nextPos_slot (i : ℕ) : nextPos (slot i) = slot (i + 1) := by
  unfold nextPos slot bufSize
  rw [Int.tmod_eq_emod_of_nonneg (by omega)]
  omega

theorem slot_eq_iff {i j : ℕ} (hle : i ≤ j) (hnear : j < i + 1024) :
    slot j = slot i ↔ j = i := by
  unfold slot
  omega

/-- `head` and `tail` count the bytes put and got, and the slots between them
hold the bytes that are still to come. -/
structure Inv (s : State τ) : Prop where
  head : s.ioq.head = slot s.put.length
  tail : s.ioq.tail = slot s.got.length
  room : s.put.length ≤ s.got.length + 1023
  order : s.got <+: s.put
  held : ∀ i (hi : i < s.put.length), s.got.length ≤ i →
    s.ioq.buf (slot i) = s.put[i]

variable {s s' : State τ}

theorem initial_inv (buf : ℤ → Byte) : Inv (initial (τ := τ) buf) where
  head := rfl
  tail := rfl
  room := by simp [initial]
  order := List.prefix_refl _
  held := by simp [initial]

theorem Inv.length_le (hs : Inv s) : s.got.length ≤ s.put.length :=
  hs.order.length_le

theorem Inv.empty_iff (hs : Inv s) :
    ioqEmpty s.ioq = true ↔ s.put.length - s.got.length = 0 := by
  have hle := hs.length_le
  have hroom := hs.room
  simp only [ioqEmpty, decide_eq_true_eq]
  rw [hs.head, hs.tail, slot_eq_iff hle (by omega)]
  omega

theorem Inv.full_iff (hs : Inv s) :
    ioqFull s.ioq = true ↔ s.put.length - s.got.length = 1023 := by
  have hle := hs.length_le
  have hroom := hs.room
  simp only [ioqFull, decide_eq_true_eq]
  rw [hs.head, hs.tail, nextPos_slot]
  unfold slot
  omega

theorem Inv.put (hs : Inv s) {byte : Byte}
    (hstep : step s (.put byte) = some s') : Inv s' := by
  have hle := hs.length_le
  have hroom := hs.room
  dsimp only [Ioq.step] at hstep
  split at hstep
  next => cases hstep
  next hfull =>
    obtain rfl := Option.some.inj hstep
    rw [hs.full_iff] at hfull
    constructor
    · simp only [ioqPutchar, store, List.length_append, List.length_singleton]
      rw [hs.head, nextPos_slot]
    · exact hs.tail
    · simp only [List.length_append, List.length_singleton]
      omega
    · exact hs.order.trans (List.prefix_append _ _)
    · intro i hi hgot
      simp only [List.length_append, List.length_singleton] at hi
      change s.got.length ≤ i at hgot
      simp only [ioqPutchar, store]
      rcases Nat.lt_or_eq_of_le (Nat.le_of_lt_succ hi) with hold | rfl
      · -- the slot written is not one of those that hold a byte
        have hne : slot i ≠ s.ioq.head := by
          rw [hs.head]
          intro hsame
          have := (slot_eq_iff (Nat.le_of_lt hold) (by omega)).mp hsame.symm
          omega
        rw [Function.update_of_ne hne, List.getElem_append_left hold]
        exact hs.held i hold hgot
      · rw [hs.head, Function.update_self]
        simp

theorem Inv.get (hs : Inv s) (hstep : step s .get = some s') : Inv s' := by
  have hle := hs.length_le
  have hroom := hs.room
  dsimp only [Ioq.step] at hstep
  split at hstep
  next => cases hstep
  next hempty =>
    obtain rfl := Option.some.inj hstep
    rw [hs.empty_iff] at hempty
    have hlt : s.got.length < s.put.length := by omega
    have hbyte : (ioqGetchar s.ioq).1 = s.put[s.got.length] := by
      simp only [ioqGetchar, take]
      rw [hs.tail, hs.held _ hlt (le_refl _)]
    constructor
    · exact hs.head
    · simp only [ioqGetchar, take, List.length_append, List.length_singleton]
      rw [hs.tail, nextPos_slot]
    · simp only [List.length_append, List.length_singleton]
      omega
    · obtain ⟨rest, hrest⟩ := hs.order
      cases rest with
      | nil => simp [← hrest] at hlt
      | cons x rest =>
          refine ⟨rest, ?_⟩
          rw [hbyte]
          simp [← hrest]
    · intro i hi hgot
      simp only [List.length_append, List.length_singleton] at hgot
      exact hs.held i hi (by omega)

theorem Inv.afterStep (hs : Inv s) {c : Call} (hstep : step s c = some s') :
    Inv s' := by
  cases c with
  | put byte => exact hs.put hstep
  | get => exact hs.get hstep

/-- The queue is first in, first out, and tells full from empty by one free
slot, however often its indices have wrapped. -/
theorem ioqueue_fifo {buf : ℤ → Byte} {calls : List Call}
    (hrun : Run (fun s c s' => step s c = some s') (initial (τ := τ) buf)
      calls s) :
    s.got <+: s.put ∧
      (0 ≤ s.ioq.head ∧ s.ioq.head < bufSize) ∧
      (0 ≤ s.ioq.tail ∧ s.ioq.tail < bufSize) ∧
      (ioqEmpty s.ioq = true ↔ s.put.length - s.got.length = 0) ∧
      (ioqFull s.ioq = true ↔
        (s.put.length - s.got.length : ℤ) = bufSize - 1) := by
  have hs : Inv s := hrun.invariant Inv
    (fun _ _ _ hinv hstep => hinv.afterStep hstep) (initial_inv buf)
  have hle := hs.length_le
  refine ⟨hs.order, ?_, ?_, hs.empty_iff, ?_⟩
  · rw [hs.head]
    unfold slot bufSize
    omega
  · rw [hs.tail]
    unfold slot bufSize
    omega
  · rw [hs.full_iff]
    unfold bufSize
    omega

theorem ioqueue_fifo_three_calls :
    ∃ s : State Unit, Run (fun s c s' => step s c = some s')
        (initial fun _ => 0) [.put 0x61, .put 0x62, .get] s ∧
      s.got = [0x61] ∧ s.got <+: s.put ∧ ioqEmpty s.ioq = false := by
  obtain ⟨s, hexec, hgot, hempty⟩ :
      ∃ s : State Unit, exec step (initial fun _ => 0)
          [.put 0x61, .put 0x62, .get] = some s ∧
        s.got = [0x61] ∧ ioqEmpty s.ioq = false :=
    ⟨_, rfl, rfl, rfl⟩
  have hrun := Run.of_exec (fun _ _ _ h => h) hexec
  exact ⟨s, hrun, hgot, (ioqueue_fifo hrun).1, hempty⟩

end Ioq
end OS32
