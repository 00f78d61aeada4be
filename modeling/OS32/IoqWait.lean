import OS32.IoQueue
import OS32.SchedLockModel
import OS32.ThreadBlock

/-!
# Waiting for a key

One thread calls `ioq_getchar` again and again and the keyboard interrupt calls
`ioq_putchar`.  The empty test, the steps of `ioq_wait` and the release of the
lock are separate steps of the thread.  The handler runs with interrupts off
until `thread_unblock` enables them; what is left of it then may be delayed by
other interrupts.
-/

namespace OS32

open Transition Ioq

namespace IoqWait

open Sched

/-- The next step of the thread in `ioq_getchar`. -/
inductive Pc where
  /-- `ioq_empty(ioq)` -/
  | test
  /-- `req_lock(&(ioq->lck))` -/
  | reqLock
  /-- `assert(*waiter == NULL)` -/
  | assertNull
  /-- `*waiter = current` -/
  | register
  /-- `thread_block(PROC_BLOCKED)` -/
  | block
  /-- The return from `thread_block`. -/
  | unblocked
  /-- `lock_release(&(ioq->lck))` -/
  | release
  /-- The byte is taken. -/
  | take
  deriving DecidableEq

/-- Where a call of `ioq_putchar` stands in the interrupt handler. -/
inductive Handler where
  /-- The byte is stored; `wakeup` comes next. -/
  | stored
  /-- `thread_unblock` has returned; `*waiter = NULL` comes next. -/
  | woken

structure State (τ ι : Type*) where
  procs : Procs τ ι
  ioq : Ioqueue τ
  lck : Lock τ
  pc : Pc
  handlers : List Handler
  got : List Byte
  halted : Option String

variable {τ ι : Type*}

/-- Interrupts are off in a handler that has not called `thread_unblock`. -/
def State.enabled (s : State τ ι) : Bool :=
  match s.handlers with
  | .stored :: _ => false
  | _ => true

section Steps

variable [DecidableEq τ] [DecidableEq ι]

/-- `schedule` without its `printk`. -/
def schedule (procs : Procs τ ι) : Procs τ ι :=
  match procs.pick with
  | (procs, none) => procs
  | (procs, some next) => (procs.switchThread next).resume

def timerCallback (procs : Procs τ ι) : Procs τ ι :=
  schedule (procs.setTicks procs.current (procs.ticks procs.current - 1))

/-- The next step of the thread `c`.  Nobody else asks for the lock of the
queue, because `kbd_handler` does not put into a full one. -/
def State.advance (s : State τ ι) (c : τ) : Option (State τ ι) :=
  match s.pc with
  | .test =>
      some { s with pc := if ioqEmpty s.ioq then .reqLock else .take }
  | .reqLock =>
      if s.lck.value = 0 then none
      else some { s with lck := ⟨some c, s.lck.value - 1, 1⟩, pc := .assertNull }
  | .assertNull =>
      some (if s.ioq.consumer = none then { s with pc := .register }
        else { s with halted := some "error" })
  | .register =>
      some { s with ioq := { s.ioq with consumer := some c }, pc := .block }
  | .block =>
      some { s with
        procs := schedule (s.procs.setState s.procs.current .blocked)
        pc := .unblocked }
  | .unblocked => some { s with pc := .release }
  | .release =>
      some { s with lck := ⟨none, s.lck.value + 1, 0⟩, pc := .test }
  | .take =>
      -- no producer waits, so nobody is woken
      some { s with
        ioq := (ioqGetchar s.ioq).2.1
        got := s.got ++ [(ioqGetchar s.ioq).1]
        pc := .test }

/-- The next step of the innermost handler. -/
def State.handle (s : State τ ι) (fuel : ℕ) : Option (State τ ι) :=
  match s.handlers with
  | [] => none
  | .stored :: rest =>
      match s.ioq.consumer with
      | none => some { s with handlers := rest }
      | some waiter =>
          (s.procs.threadUnblock waiter fuel).map fun
            | .error msg => { s with halted := some msg }
            | .ok procs =>
                { s with procs := procs, handlers := .woken :: rest }
  | .woken :: rest =>
      some { s with
        ioq := { s.ioq with consumer := none }
        handlers := rest }

inductive Act where
  /-- A key interrupt with the character of the key. -/
  | key (byte : Byte)
  | handle
  | tick
  | run

def next (c : τ) (fuel : ℕ) (s : State τ ι) (a : Act) : Option (State τ ι) :=
  match s.halted, a with
  | some _, _ => none
  | none, .key byte =>
      if s.enabled then
        some (if ioqFull s.ioq then s
          else { s with
            ioq := store s.ioq byte, handlers := .stored :: s.handlers })
      else none
  | none, .handle => s.handle fuel
  | none, .tick =>
      if s.enabled then some { s with procs := timerCallback s.procs } else none
  | none, .run =>
      if s.enabled ∧ s.procs.current = c then s.advance c else none

/-- The queue and its lock as `ioqueue_init` leaves them. -/
def start (procs : Procs τ ι) (buf : ℤ → Byte) : State τ ι :=
  ⟨procs, ioqueueInit buf, lockInit, .test, [], [], none⟩

end Steps

/-- A registered and blocked consumer has nothing to read, or `wakeup` is the
next step of the handler; and `ioq_wait` has not found another waiter. -/
def NoLostWakeup (c : τ) (s : State τ ι) : Prop :=
  (s.ioq.consumer = some c → s.procs.procState c = .blocked →
    ioqEmpty s.ioq = false → s.handlers.head? = some .stored) ∧
  s.halted ≠ some "error"

/-- No key comes between an empty test that succeeds and the registration, and
the test succeeds only while nobody is registered. -/
def Timely (s : State τ ι) : Act → Prop
  | .key _ => s.pc ≠ .reqLock ∧ s.pc ≠ .assertNull ∧ s.pc ≠ .register
  | .run => s.pc = .test → ioqEmpty s.ioq = true → s.ioq.consumer = none
  | _ => True

/-! ## The invariant -/

open Procs

/-- What holds while no assertion has failed.  A thread that is marked as
blocked is registered, and it stays so until its handler has unblocked it. -/
structure Inv (c : τ) (s : State τ ι) : Prop where
  running : s.halted = none
  consumer : s.ioq.consumer = none ∨ s.ioq.consumer = some c
  nested : s.handlers = [] ∨ s.handlers = [.stored] ∨ s.handlers = [.woken] ∨
    s.handlers = [.stored, .woken]
  blocked : BlockState (s.procs.procState c) → s.ioq.consumer = some c
  woken : .woken ∈ s.handlers → s.ioq.consumer = some c ∧
    ¬ BlockState (s.procs.procState c) ∧ s.pc ≠ .block
  waiting : s.pc = .reqLock ∨ s.pc = .assertNull ∨ s.pc = .register →
    s.ioq.consumer = none ∧ ioqEmpty s.ioq = true
  block : s.pc = .block → s.ioq.consumer = some c ∧
    ¬ BlockState (s.procs.procState c) ∧
    (ioqEmpty s.ioq = true ∨ s.handlers.head? = some .stored)
  take : s.pc = .take → ioqEmpty s.ioq = false
  wakes : s.ioq.consumer = some c → BlockState (s.procs.procState c) →
    ioqEmpty s.ioq = false → s.handlers.head? = some .stored

variable {c : τ} {s s' : State τ ι} {fuel : ℕ}

theorem Inv.noLostWakeup (hs : Inv c s) : NoLostWakeup c s := by
  refine ⟨fun hconsumer hblocked => ?_, by simp [hs.running]⟩
  exact hs.wakes hconsumer (Or.inr (Or.inr hblocked))

theorem start_inv {procs : Procs τ ι} (buf : ℤ → Byte)
    (hc : ¬ BlockState (procs.procState c)) : Inv c (start procs buf) := by
  constructor <;> simp [start, ioqueueInit, hc]

theorem head?_of_enabled (hon : s.enabled = true) :
    s.handlers.head? ≠ some .stored := by
  intro hhead
  unfold State.enabled at hon
  split at hon
  · cases hon
  · rename_i hnot
    obtain ⟨rest, hrest⟩ := List.head?_eq_some_iff.mp hhead
    exact hnot rest hrest

/-- After a failed assertion nothing moves. -/
def Stopped (c : τ) (s : State τ ι) : Prop :=
  s.halted ≠ none ∧ NoLostWakeup c s

theorem Inv.afterKey (hs : Inv c s) {byte : Byte} (hon : s.enabled = true)
    (htimely : Timely s (.key byte)) (hfull : ioqFull s.ioq = false) :
    Inv c { s with
      ioq := store s.ioq byte, handlers := .stored :: s.handlers } := by
  have hfilled : ioqEmpty (store s.ioq byte) = false := hfull
  have hhead := head?_of_enabled hon
  constructor
  · exact hs.running
  · exact hs.consumer
  · rcases hs.nested with h | h | h | h <;> simp_all
  · exact hs.blocked
  · intro hmem
    exact hs.woken (by simpa using hmem)
  · rintro (h | h | h)
    · exact absurd h htimely.1
    · exact absurd h htimely.2.1
    · exact absurd h htimely.2.2
  · intro hpc
    exact ⟨(hs.block hpc).1, (hs.block hpc).2.1, Or.inr rfl⟩
  · exact fun _ => hfilled
  · exact fun _ _ _ => rfl

/-- The end of `wakeup`. -/
theorem Inv.afterClear (hs : Inv c s) {rest : List Handler}
    (hhandlers : s.handlers = .woken :: rest) :
    Inv c { s with
      ioq := { s.ioq with consumer := none }, handlers := rest } := by
  obtain ⟨hconsumer, hfree, hpc⟩ := hs.woken (by simp [hhandlers])
  obtain rfl : rest = [] := by
    rcases hs.nested with h | h | h | h <;> simp_all
  constructor
  · exact hs.running
  · exact Or.inl rfl
  · exact Or.inl rfl
  · exact fun h => absurd h hfree
  · intro hmem
    cases hmem
  · intro h
    rw [(hs.waiting h).1] at hconsumer
    cases hconsumer
  · exact fun h => absurd h hpc
  · exact hs.take
  · intro h
    cases h

/-! ## The steps of the thread -/

/-- A step that only moves the program counter, not into `ioq_wait`. -/
theorem Inv.afterGoto (hs : Inv c s) {pc : Pc} {lck : Lock τ}
    (hwait : pc = .reqLock ∨ pc = .assertNull ∨ pc = .register →
      s.ioq.consumer = none ∧ ioqEmpty s.ioq = true)
    (hblock : pc ≠ .block) (htake : pc = .take → ioqEmpty s.ioq = false) :
    Inv c { s with lck := lck, pc := pc } :=
  { hs with
    woken := fun hmem => ⟨(hs.woken hmem).1, (hs.woken hmem).2.1, hblock⟩
    waiting := hwait
    block := fun hpc => absurd hpc hblock
    take := htake }

theorem Inv.afterRegister (hs : Inv c s) (hpc : s.pc = .register) :
    Inv c { s with
      ioq := { s.ioq with consumer := some c }, pc := .block } := by
  obtain ⟨hnone, hempty⟩ := hs.waiting (by simp [hpc])
  have hfree : ¬ BlockState (s.procs.procState c) := by
    intro h
    rw [hs.blocked h] at hnone
    cases hnone
  constructor
  · exact hs.running
  · exact Or.inr rfl
  · exact hs.nested
  · exact fun _ => rfl
  · intro hmem
    rw [(hs.woken hmem).1] at hnone
    cases hnone
  · simp
  · exact fun _ => ⟨rfl, hfree, Or.inl hempty⟩
  · simp
  · exact fun _ h => absurd h hfree

theorem Inv.afterBlock (hs : Inv c s) (hon : s.enabled = true)
    (hpc : s.pc = .block) (procs : Procs τ ι) :
    Inv c { s with procs := procs, pc := .unblocked } := by
  obtain ⟨hconsumer, _, hqueue⟩ := hs.block hpc
  have hempty : ioqEmpty s.ioq = true :=
    hqueue.resolve_right (head?_of_enabled hon)
  constructor
  · exact hs.running
  · exact hs.consumer
  · exact hs.nested
  · exact fun _ => hconsumer
  · exact fun hmem => absurd hpc (hs.woken hmem).2.2
  · simp
  · simp
  · simp
  · intro _ _ h
    rw [hempty] at h
    cases h

theorem Inv.afterTake (hs : Inv c s) (hon : s.enabled = true)
    (hpc : s.pc = .take) (ioq : Ioqueue τ)
    (hconsumer : ioq.consumer = s.ioq.consumer) (got : List Byte) :
    Inv c { s with ioq := ioq, got := got, pc := .test } := by
  have hfilled := hs.take hpc
  have hfree : s.ioq.consumer = some c →
      ¬ BlockState (s.procs.procState c) := fun h hblocked =>
    head?_of_enabled hon (hs.wakes h hblocked hfilled)
  constructor
  · exact hs.running
  · rw [hconsumer]
    exact hs.consumer
  · exact hs.nested
  · rw [hconsumer]
    exact hs.blocked
  · intro hmem
    rw [hconsumer]
    exact ⟨(hs.woken hmem).1, (hs.woken hmem).2.1, by simp⟩
  · simp
  · simp
  · simp
  · intro h hblocked
    rw [hconsumer] at h
    exact absurd hblocked (hfree h)

/-! ## The scheduler does not block anyone else -/

variable [DecidableEq τ] [DecidableEq ι]

omit [DecidableEq ι] in
theorem blockState_setState {procs : Procs τ ι} {t u : τ} {state : ProcState}
    (hstate : ¬ BlockState state)
    (hblock : BlockState ((procs.setState u state).procState t)) :
    BlockState (procs.procState t) := by
  by_cases htu : t = u
  · subst htu
    simp only [setState, Function.update_self] at hblock
    exact absurd hblock hstate
  · simpa [setState, htu] using hblock

theorem blockState_pick {procs : Procs τ ι} {t : τ}
    (hblock : BlockState (procs.pick.1.procState t)) :
    BlockState (procs.procState t) := by
  unfold pick at hblock
  split_ifs at hblock
  · exact hblock
  · split at hblock
    · have hready := blockState_setState (by simp [BlockState]) hblock
      exact blockState_setState (by simp [BlockState]) hready
    · exact hblock
  · exact hblock

theorem blockState_schedule (procs : Procs τ ι) {t : τ}
    (hblock : BlockState ((schedule procs).procState t)) :
    BlockState (procs.procState t) := by
  apply blockState_pick
  unfold schedule at hblock
  split at hblock
  · rename_i hpick
    rw [hpick]
    exact hblock
  · rename_i procs' u hpick
    rw [hpick]
    have hswitch := blockState_setState (by simp [BlockState]) hblock
    unfold switchThread at hswitch
    split_ifs at hswitch
    · exact blockState_setState (by simp [BlockState]) hswitch
    · exact hswitch

/-- `thread_unblock` makes a blocked thread ready, or panics. -/
theorem threadUnblock_cases {procs : Procs τ ι} {t : τ} {fuel : ℕ}
    {r : Except String (Procs τ ι)}
    (hcall : procs.threadUnblock t fuel = some r) :
    (BlockState (procs.procState t) ∧
        r = .ok (({ procs with
          links := IntrusiveList.listAddHead procs.links readyList
            (node t) }).setState t .ready)) ∨
      r = .error "thread unblock:blocked thread already in ready list" ∨
      r = .error "already unblocked\n" := by
  unfold threadUnblock at hcall
  dsimp only at hcall
  split_ifs at hcall with hstate
  · obtain ⟨found, _, rfl⟩ := Option.map_eq_some_iff.mp hcall
    cases found with
    | true => exact Or.inr (Or.inl rfl)
    | false => exact Or.inl ⟨hstate, rfl⟩
  · exact Or.inr (Or.inr (Option.some.inj hcall).symm)

/-- `thread_unblock` returns only for a thread marked as blocked, and marks it
as ready. -/
theorem threadUnblock_ok {procs procs' : Procs τ ι} {t : τ} {fuel : ℕ}
    (hcall : procs.threadUnblock t fuel = some (.ok procs')) :
    BlockState (procs.procState t) ∧ procs'.procState t = .ready := by
  rcases threadUnblock_cases hcall with ⟨hstate, hok⟩ | herror | herror
  · obtain rfl := Except.ok.inj hok
    exact ⟨hstate, by simp [setState]⟩
  · cases herror
  · cases herror

theorem threadUnblock_error {procs : Procs τ ι} {t : τ} {fuel : ℕ}
    {msg : String} (hcall : procs.threadUnblock t fuel = some (.error msg)) :
    msg ≠ "error" := by
  rcases threadUnblock_cases hcall with ⟨_, hok⟩ | herror | herror
  · cases hok
  · obtain rfl := Except.error.inj herror
    decide
  · obtain rfl := Except.error.inj herror
    decide

/-- `thread_unblock` of the registered thread. -/
theorem Inv.afterUnblock (hs : Inv c s) {rest : List Handler}
    (hhandlers : s.handlers = .stored :: rest)
    (hconsumer : s.ioq.consumer = some c) {procs : Procs τ ι}
    (hcall : s.procs.threadUnblock c fuel = some (.ok procs)) :
    Inv c { s with procs := procs, handlers := .woken :: rest } := by
  obtain ⟨hblocked, hready⟩ := threadUnblock_ok hcall
  have hfree : ¬ BlockState (procs.procState c) := by
    rw [hready]
    simp [BlockState]
  have hnone : .woken ∉ s.handlers := fun hmem =>
    (hs.woken hmem).2.1 hblocked
  constructor
  · exact hs.running
  · exact hs.consumer
  · rcases hs.nested with h | h | h | h
    · simp [h] at hhandlers
    · simp_all
    · simp [h] at hhandlers
    · exact absurd (by simp [h]) hnone
  · exact fun h => absurd h hfree
  · refine fun _ => ⟨hconsumer, hfree, fun hpc => ?_⟩
    exact (hs.block hpc).2.1 hblocked
  · exact hs.waiting
  · intro hpc
    exact absurd hblocked (hs.block hpc).2.1
  · exact hs.take
  · exact fun _ h => absurd h hfree

theorem Inv.afterHandle (hs : Inv c s) (hstep : s.handle fuel = some s') :
    Inv c s' ∨ Stopped c s' := by
  unfold State.handle at hstep
  split at hstep
  · cases hstep
  · rename_i rest hhandlers
    split at hstep
    · rename_i hconsumer
      obtain rfl := Option.some.inj hstep
      left
      -- without a registered thread no earlier handler is waiting either
      obtain rfl : rest = [] := by
        rcases hs.nested with h | h | h | h
        · simp_all
        · simp_all
        · simp_all
        · have := (hs.woken (by simp [h])).1
          simp_all
      exact
        { hs with
          nested := Or.inl rfl
          woken := fun hmem => by cases hmem
          block := fun hpc => by
            rw [(hs.block hpc).1] at hconsumer
            cases hconsumer
          wakes := fun h => by
            rw [hconsumer] at h
            cases h }
    · rename_i waiter hconsumer
      obtain rfl : waiter = c := by
        rcases hs.consumer with h | h <;> simp_all
      obtain ⟨result, hcall, rfl⟩ := Option.map_eq_some_iff.mp hstep
      cases result with
      | ok procs => exact Or.inl (hs.afterUnblock hhandlers hconsumer hcall)
      | error msg =>
          refine Or.inr ⟨by simp, fun _ _ _ => ?_, ?_⟩
          · simp [hhandlers]
          · simpa using threadUnblock_error hcall
  · rename_i rest hhandlers
    obtain rfl := Option.some.inj hstep
    exact Or.inl (hs.afterClear hhandlers)

theorem Inv.afterTick (hs : Inv c s) :
    Inv c { s with procs := timerCallback s.procs } := by
  have hkept : BlockState ((timerCallback s.procs).procState c) →
      BlockState (s.procs.procState c) := fun h =>
    blockState_schedule (s.procs.setTicks s.procs.current _) h
  exact
    { running := hs.running
      consumer := hs.consumer
      nested := hs.nested
      blocked := fun h => hs.blocked (hkept h)
      woken := fun hmem => ⟨(hs.woken hmem).1,
        fun h => (hs.woken hmem).2.1 (hkept h), (hs.woken hmem).2.2⟩
      waiting := hs.waiting
      block := fun hpc => ⟨(hs.block hpc).1,
        fun h => (hs.block hpc).2.1 (hkept h), (hs.block hpc).2.2⟩
      take := hs.take
      wakes := fun hconsumer h => hs.wakes hconsumer (hkept h) }

theorem Inv.afterAdvance (hs : Inv c s) (hon : s.enabled = true)
    (htimely : Timely s .run) (hstep : s.advance c = some s') :
    Inv c s' := by
  unfold State.advance at hstep
  split at hstep
  · rename_i hpc
    obtain rfl := Option.some.inj hstep
    by_cases hempty : ioqEmpty s.ioq = true
    · rw [if_pos hempty]
      exact hs.afterGoto (fun _ => ⟨htimely hpc hempty, hempty⟩) (by simp)
        (by simp)
    · rw [if_neg hempty]
      exact hs.afterGoto (by simp) (by simp) (by simp [hempty])
  · rename_i hpc
    split_ifs at hstep
    obtain rfl := Option.some.inj hstep
    exact hs.afterGoto (fun _ => hs.waiting (Or.inl hpc)) (by simp) (by simp)
  · rename_i hpc
    obtain rfl := Option.some.inj hstep
    have hwaiting := hs.waiting (Or.inr (Or.inl hpc))
    rw [if_pos hwaiting.1]
    exact hs.afterGoto (fun _ => hwaiting) (by simp) (by simp)
  · rename_i hpc
    obtain rfl := Option.some.inj hstep
    exact hs.afterRegister hpc
  · rename_i hpc
    obtain rfl := Option.some.inj hstep
    exact hs.afterBlock hon hpc _
  · obtain rfl := Option.some.inj hstep
    exact hs.afterGoto (by simp) (by simp) (by simp)
  · obtain rfl := Option.some.inj hstep
    exact hs.afterGoto (by simp) (by simp) (by simp)
  · rename_i hpc
    obtain rfl := Option.some.inj hstep
    exact hs.afterTake hon hpc (ioqGetchar s.ioq).2.1 rfl _

theorem Inv.afterStep {a : Act} (hs : Inv c s) (hnext : next c fuel s a = some s')
    (htimely : Timely s a) : Inv c s' ∨ Stopped c s' := by
  unfold next at hnext
  split at hnext
  · cases hnext
  · split_ifs at hnext with hon hfull
    · exact Or.inl (Option.some.inj hnext ▸ hs)
    · obtain rfl := Option.some.inj hnext
      exact Or.inl (hs.afterKey hon htimely (by simpa using hfull))
  · exact hs.afterHandle hnext
  · split_ifs at hnext
    obtain rfl := Option.some.inj hnext
    exact Or.inl hs.afterTick
  · split_ifs at hnext with hon
    exact Or.inl (hs.afterAdvance hon.1 htimely hnext)

/-! ## All runs -/

/-- No wakeup is lost, and `ioq_wait` finds no other waiter, as long as keys
and empty tests come at the right time. -/
theorem no_lost_wakeup {procs : Procs τ ι} {buf : ℤ → Byte}
    {acts : List Act} (hc : ¬ BlockState (procs.procState c))
    (hrun : Run (fun s a s' => next c fuel s a = some s' ∧ Timely s a)
      (start procs buf) acts s) : NoLostWakeup c s := by
  have hgood : Inv c s ∨ Stopped c s := by
    refine hrun.invariant (fun s => Inv c s ∨ Stopped c s) ?_
      (Or.inl (start_inv buf hc))
    rintro s a s' (hs | hs) ⟨hnext, htimely⟩
    · exact hs.afterStep hnext htimely
    · obtain ⟨msg, hmsg⟩ := Option.ne_none_iff_exists'.mp hs.1
      simp [next, hmsg] at hnext
  exact hgood.elim Inv.noLostWakeup And.right

instance (s : State τ ι) (a : Act) : Decidable (Timely s a) := by
  cases a <;> unfold Timely <;> infer_instance

/-- `next`, for the steps `no_lost_wakeup` allows. -/
def timelyNext (c : τ) (fuel : ℕ) (s : State τ ι) (a : Act) :
    Option (State τ ι) :=
  if Timely s a then next c fuel s a else none

theorem timely_of_timelyNext (s : State τ ι) (a : Act) (s' : State τ ι)
    (hnext : timelyNext c fuel s a = some s') :
    next c fuel s a = some s' ∧ Timely s a := by
  unfold timelyNext at hnext
  split_ifs at hnext with htimely
  exact ⟨hnext, htimely⟩

/-- The boot thread after `init_sched`. -/
def booted : Procs ℕ Unit := RoundRobin.zeroed.initSched 0

/-- A key wakes the boot thread, which then takes the byte. -/
theorem no_lost_wakeup_one_key :
    ∃ s, Run (fun s a s' => next 0 10 s a = some s' ∧ Timely s a)
      (start booted fun _ => 0)
      (List.replicate 5 .run ++ [.key 0x61, .handle, .handle] ++
        List.replicate 4 .run) s ∧ s.got = [0x61] ∧ NoLostWakeup 0 s := by
  obtain ⟨s, hexec, hgot⟩ : ∃ s,
      exec (timelyNext 0 10) (start booted fun _ => 0)
        (List.replicate 5 .run ++ [.key 0x61, .handle, .handle] ++
          List.replicate 4 .run) = some s ∧ s.got = [0x61] := ⟨_, rfl, rfl⟩
  have hrun := Run.of_exec timely_of_timelyNext hexec
  have hfree : ¬ BlockState (booted.procState 0) := by
    simp [booted, initSched, threadIdle, setState, BlockState]
  exact ⟨s, hrun, hgot, no_lost_wakeup hfree hrun⟩

/-- Without any key the boot thread runs through `thread_block` and finds
itself registered. -/
theorem ioq_wait_error :
    ¬ ∀ acts s, Run (fun s a s' => next 0 10 s a = some s')
      (start booted fun _ => 0) acts s → NoLostWakeup 0 s := by
  intro hall
  obtain ⟨s, hexec, hhalted⟩ : ∃ s,
      exec (next 0 10) (start booted fun _ => 0) (List.replicate 10 .run) =
        some s ∧ s.halted = some "error" := ⟨_, rfl, rfl⟩
  exact (hall _ s (Run.of_exec (fun _ _ _ h => h) hexec)).2 hhalted

end IoqWait
end OS32
