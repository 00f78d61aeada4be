import OS32.Basic

/-!
# The recursive lock of `sync.c`

Any number of threads share one `lock_t`.  Each thread has a program counter
inside `req_lock` and `lock_release`; one step of a thread is one access to the
shared lock, so a switch may happen between any two of them.  The bodies of
`sema_up` and of the loop of `sema_down` run with interrupts off and are single
steps.  A failed assertion halts the system.
-/

namespace OS32
namespace Sync

variable {τ : Type*} [DecidableEq τ]

/-- `sem_t`; `waiters` lists the threads on the wait queue. -/
structure Sema (τ : Type*) where
  value : BitVec 8
  waiters : List τ

/-- `lock_t`; a thread stands for its `proc_struct_t *`. -/
structure Lock (τ : Type*) where
  holder : Option τ
  sem : Sema τ
  holderRepeatTimes : Uint

def semaInit (value : BitVec 8) : Sema τ := ⟨value, []⟩

def lockInit : Lock τ := ⟨none, semaInit 1, 0⟩

/-- Where a thread stands.  The constructors name the next access. -/
inductive Pc where
  /-- Outside `req_lock` and `lock_release`. -/
  | idle
  -- `req_lock`
  | reqCheck
  | semaDown
  /-- On the wait queue, until `thread_unblock`. -/
  | waiting
  | setHolder
  | checkRepeat
  | setRepeat
  | incLoad
  | incStore (repeatTimes : Uint)
  -- `lock_release`
  | relCheck
  | relTest
  | decLoad
  | decStore (repeatTimes : Uint)
  | checkLast
  | clearHolder
  | clearRepeat
  | semaUp

/-- `depth t` counts the calls of `req_lock` of `t` that have returned and whose
`lock_release` has not. -/
structure State (τ : Type*) where
  lock : Lock τ
  pc : τ → Pc
  depth : τ → ℕ
  halted : Option String

namespace State

def initial : State τ := ⟨lockInit, fun _ => .idle, fun _ => 0, none⟩

def set (s : State τ) (t : τ) (lock : Lock τ) (pc : Pc) (depth : ℕ) : State τ :=
  { s with
    lock := lock
    pc := Function.update s.pc t pc
    depth := Function.update s.depth t depth }

/-- The thread goes on without a write. -/
def goto (s : State τ) (t : τ) (pc : Pc) : State τ :=
  s.set t s.lock pc (s.depth t)

/-- `assert(ok, info)`, with what follows it. -/
def assert (s : State τ) (ok : Bool) (info : String) (next : State τ) :
    State τ :=
  if ok then next else { s with halted := some info }

/-- The loop of `sema_down` until it blocks or the semaphore is taken. -/
def semaDown (s : State τ) (t : τ) : State τ :=
  let sem := s.lock.sem
  if sem.value = 0 then
    s.assert (t ∉ sem.waiters) "running thread must not be waiting"
      (s.set t { s.lock with sem := { sem with waiters := sem.waiters ++ [t] } }
        .waiting (s.depth t))
  else
    let lock := { s.lock with sem := { sem with value := sem.value - 1 } }
    let s' := s.set t lock .setHolder (s.depth t)
    s'.assert (lock.sem.value = 0) "sem value can't be less than 0" s'

/-- `sema_up`, which ends the outermost `lock_release`.  The thread it wakes
tests the semaphore again. -/
def semaUp (s : State τ) (t : τ) : State τ :=
  let sem := s.lock.sem
  let woken := sem.waiters.head?
  let lock := { s.lock with sem := ⟨sem.value + 1, sem.waiters.tail⟩ }
  let s' := s.set t lock .idle (s.depth t - 1)
  let s' := match woken with
    | none => s'
    | some w => s'.goto w .semaDown
  s.assert (sem.value = 0) "before V sema val must be 0"
    (s'.assert (lock.sem.value = 1) "after V sema must be 1" s')

/-- The next access of the thread `t`. -/
def advance (s : State τ) (t : τ) : Option (State τ) :=
  let lock := s.lock
  let depth := s.depth t
  match s.pc t with
  | .idle | .waiting => none
  | .reqCheck =>
      some (if lock.holder ≠ some t then s.goto t .semaDown
        else s.goto t .incLoad)
  | .semaDown => some (s.semaDown t)
  | .setHolder =>
      some (s.set t { lock with holder := some t } .checkRepeat depth)
  | .checkRepeat =>
      some (s.assert (lock.holderRepeatTimes = 0) "another thread is requiring"
        (s.goto t .setRepeat))
  | .setRepeat =>
      some (s.set t { lock with holderRepeatTimes := 1 } .idle (depth + 1))
  | .incLoad => some (s.goto t (.incStore lock.holderRepeatTimes))
  | .incStore repeatTimes =>
      some (s.set t { lock with holderRepeatTimes := repeatTimes + 1 } .idle
        (depth + 1))
  | .relCheck =>
      some (s.assert (lock.holder = some t) "lock hold by other thread\n"
        (s.goto t .relTest))
  | .relTest =>
      some (if 1 < lock.holderRepeatTimes then s.goto t .decLoad
        else s.goto t .checkLast)
  | .decLoad => some (s.goto t (.decStore lock.holderRepeatTimes))
  | .decStore repeatTimes =>
      some (s.set t { lock with holderRepeatTimes := repeatTimes - 1 } .idle
        (depth - 1))
  | .checkLast =>
      some (s.assert (lock.holderRepeatTimes = 1) "not the last time to release"
        (s.goto t .clearHolder))
  | .clearHolder =>
      some (s.set t { lock with holder := none } .clearRepeat depth)
  | .clearRepeat =>
      some (s.set t { lock with holderRepeatTimes := 0 } .semaUp depth)
  | .semaUp => some (s.semaUp t)

end State

/-- What may happen next: a thread calls `req_lock` or `lock_release`, or goes
one access further in the call it is in. -/
inductive Act (τ : Type*) where
  | request (t : τ)
  | release (t : τ)
  | run (t : τ)

/-- A thread releases the lock only while it holds it. -/
def next (s : State τ) (a : Act τ) : Option (State τ) :=
  match s.halted, a with
  | some _, _ => none
  | none, .request t =>
      match s.pc t with
      | .idle => some (s.goto t .reqCheck)
      | _ => none
  | none, .release t =>
      match s.pc t with
      | .idle => if 0 < s.depth t then some (s.goto t .relCheck) else none
      | _ => none
  | none, .run t => s.advance t

end Sync
end OS32
