import OS32.SchedModel

/-!
# Locks under the scheduler

Threads that call `req_lock` and `lock_release` on a machine with one CPU and a
timer.  The current thread takes one access to shared memory after the other,
and between any two of them the timer may tick.  `schedule` prints, so that a
tick in turn takes the console lock, in the middle of whatever its thread was
doing: each thread has a stack of the calls it is in.
-/

namespace OS32

open NullList Links IntrusiveList

namespace Sched

/-- `lock_t`; the wait queue is the list of head `Node.waiters`. -/
structure Lock (τ : Type*) where
  holder : Option τ
  value : BitVec 8
  holderRepeatTimes : Uint

/-- Where a call of `req_lock` or `lock_release` stands.  The constructors name
the next access. -/
inductive Pc where
  -- `req_lock`
  | reqCheck
  | semaDown
  | setHolder
  | checkRepeat
  | setRepeat
  | incLoad
  | incStore (repeatTimes : Uint)
  -- `lock_release`
  | relCheck
  | relTest
  | decLoad
  | decStore (repeatTimes : Uint)
  | checkLast
  | clearHolder
  | clearRepeat
  | semaUp
  /-- In `sema_up` after `thread_unblock`, which has enabled interrupts. -/
  | semaInc

/-- A call a thread is in. -/
inductive Frame (τ ι : Type*) where
  | lock (lck : ι) (pc : Pc)
  /-- `console_write` between `console_require` and `console_release`. -/
  | consoleWrite
  /-- `schedule`, which goes on with `switch_thread(next)`. -/
  | schedule (next : τ)
  /-- `switch_thread`, in `switch_to`. -/
  | switchThread
  | panic (msg : String)

/-- `created` lists the threads there are.  `relinked` records that some node
was added to a list while it was in one. -/
structure State (τ ι : Type*) where
  procs : Procs τ ι
  locks : ι → Lock τ
  frames : τ → List (Frame τ ι)
  created : List τ
  relinked : Bool

variable {τ ι : Type*} [DecidableEq τ] [DecidableEq ι]

/-- `&lck->sem.waiters` -/
def waiters (lck : ι) : Option (Node τ ι) := some (.waiters lck)

/-- A node that is in no list has been unlinked by `list_remove` or never
linked. -/
def Linked (links : Links (Node τ ι)) (t : τ) : Bool :=
  (links.next (node t)).isSome

namespace State

/-- What is left of the calls of the current thread. -/
def setFrames (s : State τ ι) (frames : List (Frame τ ι)) : State τ ι :=
  { s with frames := Function.update s.frames s.procs.current frames }

def setLock (s : State τ ι) (lck : ι) (lock : Lock τ) : State τ ι :=
  { s with locks := Function.update s.locks lck lock }

/-- `list_add_tail(list,&t->node)` or `list_add_head`, on the links `links`
before it. -/
def noteAdd (s : State τ ι) (links : Links (Node τ ι)) (t : τ) : State τ ι :=
  { s with relinked := s.relinked || Linked links t }

/-- `assert(ok,msg)`, with what follows it. -/
def assert (s : State τ ι) (ok : Bool) (msg : String)
    (here : List (Frame τ ι)) (next : State τ ι) : State τ ι :=
  if ok then next else s.setFrames (.panic msg :: here)

/-- `printk`: `console_write` on the way to its lock. -/
def printk (console : ι) (rest : List (Frame τ ι)) : List (Frame τ ι) :=
  .lock console .reqCheck :: .consoleWrite :: rest

/-- The current thread goes from the choice of `schedule` to its `printk`, or
returns from `schedule` to `rest`. -/
def schedule (s : State τ ι) (console : ι) (procs : Procs τ ι)
    (rest : List (Frame τ ι)) : State τ ι :=
  match procs.pick with
  | (procs', none) => { s with procs := procs' }.setFrames rest
  | (procs', some next) =>
      let s := s.noteAdd (listPop procs.links readyList).2 procs.current
      { s with procs := procs' }.setFrames
        (printk console (.schedule next :: rest))

/-- The loop of `sema_down` until it blocks or the semaphore is taken. -/
def semaDown (s : State τ ι) (console : ι) (fuel : ℕ) (lck : ι)
    (rest : List (Frame τ ι)) : Option (State τ ι) :=
  let t := s.procs.current
  let lock := s.locks lck
  let here := .lock lck .semaDown :: rest
  if lock.value = 0 then
    (listFind s.procs.links (waiters lck) (node t) fuel).map fun found =>
      s.assert (!found) "running thread must not be waiting" here
        -- after `thread_block` the loop tests the value again
        ((s.noteAdd s.procs.links t).schedule console
          ({ s.procs with
            links := listAddTail s.procs.links (waiters lck) (node t) }.setState
              t .blocked) here)
  else
    let lock := { lock with value := lock.value - 1 }
    let s := s.setLock lck lock
    some (s.assert (lock.value = 0) "sem value can't be less than 0" here
      (s.setFrames (.lock lck .setHolder :: rest)))

/-- `psema->value++` and the last assertion of `sema_up`. -/
def semaInc (s : State τ ι) (lck : ι) (rest : List (Frame τ ι)) : State τ ι :=
  let lock := s.locks lck
  let lock := { lock with value := lock.value + 1 }
  let s := s.setLock lck lock
  s.assert (lock.value = 1) "after V sema must be 1"
    (.lock lck .semaInc :: rest) (s.setFrames rest)

/-- `sema_up`, up to `thread_unblock` where it wakes a thread. -/
def semaUp (s : State τ ι) (fuel : ℕ) (lck : ι) (rest : List (Frame τ ι)) :
    Option (State τ ι) :=
  let here := .lock lck .semaUp :: rest
  if (s.locks lck).value = 0 then
    if listEmpty s.procs.links (waiters lck) then some (s.semaInc lck rest)
    else
      match listFront s.procs.links (waiters lck) with
      | some (.proc proc) =>
          let links := (listPop s.procs.links (waiters lck)).2
          let s := { s with procs := { s.procs with links := links } }
          (s.procs.threadUnblock proc fuel).map fun
            | .error msg => s.setFrames (.panic msg :: here)
            | .ok procs =>
                { s.noteAdd links proc with procs := procs }.setFrames
                  (.lock lck .semaInc :: rest)
      -- only PCBs are ever put on the list
      | _ => none
  else some (s.setFrames (.panic "before V sema val must be 0" :: here))

/-- The next access of a call of `req_lock` or `lock_release`. -/
def lockStep (s : State τ ι) (console : ι) (fuel : ℕ) (lck : ι)
    (rest : List (Frame τ ι)) : Pc → Option (State τ ι)
  | .reqCheck =>
      some (if (s.locks lck).holder ≠ some s.procs.current then
        s.setFrames (.lock lck .semaDown :: rest)
      else s.setFrames (.lock lck .incLoad :: rest))
  | .semaDown => s.semaDown console fuel lck rest
  | .setHolder =>
      let lock := { s.locks lck with holder := some s.procs.current }
      some ((s.setLock lck lock).setFrames (.lock lck .checkRepeat :: rest))
  | .checkRepeat =>
      some (s.assert ((s.locks lck).holderRepeatTimes = 0)
        "another thread is requiring" (.lock lck .checkRepeat :: rest)
        (s.setFrames (.lock lck .setRepeat :: rest)))
  | .setRepeat =>
      let lock := { s.locks lck with holderRepeatTimes := 1 }
      some ((s.setLock lck lock).setFrames rest)
  | .incLoad =>
      some (s.setFrames
        (.lock lck (.incStore (s.locks lck).holderRepeatTimes) :: rest))
  | .incStore repeatTimes =>
      let lock := { s.locks lck with holderRepeatTimes := repeatTimes + 1 }
      some ((s.setLock lck lock).setFrames rest)
  | .relCheck =>
      some (s.assert ((s.locks lck).holder = some s.procs.current)
        "lock hold by other thread\n" (.lock lck .relCheck :: rest)
        (s.setFrames (.lock lck .relTest :: rest)))
  | .relTest =>
      some (if 1 < (s.locks lck).holderRepeatTimes then
        s.setFrames (.lock lck .decLoad :: rest)
      else s.setFrames (.lock lck .checkLast :: rest))
  | .decLoad =>
      some (s.setFrames
        (.lock lck (.decStore (s.locks lck).holderRepeatTimes) :: rest))
  | .decStore repeatTimes =>
      let lock := { s.locks lck with holderRepeatTimes := repeatTimes - 1 }
      some ((s.setLock lck lock).setFrames rest)
  | .checkLast =>
      some (s.assert ((s.locks lck).holderRepeatTimes = 1)
        "not the last time to release" (.lock lck .checkLast :: rest)
        (s.setFrames (.lock lck .clearHolder :: rest)))
  | .clearHolder =>
      let lock := { s.locks lck with holder := none }
      some ((s.setLock lck lock).setFrames (.lock lck .clearRepeat :: rest))
  | .clearRepeat =>
      let lock := { s.locks lck with holderRepeatTimes := 0 }
      some ((s.setLock lck lock).setFrames (.lock lck .semaUp :: rest))
  | .semaUp => s.semaUp fuel lck rest
  | .semaInc => some (s.semaInc lck rest)

/-- The next access of the current thread, in the innermost call it is in. -/
def advance (s : State τ ι) (console : ι) (fuel : ℕ) : Option (State τ ι) :=
  match s.frames s.procs.current with
  | [] => none
  | .lock lck pc :: rest => s.lockStep console fuel lck rest pc
  | .consoleWrite :: rest =>
      some (s.setFrames (.lock console .relCheck :: rest))
  | .schedule next :: rest =>
      if s.procs.current ≠ next then
        let s := s.setFrames (.switchThread :: rest)
        some { s with procs := s.procs.switchThread next }
      else some (s.setFrames rest)
  | .switchThread :: rest =>
      some { s.setFrames rest with procs := s.procs.resume }
  -- `panic` prints some lines and then loops for ever
  | .panic msg :: rest =>
      some (s.setFrames (printk console (.panic msg :: rest)))

/-- `timer_callback` up to the `printk` of `schedule`. -/
def tick (s : State τ ι) (console : ι) : State τ ι :=
  let t := s.procs.current
  s.schedule console (s.procs.setTicks t (s.procs.ticks t - 1)) (s.frames t)

/-- `kthread_create` with a PCB that is not in use. -/
def create (s : State τ ι) (t : τ) (prio : BitVec 8) : State τ ι :=
  { s with
    procs := (s.procs.kthreadCreate t prio).2
    frames := Function.update s.frames t []
    created := s.created ++ [t] }

end State

/-- What may happen next.  The thread that calls or goes on is the current
one. -/
inductive Act (τ ι : Type*) where
  | create (t : τ) (prio : BitVec 8)
  | tick
  | request (lck : ι)
  | release (lck : ι)
  | run

def next (console : ι) (fuel : ℕ) (s : State τ ι) :
    Act τ ι → Option (State τ ι)
  | .create t prio => if t ∈ s.created then none else some (s.create t prio)
  | .tick => some (s.tick console)
  | .request lck =>
      match s.frames s.procs.current with
      | [] => some (s.setFrames [.lock lck .reqCheck])
      | _ => none
  | .release lck =>
      match s.frames s.procs.current with
      | [] => some (s.setFrames [.lock lck .relCheck])
      | _ => none
  | .run => s.advance console fuel

/-- `lock_init` on a lock in zeroed memory, with its empty wait queue. -/
def lockInit : Lock τ := ⟨none, 1, 0⟩

/-- Zeroed link fields, where each wait queue has been initialised. -/
def lockedLinks : Links (Node τ ι) where
  next p := match p with
    | some (.waiters lck) => some (.waiters lck)
    | _ => none
  prev p := match p with
    | some (.waiters lck) => some (.waiters lck)
    | _ => none

/-- After `init_sched` and `lock_init`. -/
def start (procs : Procs τ ι) (idle : τ) : State τ ι where
  procs := { procs with links := lockedLinks }.initSched idle
  locks := fun _ => lockInit
  frames := fun _ => []
  created := [idle]
  relinked := false

end Sched
end OS32
