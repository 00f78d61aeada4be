import OS32.Console
import OS32.SchedLockModel

/-!
# Printing before the scheduler is there

Until `init_sched` and `console_init` have run, `current` is NULL and the
console lock is zero bytes.  `req_lock` then finds that the lock is held by
`current`, so it takes nothing from the semaphore, but the release puts one in.
-/

namespace OS32

open NullList IntrusiveList Console
open Sched (Procs Lock waiters node)

namespace EarlyBoot

variable {τ : Type*} [DecidableEq τ]

/-- The PCBs, the console lock and the screen; a `proc_struct_t *` may be NULL. -/
structure State (τ : Type*) where
  procs : Procs (Option τ) Unit
  consoleLck : Lock τ
  screen : Screen

namespace State

/-- One turn of the loop of `sema_down`. -/
def semaWait (s : State τ) : Except Fault (State τ) :=
  let self := node s.procs.current
  match listFind s.procs.links (waiters ()) self walkBound with
  | none => .error .hang
  | some true => .error (.panic "running thread must not be waiting")
  | some false =>
      let links := listAddTail s.procs.links (waiters ()) self
      match { s.procs with links := links }.threadBlock .blocked with
      | (procs, none) => .ok { s with procs := procs }
      -- `schedule` goes on in another thread
      | (_, some _) => .error .hang

/-- `sema_down`, its loop ended after `fuel` turns. -/
def semaDownFrom : ℕ → State τ → Except Fault (State τ)
  | 0, _ => .error .hang
  | fuel + 1, s =>
      if s.consoleLck.value = 0 then do
        let s ← s.semaWait
        semaDownFrom fuel s
      else
        let lck := { s.consoleLck with value := s.consoleLck.value - 1 }
        if lck.value = 0 then .ok { s with consoleLck := lck }
        else .error (.panic "sem value can't be less than 0")

/-- `thread_unblock`, with `NULL` for a thread that is not there. -/
def threadUnblock (s : State τ) (proc : Option τ) : Except Fault (State τ) :=
  if proc = none then .ok s
  else
    match s.procs.threadUnblock proc walkBound with
    | none => .error .hang
    | some (.error msg) => .error (.panic msg)
    | some (.ok procs) => .ok { s with procs := procs }

/-- The waking part of `sema_up`. -/
def wakeFirst (s : State τ) : Except Fault (State τ) :=
  if listEmpty s.procs.links (waiters ()) then .ok s
  else
    match listFront s.procs.links (waiters ()) with
    | none => .ok s
    | some (.proc proc) =>
        let links := (listPop s.procs.links (waiters ())).2
        threadUnblock { s with procs := { s.procs with links := links } } proc
    | some _ => .error .wildPointer

def semaUp (s : State τ) : Except Fault (State τ) :=
  if s.consoleLck.value = 0 then do
    let s ← s.wakeFirst
    let lck := { s.consoleLck with value := s.consoleLck.value + 1 }
    if lck.value = 1 then .ok { s with consoleLck := lck }
    else .error (.panic "after V sema must be 1")
  else .error (.panic "before V sema val must be 0")

def reqLock (s : State τ) : Except Fault (State τ) :=
  if s.consoleLck.holder ≠ s.procs.current then do
    let s ← semaDownFrom walkBound s
    let lck := { s.consoleLck with holder := s.procs.current }
    if lck.holderRepeatTimes = 0 then
      .ok { s with consoleLck := { lck with holderRepeatTimes := 1 } }
    else .error (.panic "another thread is requiring")
  else
    let lck := s.consoleLck
    .ok { s with
      consoleLck := { lck with
        holderRepeatTimes := lck.holderRepeatTimes + 1 } }

def lockRelease (s : State τ) : Except Fault (State τ) :=
  let lck := s.consoleLck
  if lck.holder = s.procs.current then
    if 1 < lck.holderRepeatTimes then
      .ok { s with
        consoleLck := { lck with
          holderRepeatTimes := lck.holderRepeatTimes - 1 } }
    else if lck.holderRepeatTimes = 1 then
      semaUp { s with
        consoleLck := { lck with holder := none, holderRepeatTimes := 0 } }
    else .error (.panic "not the last time to release")
  else .error (.panic "lock hold by other thread\n")

def rcWhite : Color := 15
def rcBlack : Color := 0

/-- `console_write` of the string `str`. -/
def consoleWrite (s : State τ) (str : List Uchar) : Except Fault (State τ) := do
  let s ← s.reqLock
  lockRelease { s with
    screen := str.foldl (fun screen c =>
      consolePutcColor screen c rcWhite rcBlack) s.screen }

end State

/-- `init_sched` and `console_init` have not run. -/
structure Early (s : State τ) : Prop where
  current : s.procs.current = none
  lock : s.consoleLck = ⟨none, 0, 0⟩
  next : s.procs.links.next (waiters ()) = none
  prev : s.procs.links.prev (waiters ()) = none

variable {s : State τ} {str : List Uchar}

/-! ## The semaphore is not taken -/

/-- A NULL link of the head counts as a list that is not empty and has no first
element. -/
theorem wakeFirst_zero (hnext : s.procs.links.next (waiters ()) = none) :
    s.wakeFirst = .ok s := by
  have hempty : listEmpty s.procs.links (waiters ()) = false := by
    unfold listEmpty
    rw [hnext, if_pos nofun]
  have hfront : listFront s.procs.links (waiters ()) = none := by
    unfold listFront
    rw [hnext, if_pos nofun]
  unfold State.wakeFirst
  rw [hempty, hfront]
  rfl

/-- With `current` and the holder both NULL a `console_write` is a V on the
semaphore and nothing else. -/
theorem consoleWrite_null (str : List Uchar) (hcurrent : s.procs.current = none)
    (hholder : s.consoleLck.holder = none)
    (hrepeat : s.consoleLck.holderRepeatTimes = 0) :
    ∃ screen, s.consoleWrite str = State.semaUp { s with screen := screen } := by
  obtain ⟨procs, ⟨holder, value, repeatTimes⟩, screen⟩ := s
  obtain rfl : holder = none := hholder
  obtain rfl : repeatTimes = 0 := hrepeat
  refine ⟨str.foldl (fun screen c =>
    consolePutcColor screen c State.rcWhite State.rcBlack) screen, ?_⟩
  unfold State.consoleWrite State.reqLock
  rw [if_neg (not_not.mpr hcurrent.symm)]
  change State.lockRelease _ = _
  unfold State.lockRelease
  rw [if_pos hcurrent.symm]
  rfl

theorem Early.first (hs : Early s) (str : List Uchar) :
    ∃ t, s.consoleWrite str = .ok t ∧ t.procs.current = none ∧
      t.consoleLck = ⟨none, 1, 0⟩ := by
  obtain ⟨screen, hwrite⟩ := consoleWrite_null str hs.current
    (by rw [hs.lock]) (by rw [hs.lock])
  obtain ⟨procs, lck, _⟩ := s
  obtain rfl : lck = ⟨none, 0, 0⟩ := hs.lock
  refine ⟨⟨procs, ⟨none, 1, 0⟩, screen⟩, ?_, hs.current, rfl⟩
  rw [hwrite]
  unfold State.semaUp
  have hwake : State.wakeFirst ⟨procs, ⟨none, 0, 0⟩, screen⟩ =
      .ok ⟨procs, ⟨none, 0, 0⟩, screen⟩ := wakeFirst_zero hs.next
  rw [if_pos rfl, hwake]
  rfl

/-- The second V finds the first one. -/
theorem consoleWrite_again (hcurrent : s.procs.current = none)
    (hlock : s.consoleLck = ⟨none, 1, 0⟩) :
    s.consoleWrite str = .error (.panic "before V sema val must be 0") := by
  obtain ⟨screen, hwrite⟩ := consoleWrite_null str hcurrent
    (by rw [hlock]) (by rw [hlock])
  rw [hwrite]
  unfold State.semaUp
  rw [hlock]
  rfl

theorem Early.again (hs : Early s) (str again : List Uchar)
    (rest : List (List Uchar)) :
    ¬ ∃ t, (str :: again :: rest).foldlM State.consoleWrite s = .ok t := by
  obtain ⟨t, hwrite, hcurrent, hlock⟩ := hs.first str
  rintro ⟨u, hrun⟩
  rw [List.foldlM_cons, hwrite] at hrun
  change (again :: rest).foldlM State.consoleWrite t = .ok u at hrun
  rw [List.foldlM_cons, consoleWrite_again hcurrent hlock] at hrun
  cases hrun

/-- One message can be printed. -/
theorem completes_iff (hs : Early s) (messages : List (List Uchar)) :
    (∃ t, messages.foldlM State.consoleWrite s = .ok t) ↔
      messages.length ≤ 1 := by
  match messages with
  | [] => exact iff_of_true ⟨s, rfl⟩ (Nat.zero_le 1)
  | [str] =>
      obtain ⟨t, hwrite, _⟩ := hs.first str
      refine iff_of_true ⟨t, ?_⟩ le_rfl
      rw [List.foldlM_cons, hwrite]
      rfl
  | str :: again :: rest =>
      exact iff_of_false (hs.again str again rest) (by simp)

/-- Zero-filled memory. -/
def zeroed : State ℕ where
  procs :=
    { links := ⟨fun _ => none, fun _ => none⟩
      current := none
      nowPid := 0
      pid := fun _ => 0
      procState := fun _ => .create
      ticks := fun _ => 0
      prio := fun _ => 0 }
  consoleLck := ⟨none, 0, 0⟩
  screen := ⟨fun _ => 0, 0, 0, [], []⟩

theorem zeroed_early : Early zeroed := ⟨rfl, rfl, rfl, rfl⟩

/-- "O" alone is printed. -/
theorem completes_once :
    ∃ t, [[0x4F]].foldlM State.consoleWrite zeroed = .ok t :=
  (completes_iff zeroed_early _).mpr le_rfl

/-- "O" and "S" in two calls are not. -/
theorem second_message_panics : ¬ ∀ s : State ℕ, Early s →
    ∀ messages : List (List Uchar),
      ∃ t, messages.foldlM State.consoleWrite s = .ok t := by
  intro hall
  exact zeroed_early.again [0x4F] [0x53] [] (hall zeroed zeroed_early _)

end EarlyBoot

end OS32
