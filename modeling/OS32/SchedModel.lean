import OS32.IntrusiveList
import OS32.Basic

/-!
# Threads and the scheduler

`sched.c` and `thread.c` on the link fields of the PCBs.  `schedule` is cut at
its `printk`, because that call takes the console lock: `pick` is what comes
before and `switchThread` what comes after.
-/

namespace OS32

open NullList Links IntrusiveList

namespace Sched

/-- `proc_state_t` -/
inductive ProcState where
  | create
  | ready
  | running
  | blocked
  | hanging
  | waiting
  | ended
  deriving DecidableEq

/-- The `list_t` fields: the heads of the scheduler's lists, of the wait queue
of each lock, and the one of each PCB. -/
inductive Node (τ ι : Type*) where
  | readyList
  | blockList
  | hangingList
  | waiters (lck : ι)
  | proc (t : τ)
  deriving DecidableEq

variable {τ ι : Type*} [DecidableEq τ] [DecidableEq ι]

/-- The fields of the PCBs the scheduler works with; a thread stands for its
`proc_struct_t *`. -/
structure Procs (τ ι : Type*) where
  links : Links (Node τ ι)
  current : τ
  nowPid : Uint
  pid : τ → Uint
  procState : τ → ProcState
  ticks : τ → BitVec 8
  prio : τ → BitVec 8

/-- `&proc_ready_list->node` -/
def readyList : Option (Node τ ι) := some .readyList

/-- `&t->node` -/
def node (t : τ) : Option (Node τ ι) := some (.proc t)

namespace Procs

def setState (s : Procs τ ι) (t : τ) (state : ProcState) : Procs τ ι :=
  { s with procState := Function.update s.procState t state }

def setTicks (s : Procs τ ι) (t : τ) (ticks : BitVec 8) : Procs τ ι :=
  { s with ticks := Function.update s.ticks t ticks }

/-- The PCB of the flow of control that boots the kernel. -/
def threadIdle (s : Procs τ ι) (idle : τ) : Procs τ ι :=
  let s := { s with current := idle }
  let s := s.setState idle .create
  let s := { s with
    pid := Function.update s.pid idle s.nowPid, nowPid := s.nowPid + 1 }
  let s := s.setState idle .running
  { s with
    prio := Function.update s.prio idle 100
    ticks := Function.update s.ticks idle 100 }

def initSched (s : Procs τ ι) (idle : τ) : Procs τ ι :=
  let links := listInit s.links readyList
  let links := listInit links (some .blockList)
  let links := listInit links (some .hangingList)
  { s with links := links }.threadIdle idle

/-- `kthread_create` with the PCB `proc` from `alloc_proc`. -/
def kthreadCreate (s : Procs τ ι) (proc : τ) (prio : BitVec 8) :
    Uint × Procs τ ι :=
  -- memset(proc,0,sizeof(proc_struct_t));
  let links := (s.links.setNext (node proc) none).setPrev (node proc) none
  let s := { s with links := links }.setState proc .create
  let s := { s with
    pid := Function.update s.pid proc s.nowPid, nowPid := s.nowPid + 1 }
  let s := s.setState proc .ready
  let s := { s with
    ticks := Function.update s.ticks proc prio
    prio := Function.update s.prio proc prio }
  (s.pid proc, { s with links := listAddTail s.links readyList (node proc) })

/-- `schedule` up to its `printk`, and the thread it goes on to switch to; no
thread where it returns at once. -/
def pick (s : Procs τ ι) : Procs τ ι × Option τ :=
  if s.ticks s.current = 0 then
    if listEmpty s.links readyList then
      (s.setTicks s.current (s.prio s.current), none)
    else
      match listFront s.links readyList with
      | some (.proc next) =>
          let s := { s with links := (listPop s.links readyList).2 }
          let s := s.setState s.current .ready
          let s := s.setTicks s.current (s.prio s.current)
          let s := { s with
            links := listAddTail s.links readyList (node s.current) }
          (s.setState next .running, some next)
      -- only PCBs are ever put on the list
      | _ => (s, none)
  else (s, none)

/-- `switch_thread` up to its `switch_to`. -/
def switchThread (s : Procs τ ι) (next : τ) : Procs τ ι :=
  if s.current ≠ next then
    { s.setState s.current .ready with current := next }
  else s

/-- `switch_thread` from the return of `switch_to` on. -/
def resume (s : Procs τ ι) : Procs τ ι := s.setState s.current .running

/-- `thread_block` up to the `printk` of its `schedule`. -/
def threadBlock (s : Procs τ ι) (state : ProcState) : Procs τ ι × Option τ :=
  (s.setState s.current state).pick

/-- `thread_unblock`, with the message where it panics; no result where
`list_find` is still walking after `fuel` turns. -/
def threadUnblock (s : Procs τ ι) (proc : τ) (fuel : ℕ) :
    Option (Except String (Procs τ ι)) :=
  let state := s.procState proc
  if state = .waiting ∨ state = .hanging ∨ state = .blocked then
    (listFind s.links readyList (node proc) fuel).map fun found =>
      if found then
        .error "thread unblock:blocked thread already in ready list"
      else
        let s := { s with
          links := listAddHead s.links readyList (node proc) }
        .ok (s.setState proc .ready)
  else some (.error "already unblocked\n")

/-- The ready list holds the threads `l`. -/
def Ready (s : Procs τ ι) (l : List τ) : Prop :=
  s.links.Ring .readyList (l.map .proc)

theorem Ready.unique {s : Procs τ ι} {l l' : List τ} (hready : s.Ready l)
    (hready' : s.Ready l') : l = l' := by
  have hmap : l.map Node.proc = l'.map Node.proc := Ring.unique hready hready'
  exact List.map_injective_iff.mpr (fun _ _ => Node.proc.inj) hmap

/-! ## What `schedule` does to the list -/

variable {s : Procs τ ι} {l : List τ} {next : τ}

theorem pick_of_ticks (hticks : s.ticks s.current ≠ 0) :
    s.pick = (s, none) := by
  rw [pick, if_neg hticks]

theorem pick_nil (hready : s.Ready []) (hticks : s.ticks s.current = 0) :
    s.pick = (s.setTicks s.current (s.prio s.current), none) := by
  have hempty : listEmpty s.links readyList = true :=
    (listEmpty_iff hready).mpr rfl
  rw [pick, if_pos hticks, if_pos hempty]

theorem pick_cons (hready : s.Ready (next :: l))
    (hticks : s.ticks s.current = 0) :
    s.pick = ({ s with
      links := listAddTail (listRemove s.links (node next)) readyList
        (node s.current)
      procState := Function.update
        (Function.update s.procState s.current .ready) next .running
      ticks := Function.update s.ticks s.current (s.prio s.current) },
      some next) := by
  have hring : s.links.Ring .readyList (.proc next :: l.map .proc) := hready
  have hfull : ¬ listEmpty s.links readyList = true := fun hempty => by
    simpa using (listEmpty_iff hring).mp hempty
  rw [pick, if_pos hticks, if_neg hfull, readyList, listFront_eq hring,
    listPop_cons hring]
  rfl

omit [DecidableEq τ] [DecidableEq ι] in
theorem proc_not_mem {t : τ} (ht : t ∉ l) :
    (Node.proc t : Node τ ι) ∉ Node.readyList :: l.map .proc := by
  simpa using ht

/-- After `schedule` has chosen, the thread that runs stands at the end of the
ready list and the chosen one is in no list. -/
theorem Ready.afterPick (hready : s.Ready (next :: l))
    (hcurrent : s.current ∉ l) :
    (listAddTail (listRemove s.links (node next)) readyList
      (node s.current)).Ring .readyList ((l ++ [s.current]).map .proc) := by
  have hrest : (listRemove s.links (node next)).Ring .readyList
      (l.map .proc) := remove_ring (show s.links.Ring _ ([] ++ _ :: _) from hready)
  rw [List.map_append]
  exact addTail_ring hrest (proc_not_mem hcurrent)

/-- The links `schedule` may write are those of the ready list and of the
thread that runs. -/
theorem Ready.pick_agreeOff (hready : s.Ready (next :: l)) :
    AgreeOff {a | a ∈ .readyList :: (s.current :: next :: l).map .proc} s.links
      (listAddTail (listRemove s.links (node next)) readyList
        (node s.current)) := by
  have hring : s.links.Ring .readyList ([] ++ .proc next :: l.map .proc) :=
    hready
  have hrest : (listRemove s.links (node next)).Ring .readyList
      (l.map .proc) := remove_ring hring
  have hremove := remove_agreeOff hring
  have hadd := addBefore_agreeOff hrest List.mem_cons_self (.proc s.current)
  refine (hremove.mono ?_).trans (hadd.mono ?_)
  · intro a ha
    simp only [List.nil_append, Set.mem_ofPred_eq, List.mem_cons,
      List.map_cons] at ha ⊢
    tauto
  · intro a ha
    simp only [Set.mem_ofPred_eq, List.mem_cons, List.map_cons] at ha ⊢
    tauto

/-- The thread `schedule` has chosen is in no list. -/
theorem Ready.pick_next (hready : s.Ready (next :: l))
    (hnext : next ∉ s.current :: l) :
    (listAddTail (listRemove s.links (node next)) readyList
      (node s.current)).next (node next) = none := by
  have hrest : (listRemove s.links (node next)).Ring .readyList
      (l.map .proc) := remove_ring (show s.links.Ring _ ([] ++ _ :: _) from hready)
  have hadd := addBefore_agreeOff hrest List.mem_cons_self (.proc s.current)
  have hkept := (hadd (.proc next) (by simpa using hnext)).1
  exact hkept.trans (setNext_next_self _ _ _)

/-- `memset` of a PCB that is in no list. -/
theorem cleared_agreeOff (links : Links (Node τ ι)) (t : τ) :
    AgreeOff {a | a ∈ [.proc t]} links
      ((links.setNext (node t) none).setPrev (node t) none) := by
  have hself : ∀ a : Node τ ι, node t = some a →
      a ∈ {a | a ∈ [Node.proc t]} := by
    rintro a ⟨⟩
    exact List.mem_singleton_self (Node.proc t)
  exact (agreeOff_setNext links none hself).trans
    (agreeOff_setPrev _ none hself)

theorem Ready.cleared (hready : s.Ready l) {t : τ} (ht : t ∉ l) :
    ((s.links.setNext (node t) none).setPrev (node t) none).Ring .readyList
      (l.map .proc) := by
  refine (cleared_agreeOff s.links t).ring (fun a ha hmem => ?_) hready
  rw [List.mem_singleton.mp hmem] at ha
  exact proc_not_mem ht ha

/-- A new thread stands at the end of the ready list. -/
theorem Ready.afterCreate (hready : s.Ready l) {t : τ} (ht : t ∉ l)
    (prio : BitVec 8) : (s.kthreadCreate t prio).2.Ready (l ++ [t]) := by
  change Ring _ _ _
  rw [List.map_append]
  exact addTail_ring (hready.cleared ht) (proc_not_mem ht)

theorem Ready.create_agreeOff (hready : s.Ready l) {t : τ} (ht : t ∉ l)
    (prio : BitVec 8) :
    AgreeOff {a | a ∈ .readyList :: (t :: l).map .proc} s.links
      (s.kthreadCreate t prio).2.links := by
  have hadd := addBefore_agreeOff (hready.cleared ht) List.mem_cons_self
    (.proc t)
  refine ((cleared_agreeOff s.links t).mono ?_).trans (hadd.mono ?_)
  · intro a ha
    simp only [Set.mem_ofPred_eq, List.mem_cons, List.map_cons,
      List.not_mem_nil] at ha ⊢
    tauto
  · intro a ha
    simp only [Set.mem_ofPred_eq, List.mem_cons, List.map_cons] at ha ⊢
    tauto

end Procs
end Sched
end OS32
