import OS32.SchedModel

/-!
# Round robin

The scheduler under the timer alone: threads are created and the timer ticks.
A thread that is switched out stands inside `switch_to`; when it gets the CPU
back it finishes its own call of `timer_callback`.  The `printk` of `schedule`
is left out, as it does not touch the lists here.
-/

namespace OS32

open NullList Links IntrusiveList Transition

namespace Sched

variable {τ ι : Type*} [DecidableEq τ] [DecidableEq ι]

/-- `inSwitch t` says that `t` has been switched out by `switch_to`.  The last
two fields record the thread switches and the threads there are. -/
structure RoundRobin (τ ι : Type*) where
  procs : Procs τ ι
  tick : Uint
  inSwitch : τ → Bool
  switches : ℕ
  created : List τ

namespace RoundRobin

/-- After `init_sched`, on PCBs with any contents. -/
def start (procs : Procs τ ι) (idle : τ) (tick : Uint) : RoundRobin τ ι :=
  ⟨procs.initSched idle, tick, fun _ => false, 0, [idle]⟩

/-- `timer_callback` up to the `printk` of `schedule`. -/
def ticked (s : RoundRobin τ ι) : Procs τ ι × Option τ :=
  (s.procs.setTicks s.procs.current (s.procs.ticks s.procs.current - 1)).pick

def timerCallback (s : RoundRobin τ ι) : RoundRobin τ ι :=
  let procs := s.ticked.1
  match s.ticked.2 with
  | none => { s with procs := procs, tick := s.tick + 1 }
  | some next =>
      if procs.current ≠ next then
        let s' := { s with
          procs := procs.switchThread next
          inSwitch := Function.update
            (Function.update s.inSwitch procs.current true) next false
          switches := s.switches + 1 }
        -- a new thread starts at its function instead
        if s.inSwitch next then
          { s' with procs := s'.procs.resume, tick := s.tick + 1 }
        else s'
      else { s with procs := procs, tick := s.tick + 1 }

inductive Act (τ : Type*) where
  | create (t : τ) (prio : BitVec 8)
  | timer

/-- `alloc_proc` does not hand out a PCB that is in use. -/
def next (s : RoundRobin τ ι) : Act τ → Option (RoundRobin τ ι)
  | .create t prio =>
      if t ∈ s.created then none
      else some { s with
        procs := (s.procs.kthreadCreate t prio).2
        created := s.created ++ [t] }
  | .timer => some s.timerCallback

def Step (s : RoundRobin τ ι) (a : Act τ) (s' : RoundRobin τ ι) : Prop :=
  next s a = some s'

/-- `current` runs and the other threads wait in the ready list `l`. -/
structure Inv (s : RoundRobin τ ι) (l : List τ) : Prop where
  ready : s.procs.Ready l
  mem : ∀ t, t ∈ s.created ↔ t ∈ s.procs.current :: l
  nodup : (s.procs.current :: l).Nodup
  running : s.procs.procState s.procs.current = .running
  others : ∀ t ∈ l, s.procs.procState t = .ready

variable {s s' : RoundRobin τ ι} {l : List τ}

theorem start_inv (procs : Procs τ ι) (idle : τ) (tick : Uint) :
    Inv (start procs idle tick) [] where
  ready := by
    let first : Links (Node τ ι) := listInit procs.links readyList
    let second := listInit first (some Node.blockList)
    have hring : first.Ring .readyList [] := init_ring _ _
    -- the other two heads are initialised after the ready list
    have hsecond := (init_agreeOff first Node.blockList).ring (by simp) hring
    exact (init_agreeOff second Node.hangingList).ring (by simp) hsecond
  mem := by simp [start, Procs.initSched, Procs.threadIdle, Procs.setState]
  nodup := List.nodup_singleton _
  running := by
    simp [start, Procs.initSched, Procs.threadIdle, Procs.setState]
  others := by simp

/-! ## The steps -/

/-- A tick that leaves the thread running. -/
theorem timerCallback_stays (hnone : s.ticked.2 = none) :
    s.timerCallback = { s with procs := s.ticked.1, tick := s.tick + 1 } := by
  simp only [timerCallback, hnone]

theorem ticked_stays (hready : s.procs.Ready l) (hl : l = [] ∨
    s.procs.ticks s.procs.current - 1 ≠ 0) :
    ∃ ticks, s.ticked = ({ s.procs with ticks := ticks }, none) := by
  by_cases hzero : s.procs.ticks s.procs.current - 1 = 0
  · rcases hl with rfl | hne
    · exact ⟨_, Procs.pick_nil hready (by simpa [Procs.setTicks] using hzero)⟩
    · exact absurd hzero hne
  · exact ⟨_, Procs.pick_of_ticks (by simpa [Procs.setTicks] using hzero)⟩

omit [DecidableEq τ] [DecidableEq ι] in
theorem Inv.afterStay (hs : Inv s l) (ticks : τ → BitVec 8) :
    Inv { s with procs := { s.procs with ticks := ticks }, tick := s.tick + 1 }
      l :=
  ⟨hs.ready, hs.mem, hs.nodup, hs.running, hs.others⟩

/-- A tick that switches to `u`, whether `u` has run before or not. -/
theorem timerCallback_switches {procs : Procs τ ι} {u : τ}
    (hticked : s.ticked = (procs, some u)) (hne : procs.current ≠ u)
    (hrunning : procs.procState u = .running)
    (hready : procs.procState procs.current = .ready) :
    ∃ tick inSwitch, s.timerCallback = { s with
      procs := { procs with current := u }
      tick := tick
      inSwitch := inSwitch
      switches := s.switches + 1 } := by
  have hstate : Function.update procs.procState procs.current .ready =
      procs.procState := by
    rw [← hready, Function.update_eq_self]
  have hstate' : Function.update procs.procState u .running =
      procs.procState := by
    rw [← hrunning, Function.update_eq_self]
  by_cases hin : s.inSwitch u = true
  · refine ⟨s.tick + 1, Function.update
      (Function.update s.inSwitch procs.current true) u false, ?_⟩
    simp only [timerCallback, hticked, if_pos hne, if_pos hin,
      Procs.switchThread, Procs.resume, Procs.setState, hstate, hstate']
  · refine ⟨s.tick, Function.update
      (Function.update s.inSwitch procs.current true) u false, ?_⟩
    simp only [timerCallback, hticked, if_pos hne, if_neg hin,
      Procs.switchThread, Procs.setState, hstate]

/-- What `timer_callback` leaves when it ends the time slice while `u` is the
first ready thread. -/
theorem Inv.timerCallback_eq {u : τ} (hs : Inv s (u :: l))
    (hzero : s.procs.ticks s.procs.current - 1 = 0) :
    ∃ tick inSwitch, s.timerCallback = { s with
      procs := { s.procs with
        links := listAddTail (listRemove s.procs.links (node u)) readyList
          (node s.procs.current)
        procState := Function.update
          (Function.update s.procs.procState s.procs.current .ready) u .running
        ticks := Function.update s.procs.ticks s.procs.current
          (s.procs.prio s.procs.current)
        current := u }
      tick := tick
      inSwitch := inSwitch
      switches := s.switches + 1 } := by
  have hnodup := hs.nodup
  have hne : s.procs.current ≠ u := by simp_all
  have hticked : s.ticked = _ := Procs.pick_cons
    (s := s.procs.setTicks s.procs.current _) hs.ready
    (by simpa [Procs.setTicks] using hzero)
  obtain ⟨tick, inSwitch, hcall⟩ := timerCallback_switches hticked hne
    (by simp) (by simp [Procs.setTicks, Function.update_of_ne hne])
  refine ⟨tick, inSwitch, ?_⟩
  rw [hcall]
  simp [Procs.setTicks]

/-- A tick that ends the time slice while `u` is the first ready thread. -/
theorem Inv.afterSwitch {u : τ} (hs : Inv s (u :: l))
    (hzero : s.procs.ticks s.procs.current - 1 = 0) :
    Inv s.timerCallback (l ++ [s.procs.current]) ∧
      s.timerCallback.procs.current = u ∧
      s.timerCallback.switches = s.switches + 1 := by
  have hnodup := hs.nodup
  have hne : s.procs.current ≠ u := by simp_all
  have hnot : s.procs.current ∉ l := by simp_all
  have hring := Procs.Ready.afterPick hs.ready hnot
  obtain ⟨tick, inSwitch, hcall⟩ := hs.timerCallback_eq hzero
  rw [hcall]
  refine ⟨⟨hring, fun t => ?_, ?_, ?_, fun t ht => ?_⟩, rfl, rfl⟩
  · rw [hs.mem t]
    simp only [List.mem_cons, List.mem_append, List.not_mem_nil, or_false]
    tauto
  · have hperm : (u :: (l ++ [s.procs.current])).Perm
        (s.procs.current :: u :: l) :=
      List.perm_append_singleton _ (u :: l)
    exact hperm.nodup_iff.mpr hnodup
  · simp
  · have htu : t ≠ u := by
      rintro rfl
      simp_all
    by_cases hcurrent : t = s.procs.current
    · simp [hcurrent, hne]
    · have hold : s.procs.procState t = .ready := by
        apply hs.others t
        simp_all
      simp [htu, hcurrent, hold]

theorem Inv.afterCreate {t : τ} (hs : Inv s l) (ht : t ∉ s.created)
    (prio : BitVec 8) :
    Inv { s with
      procs := (s.procs.kthreadCreate t prio).2
      created := s.created ++ [t] } (l ++ [t]) := by
  have hnot : t ∉ s.procs.current :: l := by rwa [← hs.mem t]
  have hne : s.procs.current ≠ t := fun heq => hnot (by simp [heq])
  refine ⟨hs.ready.afterCreate (by simp_all) prio, fun u => ?_, ?_, ?_,
    fun u hu => ?_⟩
  · have hmem := hs.mem u
    simp only [List.mem_cons, List.mem_append, Procs.kthreadCreate,
      Procs.setState] at hmem ⊢
    rw [hmem]
    tauto
  · have hperm : (s.procs.current :: (l ++ [t])).Perm
        (t :: s.procs.current :: l) :=
      List.perm_append_singleton t (s.procs.current :: l)
    exact hperm.nodup_iff.mpr (List.nodup_cons.mpr ⟨hnot, hs.nodup⟩)
  · simpa [Procs.kthreadCreate, Procs.setState, Function.update_of_ne hne]
      using hs.running
  · by_cases hut : u = t
    · simp [hut, Procs.kthreadCreate, Procs.setState]
    · have hul : u ∈ l := by simpa [hut] using hu
      simpa [Procs.kthreadCreate, Procs.setState, Function.update_of_ne hut]
        using hs.others u hul

/-- What a step does to the queue `current :: l`: either nothing, or a new
thread joins at its end, or the first thread goes to its end. -/
theorem Inv.afterStep {a : Act τ} (hs : Inv s l) (hstep : Step s a s') :
    ∃ l', Inv s' l' ∧
      ((s'.switches = s.switches ∧
          ∃ new, s'.procs.current :: l' = s.procs.current :: l ++ new) ∨
        (s'.switches = s.switches + 1 ∧
          s'.procs.current :: l' = l ++ [s.procs.current])) := by
  cases a with
  | create t prio =>
      simp only [Step, next] at hstep
      split_ifs at hstep with ht
      obtain rfl := Option.some.inj hstep
      exact ⟨_, hs.afterCreate ht prio, Or.inl ⟨rfl, [t], rfl⟩⟩
  | timer =>
      obtain rfl := Option.some.inj hstep
      by_cases hstay : l = [] ∨ s.procs.ticks s.procs.current - 1 ≠ 0
      · obtain ⟨ticks, hticked⟩ := ticked_stays hs.ready hstay
        rw [timerCallback_stays (by rw [hticked]), hticked]
        exact ⟨l, hs.afterStay ticks, Or.inl ⟨rfl, [], by simp⟩⟩
      · push Not at hstay
        obtain ⟨u, l, rfl⟩ := List.exists_cons_of_ne_nil hstay.1
        obtain ⟨hinv, hcurrent, hswitches⟩ := hs.afterSwitch hstay.2
        exact ⟨_, hinv, Or.inr ⟨hswitches, by rw [hcurrent]; rfl⟩⟩

/-! ## Dispatch -/

/-- The queue of `s'`, as far as it has not been created since: the queue of
`s` without as many threads as there were switches. -/
def Ahead (s : RoundRobin τ ι) (l : List τ) (s' : RoundRobin τ ι)
    (l' : List τ) : Prop :=
  s.switches ≤ s'.switches ∧
    (s'.switches - s.switches ≤ l.length → ∃ rest,
      s'.procs.current :: l' =
        (s.procs.current :: l).drop (s'.switches - s.switches) ++ rest)

theorem ahead_of_run {acts : List (Act τ)} (hs : Inv s l)
    (hrun : Run Step s acts s') :
    ∃ l', Inv s' l' ∧ Ahead s l s' l' := by
  refine hrun.invariant (fun s' => ∃ l', Inv s' l' ∧ Ahead s l s' l') ?_
    ⟨l, hs, le_rfl, fun _ => ⟨[], by simp⟩⟩
  rintro s₁ a s₂ ⟨l₁, hs₁, hle, hahead⟩ hstep
  obtain ⟨l₂, hs₂, heffect⟩ := hs₁.afterStep hstep
  refine ⟨l₂, hs₂, ?_⟩
  rcases heffect with ⟨hswitches, new, hqueue⟩ | ⟨hswitches, hqueue⟩
  · rw [Ahead, hswitches]
    refine ⟨hle, fun hfew => ?_⟩
    obtain ⟨rest, hrest⟩ := hahead hfew
    exact ⟨rest ++ new, by rw [hqueue, hrest, List.append_assoc]⟩
  · have hnext : s₂.switches - s.switches = s₁.switches - s.switches + 1 := by
      omega
    refine ⟨by omega, fun hfew => ?_⟩
    rw [hnext] at hfew ⊢
    obtain ⟨rest, hrest⟩ := hahead (by omega)
    -- the thread at the front of the queue goes to its end
    have hlength : s₁.switches - s.switches < (s.procs.current :: l).length :=
      by simp; omega
    rw [List.drop_eq_getElem_cons hlength, List.cons_append,
      List.cons.injEq] at hrest
    exact ⟨rest ++ [s₁.procs.current], by
      rw [hqueue, hrest.2, List.append_assoc]⟩

/-- The ready list is served first in, first out. -/
theorem dispatch_fifo {acts : List (Act τ)} (hs : Inv s l)
    (hrun : Run Step s acts s') {k : ℕ}
    (hk : s'.switches = s.switches + k) (hfew : k ≤ l.length)
    {j : ℕ} (hj : j < l.length) : s'.procs.current = l[j] ↔ k = j + 1 := by
  obtain ⟨l', _, _, hahead⟩ := ahead_of_run hs hrun
  rw [hk, Nat.add_sub_cancel_left] at hahead
  obtain ⟨rest, hrest⟩ := hahead hfew
  have hlength : k < (s.procs.current :: l).length := by simp; omega
  rw [List.drop_eq_getElem_cons hlength, List.cons_append,
    List.cons.injEq] at hrest
  rw [hrest.1, ← List.getElem_cons_succ s.procs.current l j (by simp; omega)]
  exact hs.nodup.getElem_inj_iff

/-- In every state between the steps the threads are the current one, which
runs, and those of the ready list, which are ready and come to run in the order
of the list. -/
theorem round_robin {procs : Procs τ ι} {idle : τ} {tick : Uint}
    {acts : List (Act τ)} {s : RoundRobin τ ι}
    (hrun : Run Step (start procs idle tick) acts s) :
    ∃ l, s.procs.Ready l ∧
      (s.procs.current :: l).Nodup ∧
      (∀ t, t ∈ s.created ↔ t ∈ s.procs.current :: l) ∧
      (∀ t ∈ s.created, s.procs.procState t =
        if t = s.procs.current then .running else .ready) ∧
      ∀ acts' s', Run Step s acts' s' →
        ∀ k ≤ l.length, s'.switches = s.switches + k →
          ∀ j (hj : j < l.length), s'.procs.current = l[j] ↔ k = j + 1 := by
  obtain ⟨l, hs, _⟩ := ahead_of_run (start_inv procs idle tick) hrun
  refine ⟨l, hs.ready, hs.nodup, hs.mem, fun t ht => ?_,
    fun acts' s' hrun' k hfew hk j hj => dispatch_fifo hs hrun' hk hfew hj⟩
  by_cases hcurrent : t = s.procs.current
  · rw [if_pos hcurrent, hcurrent]
    exact hs.running
  · rw [if_neg hcurrent]
    apply hs.others t
    simpa [hcurrent] using (hs.mem t).mp ht

/-- PCBs in zeroed memory. -/
def zeroed : Procs ℕ Unit :=
  ⟨⟨fun _ => none, fun _ => none⟩, 0, 0, fun _ => 0, fun _ => .create,
    fun _ => 0, fun _ => 0⟩

/-- The boot thread has created two threads. -/
theorem three_threads : ∃ s,
    exec next (start zeroed 0 0) [.create 1 5, .create 2 3] = some s ∧
      s.procs.Ready [1, 2] ∧ s.procs.current = 0 ∧ s.created = [0, 1, 2] ∧
      s.procs.ticks 0 = 100 ∧ [0, 1, 2].map s.procs.prio = [100, 5, 3] := by
  have hfirst := (start_inv zeroed 0 0).afterCreate (t := 1) (by decide) 5
  have hsecond := hfirst.afterCreate (t := 2) (by decide) 3
  exact ⟨_, rfl, hsecond.ready, rfl, rfl, rfl, rfl⟩

/-- After 105 ticks the second thread of the ready list runs. -/
theorem round_robin_two_threads :
    ∃ s s', Run Step (start zeroed 0 0) [.create 1 5, .create 2 3] s ∧
      s.procs.Ready [1, 2] ∧
      (∀ t ∈ [0, 1, 2], s.procs.procState t =
        if t = 0 then .running else .ready) ∧
      Run Step s (List.replicate 105 .timer) s' ∧
      s'.switches = s.switches + 2 ∧ s'.procs.current = 2 := by
  obtain ⟨s, hexec, hready, hcurrent, hcreated, _⟩ := three_threads
  have hrun : Run Step (start zeroed 0 0) [.create 1 5, .create 2 3] s :=
    Run.of_exec (fun _ _ _ h => h) hexec
  have hlook : ((exec next (start zeroed 0 0) [.create 1 5, .create 2 3]).bind
      fun s => (exec next s (List.replicate 105 .timer)).map fun s' =>
        decide (s'.switches = s.switches + 2)) = some true := by
    decide +kernel
  rw [hexec, Option.bind_some] at hlook
  obtain ⟨s', hexec', hswitches⟩ := Option.map_eq_some_iff.mp hlook
  have hswitches := of_decide_eq_true hswitches
  have hrun' : Run Step s (List.replicate 105 .timer) s' :=
    Run.of_exec (fun _ _ _ h => h) hexec'
  obtain ⟨l, hready', _, _, hstates, hturns⟩ := round_robin hrun
  obtain rfl := hready.unique hready'
  rw [hcreated, hcurrent] at hstates
  exact ⟨s, s', hrun, hready, hstates, hrun', hswitches,
    (hturns _ s' hrun' 2 le_rfl hswitches 1 (by decide)).mpr rfl⟩

end RoundRobin
end Sched
end OS32
