import OS32.RoundRobin

/-!
# Time slices

`timer_callback` takes one from `ticks` of the current thread before `schedule`
compares it with zero, and `ticks` is a byte.  A thread of priority 0 therefore
keeps the processor for 256 ticks, all others for as many as their priority.
-/

namespace OS32

open NullList Links IntrusiveList Transition

namespace Sched
namespace RoundRobin

variable {τ ι : Type*} [DecidableEq τ] [DecidableEq ι]

/-- At the next tick `schedule` switches to another thread, or sets `ticks`
again where no thread is ready. -/
def Due (s : RoundRobin τ ι) : Prop :=
  s.procs.ticks s.procs.current - 1 = 0

/-- A step in which `schedule` decides nothing. -/
def Quiet (s : RoundRobin τ ι) (a : Act τ) (s' : RoundRobin τ ι) : Prop :=
  Step s a s' ∧ (a = .timer → ¬ s.Due)

def isTimer : Act τ → Bool
  | .timer => true
  | .create .. => false

/-- The ticks among the acts. -/
def timers (acts : List (Act τ)) : ℕ := acts.countP isTimer

/-- The ticks the priority of the current thread allows. -/
def slice (s : RoundRobin τ ι) : ℕ :=
  max (s.procs.prio s.procs.current).toNat 1

/-- From a decision on the current thread keeps the processor until the next
decision, and that is the tick which its priority says. -/
structure KeepsSlice (s : RoundRobin τ ι) : Prop where
  current : ∀ acts s', Run Quiet s acts s' →
    s'.procs.current = s.procs.current
  bound : ∀ acts s', Run Quiet s acts s' → timers acts < s.slice
  count : ∀ acts s', Run Quiet s acts s' → s'.Due →
    timers acts + 1 = s.slice

variable {s s' : RoundRobin τ ι} {l : List τ}

omit [DecidableEq τ] in
@[simp] theorem timers_snoc (acts : List (Act τ)) (a : Act τ) :
    timers (acts ++ [a]) = timers acts + if isTimer a then 1 else 0 := by
  simp [timers, List.countP_append, List.countP_singleton]

/-! ## Steps -/

/-- The threads that wait have their whole time slice before them. -/
structure Full (s : RoundRobin τ ι) (l : List τ) : Prop where
  inv : Inv s l
  ticks : ∀ t ∈ l, s.procs.ticks t = s.procs.prio t

theorem timer_quiet (hdue : ¬ s.Due) :
    s.timerCallback = { s with
      procs := s.procs.setTicks s.procs.current
        (s.procs.ticks s.procs.current - 1)
      tick := s.tick + 1 } := by
  have hticked : s.ticked = (s.procs.setTicks s.procs.current
      (s.procs.ticks s.procs.current - 1), none) := by
    refine Procs.pick_of_ticks ?_
    simpa [Procs.setTicks, Due] using hdue
  rw [timerCallback_stays (by rw [hticked]), hticked]

theorem timer_reload (hready : s.procs.Ready []) (hdue : s.Due) :
    s.timerCallback = { s with
      procs := s.procs.setTicks s.procs.current
        (s.procs.prio s.procs.current)
      tick := s.tick + 1 } := by
  have hticked : s.ticked = (s.procs.setTicks s.procs.current
      (s.procs.prio s.procs.current), none) := by
    have hpick := Procs.pick_nil (s := s.procs.setTicks s.procs.current
      (s.procs.ticks s.procs.current - 1)) hready
      (by simpa [Procs.setTicks, Due] using hdue)
    rw [ticked, hpick]
    simp [Procs.setTicks]
  rw [timerCallback_stays (by rw [hticked]), hticked]

/-- A new thread has its whole time slice before it; nothing happens to the
others. -/
theorem create_ticks {t u : τ} (prio : BitVec 8) (hu : u ≠ t) :
    (s.procs.kthreadCreate t prio).2.ticks u = s.procs.ticks u ∧
      (s.procs.kthreadCreate t prio).2.prio u = s.procs.prio u := by
  simp [Procs.kthreadCreate, Procs.setState, hu]

theorem create_ticks_self {t : τ} (prio : BitVec 8) :
    (s.procs.kthreadCreate t prio).2.ticks t =
      (s.procs.kthreadCreate t prio).2.prio t := by
  simp [Procs.kthreadCreate, Procs.setState]

theorem step_create {t : τ} {prio : BitVec 8}
    (hstep : Step s (.create t prio) s') :
    t ∉ s.created ∧ s' = { s with
      procs := (s.procs.kthreadCreate t prio).2
      created := s.created ++ [t] } := by
  simp only [Step, next] at hstep
  split_ifs at hstep with ht
  exact ⟨ht, (Option.some.inj hstep).symm⟩

theorem Full.afterCreate {t : τ} (hs : Full s l) (ht : t ∉ s.created)
    (prio : BitVec 8) :
    Full { s with
      procs := (s.procs.kthreadCreate t prio).2
      created := s.created ++ [t] } (l ++ [t]) := by
  refine ⟨hs.inv.afterCreate ht prio, fun u hu => ?_⟩
  by_cases hut : u = t
  · subst hut
    exact create_ticks_self prio
  · have hul : u ∈ l := by simpa [hut] using hu
    obtain ⟨hticks, hprio⟩ := create_ticks (s := s) prio hut
    exact hticks.trans ((hs.ticks u hul).trans hprio.symm)

theorem Full.afterQuiet (hs : Full s l) (hdue : ¬ s.Due) :
    Full s.timerCallback l := by
  rw [timer_quiet hdue]
  refine ⟨hs.inv.afterStay _, fun u hu => ?_⟩
  have hne : u ≠ s.procs.current := by
    rintro rfl
    exact (List.nodup_cons.mp hs.inv.nodup).1 hu
  simpa [Procs.setTicks, hne] using hs.ticks u hu

/-- The thread that runs after a decision has its whole time slice before
it. -/
theorem Full.afterDue (hs : Full s l) (hdue : s.Due) :
    ∃ l', Full s.timerCallback l' ∧
      s.timerCallback.procs.ticks s.timerCallback.procs.current =
        s.timerCallback.procs.prio s.timerCallback.procs.current := by
  cases l with
  | nil =>
      refine ⟨[], ?_⟩
      rw [timer_reload hs.inv.ready hdue]
      exact ⟨⟨hs.inv.afterStay _, by simp⟩, Function.update_self ..⟩
  | cons u l =>
      obtain ⟨hinv, _⟩ := hs.inv.afterSwitch hdue
      obtain ⟨tick, inSwitch, hcall⟩ := hs.inv.timerCallback_eq hdue
      have hne : u ≠ s.procs.current := by
        rintro rfl
        exact (List.nodup_cons.mp hs.inv.nodup).1 List.mem_cons_self
      refine ⟨l ++ [s.procs.current], ⟨hinv, fun t ht => ?_⟩, ?_⟩
      · rw [hcall]
        by_cases htc : t = s.procs.current
        · subst htc
          exact Function.update_self ..
        · have htl : t ∈ u :: l := by
            simp only [List.mem_append, List.mem_singleton, htc, or_false] at ht
            exact List.mem_cons_of_mem _ ht
          exact (Function.update_of_ne htc ..).trans (hs.ticks t htl)
      · rw [hcall]
        exact (Function.update_of_ne hne ..).trans
          (hs.ticks u List.mem_cons_self)

theorem Full.afterStep {a : Act τ} (hs : Full s l) (hstep : Step s a s') :
    ∃ l', Full s' l' := by
  cases a with
  | create t prio =>
      obtain ⟨ht, rfl⟩ := step_create hstep
      exact ⟨_, hs.afterCreate ht prio⟩
  | timer =>
      obtain rfl := Option.some.inj hstep
      by_cases hdue : s.Due
      · obtain ⟨l', hs', _⟩ := hs.afterDue hdue
        exact ⟨l', hs'⟩
      · exact ⟨l, hs.afterQuiet hdue⟩

theorem full_of_run {procs : Procs τ ι} {idle : τ} {tick : Uint}
    {acts : List (Act τ)} (hrun : Run Step (start procs idle tick) acts s) :
    ∃ l, Full s l := by
  refine hrun.invariant (fun s => ∃ l, Full s l) ?_
    ⟨[], start_inv procs idle tick, by simp⟩
  rintro s a s' ⟨l, hs⟩ hstep
  exact hs.afterStep hstep

/-! ## From one decision to the next -/

/-- Between two decisions each tick takes one from `ticks`, which does not
reach zero. -/
theorem quiet_run {acts : List (Act τ)} (hs : Full s l)
    (hpos : s.procs.ticks s.procs.current ≠ 0) (hrun : Run Quiet s acts s') :
    (∃ l', Full s' l') ∧ s'.procs.current = s.procs.current ∧
      s'.procs.ticks s.procs.current ≠ 0 ∧
      (s'.procs.ticks s.procs.current).toNat + timers acts =
        (s.procs.ticks s.procs.current).toNat := by
  induction hrun with
  | nil => exact ⟨⟨l, hs⟩, rfl, hpos, by simp [timers]⟩
  | @snoc acts s₁ s₂ a _ hquiet ih =>
      obtain ⟨⟨l₁, hs₁⟩, hcurrent, hne, hcount⟩ := ih
      obtain ⟨hstep, hdue⟩ := hquiet
      refine ⟨hs₁.afterStep hstep, ?_⟩
      cases a with
      | create t prio =>
          obtain ⟨ht, rfl⟩ := step_create hstep
          have hct : s.procs.current ≠ t := by
            rintro rfl
            apply ht
            rw [hs₁.inv.mem, hcurrent]
            exact List.mem_cons_self
          obtain ⟨hticks, _⟩ := create_ticks (s := s₁) prio hct
          refine ⟨hcurrent, ?_, ?_⟩
          · rw [hticks]
            exact hne
          · rw [hticks, timers_snoc]
            exact hcount
      | timer =>
          obtain rfl := Option.some.inj hstep
          have hnot := hdue rfl
          have hone : s₁.procs.ticks s.procs.current - 1 ≠ 0 := by
            rw [← hcurrent]
            exact hnot
          rw [timer_quiet hnot, hcurrent]
          refine ⟨hcurrent, ?_, ?_⟩
          · simpa [Procs.setTicks] using hone
          · simp only [Procs.setTicks, Function.update_self, timers_snoc,
              isTimer, if_true]
            generalize s₁.procs.ticks s.procs.current = ticks at hne hone hcount ⊢
            bv_omega

/-- A thread of priority 0 that was switched to is still current at the next
tick. -/
theorem prio_ne_zero {procs : Procs τ ι} {idle : τ} {tick : Uint}
    {acts : List (Act τ)} (hrun : Run Step (start procs idle tick) acts s)
    (hdue : s.Due) (hkeeps : s.timerCallback.KeepsSlice) :
    s.timerCallback.procs.prio s.timerCallback.procs.current ≠ 0 := by
  obtain ⟨l, hs⟩ := full_of_run hrun
  obtain ⟨_, _, hticks⟩ := hs.afterDue hdue
  generalize s.timerCallback = t at hkeeps hticks ⊢
  intro hzero
  rw [hzero] at hticks
  have hnot : ¬ t.Due := by
    unfold Due
    rw [hticks]
    decide
  have hone : Run Quiet t ([] ++ [.timer]) t.timerCallback :=
    .snoc .nil ⟨rfl, fun _ => hnot⟩
  have hbound := hkeeps.bound _ _ hone
  rw [slice, hzero, timers_snoc] at hbound
  simp [timers, isTimer] at hbound

/-- In every run the current thread keeps its time slice from any decision on
just if its priority is not 0. -/
theorem keepsSlice_iff {procs : Procs τ ι} {idle : τ} {tick : Uint}
    {acts : List (Act τ)} (hrun : Run Step (start procs idle tick) acts s)
    (hdue : s.Due) :
    s.timerCallback.KeepsSlice ↔
      s.timerCallback.procs.prio s.timerCallback.procs.current ≠ 0 := by
  refine ⟨prio_ne_zero hrun hdue, ?_⟩
  obtain ⟨l, hs⟩ := full_of_run hrun
  obtain ⟨l', hs', hticks⟩ := hs.afterDue hdue
  generalize s.timerCallback = t at hs' hticks ⊢
  intro hne
  have hpos : t.procs.ticks t.procs.current ≠ 0 := by rwa [hticks]
  have hprio : t.slice = (t.procs.ticks t.procs.current).toNat := by
    rw [slice, hticks]
    have hlt : 0 < (t.procs.prio t.procs.current).toNat := by bv_omega
    omega
  refine ⟨fun acts s' hquiet => (quiet_run hs' hpos hquiet).2.1, ?_, ?_⟩
  · intro acts s' hquiet
    obtain ⟨_, _, hleft, hcount⟩ := quiet_run hs' hpos hquiet
    rw [hprio]
    have hlt : 0 < (s'.procs.ticks t.procs.current).toNat := by bv_omega
    omega
  · intro acts s' hquiet hdue'
    obtain ⟨_, hcurrent, hleft, hcount⟩ := quiet_run hs' hpos hquiet
    unfold Due at hdue'
    rw [hcurrent] at hdue'
    have hone : (s'.procs.ticks t.procs.current).toNat = 1 := by bv_omega
    rw [hprio]
    omega

/-! ## A thread that gets the processor -/

/-- The timer alone leads to the next decision. -/
theorem run_until_due (hs : Full s l)
    (hpos : s.procs.ticks s.procs.current ≠ 0) :
    ∃ acts s', Run Step s acts s' ∧ s'.Due ∧ Full s' l ∧
      s'.procs.prio = s.procs.prio := by
  generalize hn : (s.procs.ticks s.procs.current).toNat = n
  induction n generalizing s with
  | zero => exact absurd (BitVec.toNat_inj.mp hn) hpos
  | succ n ih =>
      by_cases hdue : s.Due
      · exact ⟨[], s, .nil, hdue, hs, rfl⟩
      · have hfull := hs.afterQuiet hdue
        have hcall := timer_quiet hdue
        have hticks : s.timerCallback.procs.ticks
            s.timerCallback.procs.current =
            s.procs.ticks s.procs.current - 1 := by
          rw [hcall]
          exact Function.update_self ..
        have hstep : Run Step s ([] ++ [.timer]) s.timerCallback :=
          .snoc .nil rfl
        obtain ⟨acts, s', hrun, hdue', hs', hprio⟩ := ih hfull
          (by rw [hticks]; exact hdue)
          (by rw [hticks]; bv_omega)
        refine ⟨_, s', hstep.append hrun, hdue', hs', ?_⟩
        rw [hprio, hcall]
        rfl

/-- A thread is created and gets the processor from the idle thread. -/
theorem dispatched (prio : BitVec 8) :
    ∃ acts s, Run Step (start zeroed 0 0) acts s ∧ s.Due ∧
      s.timerCallback.procs.prio s.timerCallback.procs.current = prio := by
  have hstart : Full (start zeroed 0 0) [] := ⟨start_inv zeroed 0 0, by simp⟩
  have hcreate := hstart.afterCreate (t := 1) (by decide) prio
  obtain ⟨acts, s, hrun, hdue, hs, hprio⟩ :=
    run_until_due hcreate (show (100 : BitVec 8) ≠ 0 by decide)
  have hstep : Run Step (start zeroed 0 0) ([] ++ [.create 1 prio]) _ :=
    .snoc .nil rfl
  obtain ⟨tick, inSwitch, hcall⟩ := hs.inv.timerCallback_eq hdue
  refine ⟨_, s, hstep.append hrun, hdue, ?_⟩
  rw [hcall]
  change s.procs.prio 1 = prio
  rw [hprio]
  rfl

/-- A thread of priority 5. -/
theorem keepsSlice_five :
    ∃ acts s, Run Step (start zeroed 0 0) acts s ∧ s.Due ∧
      s.timerCallback.KeepsSlice := by
  obtain ⟨acts, s, hrun, hdue, hprio⟩ := dispatched 5
  refine ⟨acts, s, hrun, hdue, (keepsSlice_iff hrun hdue).mpr ?_⟩
  rw [hprio]
  decide

/-- A thread of priority 0. -/
theorem priority_zero_overruns : ¬ ∀ (procs : Procs ℕ Unit) (idle : ℕ)
    (tick : Uint) (acts : List (Act ℕ)) (s : RoundRobin ℕ Unit),
    Run Step (start procs idle tick) acts s → s.Due →
      s.timerCallback.KeepsSlice := by
  intro hall
  obtain ⟨acts, s, hrun, hdue, hprio⟩ := dispatched 0
  exact prio_ne_zero hrun hdue (hall _ _ _ _ _ hrun hdue) hprio

end RoundRobin
end Sched
end OS32
