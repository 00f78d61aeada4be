import OS32.Rotation
import OS32.TimeSlices

/-!
# Fair shares

The threads under the timer are a rota of the processor: a thread is the holder
while it is current, and its quantum is what its priority says.  So the ready
list is a timetable of the next ticks, and every round of it gives each thread
its share.
-/

namespace OS32

open NullList Links IntrusiveList Transition

namespace Sched
namespace RoundRobin

variable {τ ι : Type*} [DecidableEq τ] [DecidableEq ι]

/-- The ticks after which `ticks`, a byte, has come down to zero. -/
def budget (ticks : BitVec 8) : ℕ :=
  if ticks = 0 then 256 else ticks.toNat

/-- What an act is for the rota. -/
def Act.event : Act τ → Rota.Event τ
  | .create t prio => .join t (budget prio)
  | .timer => .tick

/-- The rota that the ready list `r.queue` stands for. -/
structure Follows (s : RoundRobin τ ι) (r : Rota τ) : Prop where
  full : Full s r.queue
  holder : r.holder = s.procs.current
  left : r.left = budget (s.procs.ticks s.procs.current)
  quantum : ∀ t, r.quantum t = budget (s.procs.prio t)

variable {s s' : RoundRobin τ ι} {l : List τ} {r : Rota τ}

theorem budget_pos (ticks : BitVec 8) : 0 < budget ticks := by
  unfold budget
  split_ifs with hzero
  · omega
  · bv_omega

theorem budget_one_iff {ticks : BitVec 8} :
    budget ticks = 1 ↔ ticks - 1 = 0 := by
  unfold budget
  split_ifs with hzero
  · subst hzero
    decide
  · constructor <;> intro h <;> bv_omega

theorem budget_pred {ticks : BitVec 8} (hone : ticks - 1 ≠ 0) :
    budget (ticks - 1) = budget ticks - 1 := by
  unfold budget
  rw [if_neg hone]
  split_ifs with hzero
  · subst hzero
    decide
  · bv_omega

theorem budget_injective : Function.Injective budget := by
  intro a b heq
  unfold budget at heq
  split_ifs at heq <;> bv_omega

omit [DecidableEq τ] [DecidableEq ι] in
theorem due_iff : s.Due ↔ budget (s.procs.ticks s.procs.current) = 1 :=
  budget_one_iff.symm

omit [DecidableEq τ] in
@[simp] theorem ticks_events (acts : List (Act τ)) :
    Rota.ticks (acts.map Act.event) = timers acts := by
  rw [Rota.ticks, List.countP_map, timers]
  refine List.countP_congr fun a _ => ?_
  cases a <;> rfl

omit [DecidableEq τ] [DecidableEq ι] in
/-- Which threads have their whole time slice before them does not depend on
the order of the ready list. -/
theorem Full.reorder {l' : List τ} (hs : Full s l) (hs' : Inv s l') :
    Full s l' := by
  refine ⟨hs', fun t ht => ?_⟩
  have hne : t ≠ s.procs.current := by
    rintro rfl
    exact (List.nodup_cons.mp hs'.nodup).1 ht
  have hmem : t ∈ s.procs.current :: l :=
    (hs.inv.mem t).mp ((hs'.mem t).mpr (List.mem_cons_of_mem _ ht))
  exact hs.ticks t ((List.mem_cons.mp hmem).resolve_left hne)

/-! ## The steps -/

theorem start_follows (procs : Procs τ ι) (idle : τ) (tick : Uint) :
    ∃ r, Follows (start procs idle tick) r := by
  have hprio : (start procs idle tick).procs.prio idle = 100 := by
    simp [start, Procs.initSched, Procs.threadIdle, Procs.setState]
  have hticks : (start procs idle tick).procs.ticks idle = 100 := by
    simp [start, Procs.initSched, Procs.threadIdle, Procs.setState]
  have hbudget : budget 100 = 100 := by decide
  refine ⟨⟨idle, 100, [], fun t => budget ((start procs idle tick).procs.prio t),
    List.nodup_singleton _, fun _ => budget_pos _, by omega, ?_⟩,
    ⟨start_inv procs idle tick, by simp⟩, rfl, ?_, fun _ => rfl⟩
  · rw [hprio, hbudget]
  · change 100 = budget ((start procs idle tick).procs.ticks idle)
    rw [hticks, hbudget]

theorem Follows.create (hs : Follows s r) {t : τ} {prio : BitVec 8}
    (hstep : Step s (.create t prio) s') :
    ∃ r', Rota.Step r (.join t (budget prio)) r' ∧ Follows s' r' := by
  obtain ⟨ht, rfl⟩ := step_create hstep
  have hline : t ∉ r.line := by
    rw [Rota.line, hs.holder]
    rwa [hs.full.inv.mem] at ht
  have hne : s.procs.current ≠ t := by
    rintro heq
    exact hline (by rw [← heq, ← hs.holder]; exact List.mem_cons_self)
  obtain ⟨hticks, _⟩ := create_ticks (s := s) prio hne
  refine ⟨_, .join hline (budget_pos prio), hs.full.afterCreate ht prio,
    hs.holder, hs.left.trans (congrArg budget hticks.symm), fun u => ?_⟩
  by_cases hut : u = t
  · subst hut
    simp [Rota.join, Procs.kthreadCreate, Procs.setState]
  · obtain ⟨_, hprio⟩ := create_ticks (s := s) prio hut
    rw [hprio, ← hs.quantum u]
    exact Function.update_of_ne hut ..

theorem Follows.timer (hs : Follows s r) : Follows s.timerCallback r.tick := by
  by_cases hdue : s.Due
  · have hone : r.left = 1 := hs.left.trans (due_iff.mp hdue)
    have hline := r.pass_line
    obtain ⟨l', hfull, hticks⟩ := hs.full.afterDue hdue
    have hinv : Inv s.timerCallback r.pass.queue ∧
        r.pass.holder = s.timerCallback.procs.current ∧
        s.timerCallback.procs.prio = s.procs.prio := by
      cases hqueue : r.queue with
      | nil =>
          rw [hqueue] at hline
          obtain ⟨hholder, hrest⟩ := List.cons.inj hline
          have hready : s.procs.Ready [] := hqueue ▸ hs.full.inv.ready
          rw [hrest, hholder, hs.holder, timer_reload hready hdue]
          exact ⟨(hqueue ▸ hs.full.inv).afterStay _, rfl, rfl⟩
      | cons u rest =>
          rw [hqueue] at hline
          obtain ⟨hholder, hrest⟩ := List.cons.inj hline
          have hs' : Inv s (u :: rest) := hqueue ▸ hs.full.inv
          obtain ⟨hinv, hcurrent, _⟩ := hs'.afterSwitch hdue
          obtain ⟨tick, inSwitch, hcall⟩ := hs'.timerCallback_eq hdue
          refine ⟨?_, hholder.trans hcurrent.symm, by rw [hcall]⟩
          rw [hrest, hs.holder]
          exact hinv
    obtain ⟨hinv, hholder, hprio⟩ := hinv
    rw [Rota.tick_of_one hone]
    refine ⟨hfull.reorder hinv, hholder, ?_, fun t => ?_⟩
    · rw [Rota.pass_left, hs.quantum, hholder, hticks, hprio]
    · rw [Rota.pass_quantum, hs.quantum, hprio]
  · have hlt : 1 < r.left := by
      have hpos := r.left_pos
      have hne : r.left ≠ 1 := fun hone => hdue (due_iff.mpr (hs.left ▸ hone))
      omega
    obtain ⟨hholder, hleft, hqueue⟩ := Rota.tick_of_lt hlt
    have hfull := hs.full.afterQuiet hdue
    have hcall := timer_quiet hdue
    refine ⟨hqueue ▸ hfull, ?_, ?_, fun t => ?_⟩
    · rw [hholder, hs.holder, hcall]
      rfl
    · rw [hleft, hs.left, ← budget_pred hdue, hcall]
      simp [Procs.setTicks]
    · rw [Rota.tick_quantum, hs.quantum, hcall]
      rfl

theorem Follows.step {a : Act τ} (hs : Follows s r) (hstep : Step s a s') :
    ∃ r', Rota.Step r a.event r' ∧ Follows s' r' := by
  cases a with
  | create t prio => exact hs.create hstep
  | timer =>
      obtain rfl := Option.some.inj hstep
      exact ⟨r.tick, .tick, hs.timer⟩

theorem Follows.run {acts : List (Act τ)} (hs : Follows s r)
    (hrun : Run Step s acts s') :
    ∃ r', Run Rota.Step r (acts.map Act.event) r' ∧ Follows s' r' := by
  have hsimulate : ∃ r', Run (fun r a r' => Rota.Step r (Act.event a) r') r
      acts r' ∧ Follows s' r' :=
    hrun.simulate Follows (fun _ _ _ _ hs hstep => hs.step hstep) hs
  obtain ⟨r', hrun', hs'⟩ := hsimulate
  exact ⟨r', hrun'.map Act.event, hs'⟩

theorem Follows.iterate (hs : Follows s r) (n : ℕ) :
    Follows (timerCallback^[n] s) (Rota.tick^[n] r) := by
  induction n with
  | zero => exact hs
  | succ n ih =>
      rw [Function.iterate_succ_apply', Function.iterate_succ_apply']
      exact ih.timer

theorem follows_of_run {procs : Procs τ ι} {idle : τ} {tick : Uint}
    {acts : List (Act τ)} (hrun : Run Step (start procs idle tick) acts s) :
    ∃ r, Follows s r := by
  obtain ⟨r, hstart⟩ := start_follows procs idle tick
  obtain ⟨r', _, hs⟩ := hstart.run hrun
  exact ⟨r', hs⟩

/-! ## Waiting times and shares -/

/-- A ready thread gets the processor after the ticks that are left to the
current one and the time slices of those before it in the ready list, and keeps
it for its own time slice, whatever threads are created meanwhile. -/
theorem waits_its_turn {procs : Procs τ ι} {idle : τ} {tick : Uint}
    {acts : List (Act τ)} (hrun : Run Step (start procs idle tick) acts s) :
    ∃ l, s.procs.Ready l ∧
      (∀ t, t ∈ s.created ↔ t ∈ s.procs.current :: l) ∧
      ∀ acts' s', Run Step s acts' s' →
        (timers acts' < budget (s.procs.ticks s.procs.current) →
          s'.procs.current = s.procs.current) ∧
        ∀ first t rest, l = first ++ t :: rest → ∀ wait,
          wait = budget (s.procs.ticks s.procs.current) +
            (first.map fun u => budget (s.procs.prio u)).sum →
          wait ≤ timers acts' →
          timers acts' < wait + budget (s.procs.prio t) →
            s'.procs.current = t := by
  obtain ⟨r, hs⟩ := follows_of_run hrun
  refine ⟨r.queue, hs.full.inv.ready, hs.full.inv.mem, fun acts' s' hrun' => ?_⟩
  obtain ⟨r', hevents, hs'⟩ := hs.run hrun'
  rw [← hs'.holder]
  constructor
  · intro hlt
    rw [← hs.left] at hlt
    rw [← hs.holder]
    exact Rota.holder_of_run hevents
      (by rw [ticks_events]; exact Rota.timetable_holder hlt)
  · rintro first t rest hqueue _ rfl hle hlt
    simp only [← hs.left, ← hs.quantum] at hle hlt
    exact Rota.holder_of_run hevents
      (by rw [ticks_events]; exact Rota.timetable_turn hqueue hle hlt)

theorem waits_its_turn_three :
    ∃ s, Run Step (start zeroed 0 0) [.create 1 5, .create 2 3] s ∧
      s.procs.Ready [1, 2] ∧ (∀ t, t ∈ s.created ↔ t ∈ [0, 1, 2]) ∧
      ∀ acts s', Run Step s acts s' →
        (timers acts < 100 → s'.procs.current = 0) ∧
        (100 ≤ timers acts → timers acts < 105 → s'.procs.current = 1) ∧
        (105 ≤ timers acts → timers acts < 108 → s'.procs.current = 2) := by
  obtain ⟨s, hexec, hready, hcurrent, hcreated, hticks, hprio⟩ := three_threads
  have hrun : Run Step (start zeroed 0 0) _ s :=
    Run.of_exec (fun _ _ _ h => h) hexec
  obtain ⟨l, hready', hmem, hwaits⟩ := waits_its_turn hrun
  obtain rfl := hready.unique hready'
  simp only [List.map_cons, List.cons.injEq] at hprio
  rw [hcurrent] at hmem
  refine ⟨s, hrun, hready, hmem, fun acts s' hrun' => ?_⟩
  obtain ⟨hstays, hturns⟩ := hwaits acts s' hrun'
  rw [hcurrent, hticks] at hstays hturns
  have hfirst := hturns [] 1 [2] rfl 100 rfl
  have hsecond := hturns [1] 2 [] rfl 105
  rw [hprio.2.1] at hfirst
  rw [List.map_singleton, List.sum_singleton, hprio.2.1, hprio.2.2.1] at hsecond
  exact ⟨hstays, hfirst, hsecond rfl⟩

/-- Where no threads are created, the time slices of all threads make a round:
in any ticks as many each thread is current for its own time slice, and then
the current thread, what is left of its time slice and the ready list are as
before. -/
theorem fair_share {procs : Procs τ ι} {idle : τ} {tick : Uint}
    {acts : List (Act τ)} (hrun : Run Step (start procs idle tick) acts s) :
    ∃ l, s.procs.Ready l ∧ (s.procs.current :: l).Nodup ∧
      (∀ t, t ∈ s.created ↔ t ∈ s.procs.current :: l) ∧
      ∃ round, round = ((s.procs.current :: l).map fun t =>
          budget (s.procs.prio t)).sum ∧
        (∀ t ∈ s.created, Nat.count
          (fun i => (timerCallback^[i] s).procs.current = t) round =
            budget (s.procs.prio t)) ∧
        (timerCallback^[round] s).procs.Ready l ∧
        (timerCallback^[round] s).procs.current = s.procs.current ∧
        (timerCallback^[round] s).procs.ticks s.procs.current =
          s.procs.ticks s.procs.current := by
  obtain ⟨r, hs⟩ := follows_of_run hrun
  have hperiod : r.period = ((s.procs.current :: r.queue).map fun t =>
      budget (s.procs.prio t)).sum := by
    rw [Rota.period, Rota.line, hs.holder, funext hs.quantum]
  have hround := hs.iterate r.period
  rw [r.iterate_period] at hround
  refine ⟨r.queue, hs.full.inv.ready, hs.full.inv.nodup, hs.full.inv.mem,
    r.period, hperiod, fun t ht => ?_, hround.full.inv.ready,
    hround.holder.symm.trans hs.holder, ?_⟩
  · have hline : t ∈ r.line := by
      rw [Rota.line, hs.holder]
      exact (hs.full.inv.mem t).mp ht
    have hcount := Rota.count_period hline
    simp only [(hs.iterate _).holder] at hcount
    rw [hcount, hs.quantum]
  · apply budget_injective
    rw [← hs.left, hround.left, hround.holder.symm.trans hs.holder]

theorem fair_share_three :
    ∃ s, Run Step (start zeroed 0 0) [.create 1 5, .create 2 3] s ∧
      Nat.count (fun i => (timerCallback^[i] s).procs.current = 1) 108 = 5 := by
  obtain ⟨s, hexec, hready, hcurrent, hcreated, _, hprio⟩ := three_threads
  have hrun : Run Step (start zeroed 0 0) _ s :=
    Run.of_exec (fun _ _ _ h => h) hexec
  obtain ⟨l, hready', _, _, round, hround, hshare, _⟩ := fair_share hrun
  obtain rfl := hready.unique hready'
  rw [hcurrent] at hround
  rw [hcreated] at hshare
  have hlength : round = 108 := by
    calc round = (([0, 1, 2].map s.procs.prio).map budget).sum := by
          rw [hround, List.map_map]
          rfl
      _ = 108 := by
        rw [hprio]
        decide
  have hone : s.procs.prio 1 = 5 := by
    simp only [List.map_cons, List.cons.injEq] at hprio
    exact hprio.2.1
  have hcount := hshare 1 (by decide)
  rw [hlength, hone] at hcount
  exact ⟨s, hrun, hcount.trans (by decide)⟩

end RoundRobin
end Sched
end OS32
