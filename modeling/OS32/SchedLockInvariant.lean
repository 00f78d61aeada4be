import OS32.SchedLockModel
import OS32.Run

/-!
# One list for each thread

A PCB has one node for the ready list and for all wait queues.  As long as no
thread has to wait for a semaphore the wait queues stay empty, and the node of a
thread is in the ready list or, while the thread runs or has just been chosen by
`schedule`, in no list.
-/

namespace OS32

open NullList Links IntrusiveList Transition

namespace Sched

variable {τ ι : Type*} [DecidableEq τ]

/-- The other thread a call of `schedule` of `t` goes on to switch to. -/
def Frame.chosen (t : τ) : Frame τ ι → Option τ
  | .schedule next => if next = t then none else some next
  | _ => none

/-- All such threads. -/
def chosen (t : τ) (frames : List (Frame τ ι)) : List τ :=
  frames.filterMap (Frame.chosen t)

/-- No node has been added to a list while it was in one; the ready list and
the wait queues have no thread in common. -/
structure OneList (s : State τ ι) : Prop where
  clean : s.relinked = false
  apart : ∃ (ready : List τ) (waiting : ι → List τ),
    s.procs.Ready ready ∧
      (∀ lck, s.procs.links.Ring (.waiters lck)
        ((waiting lck).map .proc)) ∧
      (∀ lck, ready.Disjoint (waiting lck)) ∧
      ∀ lck lck', lck ≠ lck' → (waiting lck).Disjoint (waiting lck')

/-- `l` is the ready list.  The current thread is in it only between the two
halves of `schedule`, when the thread it has chosen is not. -/
structure Inv (s : State τ ι) (l : List τ) : Prop where
  clean : s.relinked = false
  ready : s.procs.Ready l
  queues : ∀ lck, s.procs.links.Ring (.waiters lck) []
  unlinked : ∀ t ∈ s.created, t ∉ l → Linked s.procs.links t = false
  created : ∀ t ∈ s.procs.current :: l, t ∈ s.created
  others : ∀ t, t ≠ s.procs.current → chosen t (s.frames t) = []
  between : (s.procs.current ∉ l ∧
      chosen s.procs.current (s.frames s.procs.current) = []) ∨
    ∃ u ∈ s.created, s.procs.current ∈ l ∧ u ∉ l ∧
      chosen s.procs.current (s.frames s.procs.current) = [u]

variable {s s' : State τ ι} {l : List τ} {rest frames : List (Frame τ ι)}

omit [DecidableEq τ] in
theorem linked_congr {links links' : Links (Node τ ι)} {t : τ}
    (hnext : links'.next (node t) = links.next (node t)) :
    Linked links' t = Linked links t := by
  rw [Linked, Linked, hnext]

theorem chosen_schedule {t u : τ} (hut : u ≠ t) :
    chosen t (.schedule u :: rest) = u :: chosen t rest := by
  simp [chosen, Frame.chosen, hut]

theorem chosen_schedule_self {t : τ} :
    chosen t (.schedule t :: rest) = chosen t rest := by
  simp [chosen, Frame.chosen]

theorem chosen_printk (t : τ) (console : ι) :
    chosen t (State.printk console rest) = chosen t rest := rfl

theorem chosen_eq_nil {t : τ}
    (hnone : ∀ next, Frame.schedule next ∉ frames) : chosen t frames = [] := by
  rw [chosen, List.filterMap_eq_nil_iff]
  intro frame hframe
  cases frame with
  | schedule next => exact absurd hframe (hnone next)
  | lock | consoleWrite | switchThread | panic => rfl

theorem Inv.nodup (hs : Inv s l) : l.Nodup :=
  List.Nodup.of_map _ (List.nodup_cons.mp hs.ready.nodup).2

theorem Inv.oneList (hs : Inv s l) : OneList s :=
  ⟨hs.clean, l, fun _ => [], hs.ready, hs.queues, by simp, by simp⟩

/-! ## Steps that leave the lists alone -/

/-- From `s` to `s'` the current thread has gone on, at most to another place
outside `schedule` above the calls `rest`. -/
structure Quiet (s s' : State τ ι) (rest : List (Frame τ ι)) : Prop where
  procs : s'.procs = s.procs
  created : s'.created = s.created
  relinked : s'.relinked = s.relinked
  frames : ∃ frames, s'.frames =
      Function.update s.frames s.procs.current frames ∧
    chosen s.procs.current frames = chosen s.procs.current rest

theorem quiet_setFrames (hframes : chosen s.procs.current frames =
    chosen s.procs.current rest) : Quiet s (s.setFrames frames) rest :=
  ⟨rfl, rfl, rfl, frames, rfl, hframes⟩

theorem quiet_lock (lck : ι) (pc : Pc) :
    Quiet s (s.setFrames (.lock lck pc :: rest)) rest :=
  quiet_setFrames rfl

theorem Quiet.assert {ok : Bool} {msg : String} {lck : ι} {pc : Pc}
    (hquiet : Quiet s s' rest) :
    Quiet s (s.assert ok msg (.lock lck pc :: rest) s') rest := by
  unfold State.assert
  split_ifs
  · exact hquiet
  · exact quiet_setFrames rfl

/-- The invariant depends on the lists, the current thread and its choice. -/
theorem Inv.afterFrames (hs : Inv s l) (hlinks : s'.procs.links = s.procs.links)
    (hcurrent : s'.procs.current = s.procs.current)
    (hcreated : s'.created = s.created) (hrelinked : s'.relinked = s.relinked)
    (hframes : s'.frames = Function.update s.frames s.procs.current frames)
    (hchosen : chosen s.procs.current frames =
      chosen s.procs.current (s.frames s.procs.current)) : Inv s' l := by
  refine ⟨hrelinked.trans hs.clean, ?_, ?_, ?_, ?_, ?_, ?_⟩
  · rw [Procs.Ready, hlinks]
    exact hs.ready
  · rw [hlinks]
    exact hs.queues
  · rw [hlinks, hcreated]
    exact hs.unlinked
  · rw [hcurrent, hcreated]
    exact hs.created
  · intro t ht
    rw [hcurrent] at ht
    rw [hframes, Function.update_of_ne ht]
    exact hs.others t ht
  · rw [hcurrent, hcreated, hframes, Function.update_self, hchosen]
    exact hs.between

theorem Inv.afterQuiet (hs : Inv s l) (hquiet : Quiet s s' rest)
    (hchosen : chosen s.procs.current rest =
      chosen s.procs.current (s.frames s.procs.current)) : Inv s' l := by
  obtain ⟨frames, hframes, hsame⟩ := hquiet.frames
  exact hs.afterFrames (by rw [hquiet.procs]) (by rw [hquiet.procs])
    hquiet.created hquiet.relinked hframes (hsame.trans hchosen)

/-! ## Steps of the locks -/

variable [DecidableEq ι] {console : ι} {fuel : ℕ} {u : τ}

/-- The choice of `schedule` after the timer has counted down. -/
def State.ticked (s : State τ ι) : Procs τ ι × Option τ :=
  (s.procs.setTicks s.procs.current (s.procs.ticks s.procs.current - 1)).pick

/-- `sema_down` finds the semaphore free, and a tick that ends a time slice for
another thread does not come in the middle of `schedule`. -/
def Smooth (s : State τ ι) : Act τ ι → Prop
  | .tick => ∀ u, s.ticked.2 = some u → u ≠ s.procs.current →
      ∀ next, .schedule next ∉ s.frames s.procs.current
  | .run => ∀ lck rest,
      s.frames s.procs.current = .lock lck .semaDown :: rest →
        (s.locks lck).value ≠ 0
  | _ => True

theorem Quiet.ofSetLock {lck : ι} {lock : Lock τ}
    (hquiet : Quiet (s.setLock lck lock) s' rest) : Quiet s s' rest :=
  ⟨hquiet.procs, hquiet.created, hquiet.relinked, hquiet.frames⟩

theorem semaInc_quiet (lck : ι) : Quiet s (s.semaInc lck rest) rest :=
  .ofSetLock (.assert (quiet_setFrames rfl))

/-- With empty wait queues and without waiting, a step of `req_lock` or
`lock_release` is local to the lock. -/
theorem lockStep_quiet {lck : ι} {pc : Pc}
    (hqueue : s.procs.links.Ring (.waiters lck) [])
    (hfree : pc = .semaDown → (s.locks lck).value ≠ 0)
    (hstep : s.lockStep console fuel lck rest pc = some s') :
    Quiet s s' rest := by
  cases pc with
  | reqCheck =>
      obtain rfl := Option.some.inj hstep
      split_ifs <;> exact quiet_lock _ _
  | semaDown =>
      have hvalue := hfree rfl
      simp only [State.lockStep, State.semaDown, if_neg hvalue,
        Option.some.injEq] at hstep
      subst hstep
      exact .ofSetLock (.assert (quiet_lock _ _))
  | setHolder =>
      obtain rfl := Option.some.inj hstep
      exact .ofSetLock (quiet_lock _ _)
  | checkRepeat =>
      obtain rfl := Option.some.inj hstep
      exact .assert (quiet_lock _ _)
  | setRepeat =>
      obtain rfl := Option.some.inj hstep
      exact .ofSetLock (quiet_setFrames rfl)
  | incLoad =>
      obtain rfl := Option.some.inj hstep
      exact quiet_lock _ _
  | incStore repeatTimes =>
      obtain rfl := Option.some.inj hstep
      exact .ofSetLock (quiet_setFrames rfl)
  | relCheck =>
      obtain rfl := Option.some.inj hstep
      exact .assert (quiet_lock _ _)
  | relTest =>
      obtain rfl := Option.some.inj hstep
      split_ifs <;> exact quiet_lock _ _
  | decLoad =>
      obtain rfl := Option.some.inj hstep
      exact quiet_lock _ _
  | decStore repeatTimes =>
      obtain rfl := Option.some.inj hstep
      exact .ofSetLock (quiet_setFrames rfl)
  | checkLast =>
      obtain rfl := Option.some.inj hstep
      exact .assert (quiet_lock _ _)
  | clearHolder =>
      obtain rfl := Option.some.inj hstep
      exact .ofSetLock (quiet_lock _ _)
  | clearRepeat =>
      obtain rfl := Option.some.inj hstep
      exact .ofSetLock (quiet_lock _ _)
  | semaUp =>
      have hempty : listEmpty s.procs.links (waiters lck) = true :=
        (listEmpty_iff hqueue).mpr rfl
      simp only [State.lockStep, State.semaUp, if_pos hempty] at hstep
      split_ifs at hstep
      · obtain rfl := Option.some.inj hstep
        exact semaInc_quiet lck
      · obtain rfl := Option.some.inj hstep
        exact quiet_setFrames rfl
  | semaInc =>
      obtain rfl := Option.some.inj hstep
      exact semaInc_quiet lck

/-! ## Ticks -/

/-- A tick that leaves the lists alone. -/
theorem Inv.afterStay (hs : Inv s l) {procs procs' : Procs τ ι}
    (hpick : procs.pick = (procs', none))
    (hlinks : procs'.links = s.procs.links)
    (hcurrent : procs'.current = s.procs.current) :
    Inv (s.schedule console procs (s.frames s.procs.current)) l := by
  simp only [State.schedule, hpick]
  have hframes : (s.schedule console procs (s.frames s.procs.current)).frames =
      Function.update s.frames s.procs.current (s.frames s.procs.current) := by
    simp only [State.schedule, hpick, State.setFrames, hcurrent]
  simp only [State.schedule, hpick] at hframes
  exact hs.afterFrames hlinks hcurrent rfl rfl hframes rfl

/-- Nothing is added that is linked: the chosen thread has just been removed,
and the current one is not in the ready list unless it is the chosen one. -/
theorem Inv.pick_unlinked (hs : Inv s (u :: l))
    (hnot : s.procs.current ∉ l) :
    Linked (listPop s.procs.links readyList).2 s.procs.current = false := by
  have hring : s.procs.links.Ring .readyList ([] ++ .proc u :: l.map .proc) :=
    hs.ready
  have hpop : (listPop s.procs.links readyList).2 =
      listRemove s.procs.links (node u) := by
    rw [readyList, listPop_cons hring]
    rfl
  rw [hpop]
  by_cases hu : u = s.procs.current
  · rw [hu, Linked, listRemove, setNext_next_self]
    rfl
  · have hcurrent : s.procs.current ∉ u :: l := by
      simpa [Ne.symm hu] using hnot
    have hkept := (remove_agreeOff hring (.proc s.procs.current)
      (Procs.proc_not_mem hcurrent)).1
    exact (linked_congr hkept).trans
      (hs.unlinked _ (hs.created _ List.mem_cons_self) hcurrent)

/-- A tick that ends the time slice while `u` is the first ready thread. -/
theorem Inv.afterPick (hs : Inv s (u :: l)) {procs : Procs τ ι}
    (hlinks : procs.links = s.procs.links)
    (hcurrent : procs.current = s.procs.current)
    (hticks : procs.ticks procs.current = 0)
    (hsmooth : u ≠ s.procs.current →
      chosen s.procs.current (s.frames s.procs.current) = []) :
    Inv (s.schedule console procs (s.frames s.procs.current))
      (l ++ [s.procs.current]) := by
  have hnodup := List.nodup_cons.mp hs.nodup
  have hnot : s.procs.current ∉ l := by
    by_cases hu : u = s.procs.current
    · exact hu ▸ hnodup.1
    · rcases hs.between with ⟨hnot, _⟩ | ⟨x, _, _, _, hx⟩
      · exact fun hmem => hnot (by simp [hmem])
      · rw [hsmooth hu] at hx
        cases hx
  have hready : procs.Ready (u :: l) := by
    rw [Procs.Ready, hlinks]
    exact hs.ready
  have hpick := Procs.pick_cons hready hticks
  have hagree := Procs.Ready.pick_agreeOff hs.ready
  have hring := hs.ready.afterPick hnot
  have hunlinked := hs.pick_unlinked hnot
  rw [hlinks, hcurrent] at hpick
  simp only [State.schedule, hpick]
  refine ⟨?_, hring, fun lck => ?_, fun t ht htl => ?_, fun t ht => ?_,
    fun t ht => ?_, Or.inr ?_⟩
  · simp [State.setFrames, State.noteAdd, hlinks, hcurrent, hs.clean, hunlinked]
  · exact hagree.ring (by simp) (hs.queues lck)
  · have hne : t ≠ s.procs.current := fun heq => htl (by simp [heq])
    have htl' : t ∉ l := fun hmem => htl (by simp [hmem])
    by_cases htu : t = u
    · subst htu
      have hfree := hs.ready.pick_next (by simp [hne, hnodup.1])
      simp [State.setFrames, State.noteAdd, Linked, hfree]
    · have hkept := (hagree (.proc t) (by simp [hne, htu, htl'])).1
      exact (linked_congr hkept).trans (hs.unlinked t ht (by simp [htu, htl']))
  · apply hs.created t
    have hmem : t = s.procs.current ∨ t ∈ l := by
      simpa [State.setFrames, State.noteAdd, hcurrent, or_comm] using ht
    simp only [List.mem_cons]
    tauto
  · have hne : t ≠ s.procs.current := by
      simpa [State.setFrames, State.noteAdd, hcurrent] using ht
    simpa [State.setFrames, State.noteAdd, hcurrent, hne] using hs.others t hne
  · by_cases hu : u = s.procs.current
    · rcases hs.between with ⟨hnot', _⟩ | ⟨x, hx, _, hxl, hchosen⟩
      · exact absurd (by simp [hu]) hnot'
      · have hxl' : x ∉ l ++ [s.procs.current] := by
          simp_all
        refine ⟨x, hx, ?_, hxl', ?_⟩
        · simp [State.setFrames, State.noteAdd, hcurrent]
        · simp [State.setFrames, State.noteAdd, hcurrent, chosen_printk, hu,
            chosen_schedule_self, hchosen]
    · refine ⟨u, hs.created u (by simp), ?_, by simp [hnodup.1, hu], ?_⟩
      · simp [State.setFrames, State.noteAdd, hcurrent]
      · simp [State.setFrames, State.noteAdd, hcurrent, chosen_printk,
          chosen_schedule hu, hsmooth hu]

theorem Inv.afterTick (hs : Inv s l) (hsmooth : Smooth s .tick) :
    ∃ l', Inv (s.tick console) l' := by
  by_cases hticks : s.procs.ticks s.procs.current - 1 = 0
  · cases l with
    | nil =>
        have hpick := Procs.pick_nil (s := s.procs.setTicks s.procs.current
          (s.procs.ticks s.procs.current - 1)) hs.ready
          (by simpa [Procs.setTicks] using hticks)
        exact ⟨_, hs.afterStay hpick rfl rfl⟩
    | cons u l =>
        have hready : (s.procs.setTicks s.procs.current
          (s.procs.ticks s.procs.current - 1)).Ready (u :: l) := hs.ready
        have hpick : s.ticked.2 = some u := by
          rw [State.ticked, Procs.pick_cons hready
            (by simpa [Procs.setTicks] using hticks)]
        exact ⟨_, hs.afterPick rfl rfl (by simpa [Procs.setTicks] using hticks)
          fun hu => chosen_eq_nil (hsmooth u hpick hu)⟩
  · have hpick := Procs.pick_of_ticks (s := s.procs.setTicks s.procs.current
      (s.procs.ticks s.procs.current - 1))
      (by simpa [Procs.setTicks] using hticks)
    exact ⟨_, hs.afterStay hpick rfl rfl⟩

/-! ## The other steps -/

omit [DecidableEq ι] in
/-- The second half of `schedule`: the chosen thread gets the CPU. -/
theorem Inv.afterSwitch (hs : Inv s l) (hu : s.procs.current ≠ u)
    (hframes : s.frames s.procs.current = .schedule u :: rest) :
    Inv { s.setFrames (.switchThread :: rest) with
      procs := s.procs.switchThread u } l := by
  rw [Procs.switchThread, if_pos hu]
  have hbetween := hs.between
  rw [hframes, chosen_schedule hu.symm] at hbetween
  obtain ⟨x, hx, hmem, hxl, hchosen⟩ := hbetween.resolve_left (by simp)
  obtain ⟨rfl, hrest⟩ := List.cons.inj hchosen
  refine ⟨hs.clean, hs.ready, hs.queues, hs.unlinked, ?_, ?_, Or.inl ⟨hxl, ?_⟩⟩
  · intro t ht
    rcases List.mem_cons.mp ht with rfl | ht
    · exact hx
    · exact hs.created t (List.mem_cons_of_mem _ ht)
  · intro t ht
    by_cases htc : t = s.procs.current
    · subst htc
      simpa [State.setFrames, chosen, Frame.chosen] using hrest
    · simpa [State.setFrames, Function.update_of_ne htc] using hs.others t htc
  · simpa [State.setFrames, Function.update_of_ne hu.symm]
      using hs.others u hu.symm

theorem Inv.afterAdvance (hs : Inv s l) (hsmooth : Smooth s .run)
    (hnext : s.advance console fuel = some s') : Inv s' l := by
  unfold State.advance at hnext
  split at hnext
  · cases hnext
  · rename_i lck pc rest hframes
    have hfree : pc = .semaDown → (s.locks lck).value ≠ 0 := by
      rintro rfl
      exact hsmooth lck rest hframes
    exact hs.afterQuiet (lockStep_quiet (hs.queues lck) hfree hnext)
      (by rw [hframes]; rfl)
  · rename_i rest hframes
    obtain rfl := Option.some.inj hnext
    exact hs.afterQuiet (quiet_lock console .relCheck) (by rw [hframes]; rfl)
  · rename_i u rest hframes
    split_ifs at hnext with hu
    · obtain rfl := Option.some.inj hnext
      exact hs.afterSwitch hu hframes
    · obtain rfl := Option.some.inj hnext
      rw [not_not] at hu
      have hchosen : chosen s.procs.current rest =
          chosen s.procs.current (s.frames s.procs.current) := by
        rw [hframes, ← hu, chosen_schedule_self]
      exact hs.afterQuiet (quiet_setFrames rfl) hchosen
  · rename_i rest hframes
    obtain rfl := Option.some.inj hnext
    have hchosen : chosen s.procs.current rest =
        chosen s.procs.current (s.frames s.procs.current) := by
      rw [hframes]
      rfl
    exact hs.afterFrames rfl rfl rfl rfl rfl hchosen
  · rename_i msg rest hframes
    obtain rfl := Option.some.inj hnext
    have hchosen : chosen s.procs.current (.panic msg :: rest) =
        chosen s.procs.current (s.frames s.procs.current) := by
      rw [hframes]
    exact hs.afterQuiet (quiet_setFrames rfl) hchosen

theorem Inv.afterCreate {t : τ} (hs : Inv s l) (ht : t ∉ s.created)
    (prio : BitVec 8) : Inv (s.create t prio) (l ++ [t]) := by
  have hnot : t ∉ s.procs.current :: l := fun hmem => ht (hs.created t hmem)
  have hne : s.procs.current ≠ t := fun heq => hnot (by simp [heq])
  have htl : t ∉ l := fun hmem => hnot (by simp [hmem])
  have hagree := hs.ready.create_agreeOff htl prio
  refine ⟨hs.clean, hs.ready.afterCreate htl prio, fun lck => ?_,
    fun u hu hul => ?_, fun u hu => ?_, fun u hu => ?_, ?_⟩
  · exact hagree.ring (by simp) (hs.queues lck)
  · have hut : u ≠ t := fun heq => hul (by simp [heq])
    have hul' : u ∉ l := fun hmem => hul (by simp [hmem])
    have hold : u ∈ s.created := by simpa [State.create, hut] using hu
    have hkept := (hagree (.proc u) (by simp [hut, hul'])).1
    exact (linked_congr hkept).trans (hs.unlinked u hold hul')
  · have hmem : u ∈ s.procs.current :: l ∨ u = t := by
      simpa [State.create, Procs.kthreadCreate, Procs.setState, or_assoc]
        using hu
    rcases hmem with hmem | rfl
    · exact List.mem_append_left _ (hs.created u hmem)
    · exact List.mem_append_right _ (List.mem_singleton_self u)
  · by_cases hut : u = t
    · simp [State.create, hut, chosen]
    · simpa [State.create, Function.update_of_ne hut] using hs.others u hu
  · have hkept : (s.create t prio).frames s.procs.current =
        s.frames s.procs.current := Function.update_of_ne hne _ _
    change (s.procs.current ∉ l ++ [t] ∧ chosen s.procs.current
      ((s.create t prio).frames s.procs.current) = []) ∨
      ∃ u ∈ s.created ++ [t], s.procs.current ∈ l ++ [t] ∧ u ∉ l ++ [t] ∧
        chosen s.procs.current ((s.create t prio).frames s.procs.current) = [u]
    rw [hkept]
    rcases hs.between with ⟨hleft, hchosen⟩ | ⟨x, hx, hmem, hxl, hchosen⟩
    · exact Or.inl ⟨by simp [hleft, hne], hchosen⟩
    · have hxt : x ≠ t := fun heq => ht (heq ▸ hx)
      exact Or.inr ⟨x, by simp [hx], by simp [hmem], by simp [hxl, hxt],
        hchosen⟩

/-- `init_sched` writes the links of its three heads only. -/
theorem start_agreeOff (procs : Procs τ ι) (idle : τ) :
    AgreeOff {a | a ∈ [.readyList, .blockList, .hangingList]} lockedLinks
      (start procs idle).procs.links := by
  have hfirst := init_agreeOff (lockedLinks (τ := τ) (ι := ι)) .readyList
  have hsecond := init_agreeOff (listInit (lockedLinks (τ := τ) (ι := ι))
    readyList) .blockList
  have hthird := init_agreeOff (listInit (listInit
    (lockedLinks (τ := τ) (ι := ι)) readyList) (some .blockList)) .hangingList
  refine ((hfirst.mono ?_).trans (hsecond.mono ?_)).trans (hthird.mono ?_) <;>
    simp

theorem start_inv (procs : Procs τ ι) (idle : τ) :
    Inv (start procs idle) [] where
  clean := rfl
  ready := by
    let first : Links (Node τ ι) := listInit lockedLinks readyList
    let second := listInit first (some Node.blockList)
    have hring : first.Ring .readyList [] := init_ring _ _
    have hsecond := (init_agreeOff first Node.blockList).ring (by simp) hring
    exact (init_agreeOff second Node.hangingList).ring (by simp) hsecond
  queues lck :=
    (start_agreeOff procs idle).ring (by simp) (ring_nil rfl rfl)
  unlinked t ht _ := by
    have hkept := (start_agreeOff procs idle (.proc t) (by simp)).1
    exact linked_congr hkept
  created t ht := by simpa [start, Procs.initSched, Procs.threadIdle,
    Procs.setState] using ht
  others t _ := rfl
  between := Or.inl ⟨by simp, rfl⟩

theorem Inv.afterStep {a : Act τ ι} (hs : Inv s l)
    (hnext : next console fuel s a = some s') (hsmooth : Smooth s a) :
    ∃ l', Inv s' l' := by
  cases a with
  | create t prio =>
      simp only [next] at hnext
      split_ifs at hnext with ht
      obtain rfl := Option.some.inj hnext
      exact ⟨_, hs.afterCreate ht prio⟩
  | tick =>
      obtain rfl := Option.some.inj hnext
      exact hs.afterTick hsmooth
  | request lck | release lck =>
      simp only [next] at hnext
      split at hnext
      · rename_i hframes
        obtain rfl := Option.some.inj hnext
        exact ⟨l, hs.afterQuiet (quiet_lock lck _) (by rw [hframes])⟩
      · cases hnext
  | run => exact ⟨l, hs.afterAdvance hsmooth hnext⟩

/-- As long as no thread has to wait and `schedule` is not interrupted for
another thread, each thread is in at most one list. -/
theorem one_list_per_thread {procs : Procs τ ι} {idle : τ}
    {acts : List (Act τ ι)} {s : State τ ι}
    (hrun : Run (fun s a s' => next console fuel s a = some s' ∧ Smooth s a)
      (start procs idle) acts s) : OneList s := by
  obtain ⟨l, hs⟩ := hrun.invariant (fun s => ∃ l, Inv s l)
    (fun _ _ _ hs hstep => hs.elim fun _ hs => hs.afterStep hstep.1 hstep.2)
    ⟨[], start_inv procs idle⟩
  exact hs.oneList

/-- A step that is smooth because the tick leaves the thread running or the
semaphore is free. -/
def smoothNext (console : ι) (fuel : ℕ) (s : State τ ι) (a : Act τ ι) :
    Option (State τ ι) :=
  match a, s.frames s.procs.current with
  | .tick, _ => if s.ticked.2 = none then next console fuel s a else none
  | .run, .lock lck .semaDown :: _ =>
      if (s.locks lck).value ≠ 0 then next console fuel s a else none
  | _, _ => next console fuel s a

theorem smooth_of_smoothNext (s : State τ ι) (a : Act τ ι) (s' : State τ ι)
    (hnext : smoothNext console fuel s a = some s') :
    next console fuel s a = some s' ∧ Smooth s a := by
  unfold smoothNext at hnext
  split at hnext
  · split_ifs at hnext with hnone
    refine ⟨hnext, fun u hu => ?_⟩
    rw [hnone] at hu
    cases hu
  · rename_i hframes
    split_ifs at hnext with hvalue
    refine ⟨hnext, fun lck rest hframes' => ?_⟩
    rw [hframes] at hframes'
    cases hframes'
    exact hvalue
  · rename_i a _ _ htick hrun
    cases a with
    | create | request | release => exact ⟨hnext, trivial⟩
    | tick => exact (htick rfl).elim
    | run => exact ⟨hnext, fun lck rest hframes => (hrun lck rest rfl hframes).elim⟩

/-- PCBs in zeroed memory. -/
def zeroedProcs : Procs Bool Unit :=
  ⟨⟨fun _ => none, fun _ => none⟩, false, 0, fun _ => 0, fun _ => .create,
    fun _ => 0, fun _ => 0⟩

/-- The boot thread `false` creates another one and takes the console lock. -/
def lockConsole : List (Act Bool Unit) :=
  [.create true 1, .request (), .run, .run, .run, .run, .run]

theorem one_list_with_console_lock :
    ∃ s, Run (fun s a s' => next () 10 s a = some s' ∧ Smooth s a)
      (start zeroedProcs false) (lockConsole ++ [.tick]) s ∧
      (s.locks ()).holder = some false ∧ OneList s := by
  obtain ⟨s, hexec, hholder⟩ : ∃ s,
      exec (smoothNext () 10) (start zeroedProcs false)
        (lockConsole ++ [.tick]) = some s ∧
        (s.locks ()).holder = some false := ⟨_, rfl, rfl⟩
  have hrun := Run.of_exec smooth_of_smoothNext hexec
  exact ⟨s, hrun, hholder, one_list_per_thread hrun⟩

/-- The time slice of the boot thread ends while it holds the console lock, and
so does the one of the other thread, whose `printk` in `schedule` then waits
for the lock. -/
def twoSlices : List (Act Bool Unit) :=
  lockConsole ++ List.replicate 100 .tick ++ List.replicate 9 .run ++
    [.tick, .run, .run]

theorem relinked_in_schedule :
    ¬ ∀ acts s, Run (fun s a s' => next () 10 s a = some s')
      (start zeroedProcs false) acts s → OneList s := by
  intro hall
  have hbad : (exec (next () 10) (start zeroedProcs false) twoSlices).map
      State.relinked = some true := by decide +kernel
  obtain ⟨s, hexec, hrelinked⟩ := Option.map_eq_some_iff.mp hbad
  have hclean := (hall _ s (Run.of_exec (fun _ _ _ h => h) hexec)).clean
  rw [hrelinked] at hclean
  cases hclean

end Sched
end OS32
