import OS32.LockInvariant

/-!
# Progress of the recursive lock

`sema_up` wakes one waiting thread for each time the lock becomes free, and a
woken thread that comes too late waits again.  No thread is forgotten on the
wait queue, so once no thread asks for the lock any more, every order of the
threads' steps comes to an end at which all of them have had it.
-/

namespace OS32
namespace Sync

open Transition

variable {τ : Type*} [DecidableEq τ]

/-- How many steps a thread has before it at most, apart from being woken. -/
def Pc.work (depth : ℕ) : Pc → ℕ
  | .idle => if depth = 0 then 0 else 5 * depth + 3
  | .reqCheck => 5 * depth + 14
  | .semaDown => 5 * depth + 13
  | .waiting => 5 * depth + 12
  | .setHolder => 5 * depth + 11
  | .checkRepeat | .incLoad => 5 * depth + 10
  | .setRepeat | .incStore _ => 5 * depth + 9
  | .relCheck => 5 * depth + 2
  | .relTest => 5 * depth + 1
  | .decLoad => 5 * depth
  | .decStore _ => 5 * depth - 1
  | .checkLast => 5
  | .clearHolder => 4
  | .clearRepeat => 3
  | .semaUp => 2

def State.work (s : State τ) (t : τ) : ℕ := (s.pc t).work (s.depth t)

/-- All threads that are inside a call or hold the lock are among `threads`. -/
def Within (s : State τ) (threads : Finset τ) : Prop :=
  ∀ t ∉ threads, s.pc t = .idle ∧ s.depth t = 0

/-- While the semaphore is free and threads wait, one that was woken is about
to test it. -/
def Awake (s : State τ) : Prop :=
  s.lock.sem.value = 0 ∨ s.lock.sem.waiters = [] ∨ ∃ t, s.pc t = .semaDown

def Act.isRequest : Act τ → Bool
  | .request _ => true
  | _ => false

/-- The thread has called `req_lock` and does not have the lock yet. -/
def Asks : Pc → Prop
  | .reqCheck | .semaDown | .waiting => True
  | _ => False

variable {s s' : State τ} {owner : Option τ} {t : τ}

/-! ## One access -/

omit [DecidableEq τ] in
theorem assert_eq {ok : Bool} {info : String} {next : State τ}
    (hrunning : (s.assert ok info next).halted = none) :
    s.assert ok info next = next := by
  cases ok with
  | false => simp [State.assert] at hrunning
  | true => rfl

/-- The accesses by their effect on the semaphore: the two that use it, and the
others, each of which takes the thread nearer to its end. -/
theorem Inv.advance_cases (hs : Inv s owner) (hadvance : s.advance t = some s')
    (hrunning : s'.halted = none) :
    (s.pc t = .semaDown ∧ s' = s.semaDown t) ∨
      (s.pc t = .semaUp ∧ s' = s.semaUp t) ∨
      s.pc t ≠ .semaDown ∧ ∃ lock pc depth, s' = s.set t lock pc depth ∧
        lock.sem = s.lock.sem ∧ pc.work depth < s.work t := by
  have hinside : ¬ Outside (s.pc t) →
      OwnerAt s.lock.holder s.lock.holderRepeatTimes t (s.depth t) (s.pc t) :=
    fun hpc => (hs.inside t (hs.owner_of_inside hpc)).1
  unfold State.advance at hadvance
  unfold State.work
  cases hpc : s.pc t with
  | idle | waiting => simp [hpc] at hadvance
  | semaDown =>
      simp only [hpc, Option.some.injEq] at hadvance
      exact Or.inl ⟨rfl, hadvance.symm⟩
  | semaUp =>
      simp only [hpc, Option.some.injEq] at hadvance
      exact Or.inr (Or.inl ⟨rfl, hadvance.symm⟩)
  | reqCheck =>
      simp only [hpc, Option.some.injEq] at hadvance
      split_ifs at hadvance <;>
        exact Or.inr (Or.inr ⟨by simp, _, _, _, hadvance.symm, rfl,
          by simp only [Pc.work]; omega⟩)
  | relTest =>
      simp only [hpc, Option.some.injEq] at hadvance
      have hheld := hinside (by simp [hpc, Outside])
      rw [hpc] at hheld
      have hdepth := Held.positive hheld
      split_ifs at hadvance <;>
        exact Or.inr (Or.inr ⟨by simp, _, _, _, hadvance.symm, rfl,
          by simp only [Pc.work]; omega⟩)
  | checkRepeat | relCheck | checkLast =>
      simp only [hpc, Option.some.injEq] at hadvance
      rw [← hadvance] at hrunning
      rw [assert_eq hrunning] at hadvance
      exact Or.inr (Or.inr ⟨by simp, _, _, _, hadvance.symm, rfl,
        by simp only [Pc.work]; omega⟩)
  | decStore =>
      simp only [hpc, Option.some.injEq] at hadvance
      have hheld := hinside (by simp [hpc, Outside])
      rw [hpc] at hheld
      have hdepth := hheld.2.1
      refine Or.inr (Or.inr ⟨by simp, _, _, _, hadvance.symm, rfl, ?_⟩)
      simp only [Pc.work]
      split_ifs <;> omega
  | setRepeat | incStore =>
      simp only [hpc, Option.some.injEq] at hadvance
      refine Or.inr (Or.inr ⟨by simp, _, _, _, hadvance.symm, rfl, ?_⟩)
      simp only [Pc.work]
      split_ifs <;> omega
  | decLoad =>
      simp only [hpc, Option.some.injEq] at hadvance
      have hheld := hinside (by simp [hpc, Outside])
      rw [hpc] at hheld
      have hdepth := hheld.2
      exact Or.inr (Or.inr ⟨by simp, _, _, _, hadvance.symm, rfl,
        by simp only [Pc.work]; omega⟩)
  | setHolder | incLoad | clearHolder | clearRepeat =>
      simp only [hpc, Option.some.injEq] at hadvance
      exact Or.inr (Or.inr ⟨by simp, _, _, _, hadvance.symm, rfl,
        by simp only [Pc.work]; omega⟩)

/-- `sema_down` leaves the semaphore taken. -/
theorem semaDown_cases (hrunning : (s.semaDown t).halted = none) :
    ∃ lock pc, s.semaDown t = s.set t lock pc (s.depth t) ∧
      lock.sem.value = 0 ∧ (pc = .waiting ∨ pc = .setHolder) := by
  unfold State.semaDown at hrunning ⊢
  dsimp only at hrunning ⊢
  split_ifs at hrunning ⊢ with hvalue
  · rw [assert_eq hrunning]
    exact ⟨_, _, rfl, hvalue, Or.inl rfl⟩
  · have hzero : s.lock.sem.value - 1 = 0 := by
      by_contra hne
      rw [State.assert, if_neg (by simpa using hne)] at hrunning
      cases hrunning
    rw [assert_eq hrunning]
    exact ⟨_, _, rfl, hzero, Or.inr rfl⟩

/-- `sema_up` wakes the first thread that waits. -/
theorem semaUp_cases (hrunning : (s.semaUp t).halted = none) :
    ∃ lock, lock.sem.waiters = s.lock.sem.waiters.tail ∧
      ((s.lock.sem.waiters = [] ∧
        s.semaUp t = s.set t lock .idle (s.depth t - 1)) ∨
      ∃ w, w ∈ s.lock.sem.waiters ∧
        s.semaUp t = (s.set t lock .idle (s.depth t - 1)).goto w .semaDown) := by
  unfold State.semaUp at hrunning ⊢
  dsimp only at hrunning ⊢
  have hinner := hrunning
  rw [assert_eq hrunning] at hinner ⊢
  rw [assert_eq hinner]
  refine ⟨{ s.lock with sem :=
    ⟨s.lock.sem.value + 1, s.lock.sem.waiters.tail⟩ }, rfl, ?_⟩
  cases hwaiters : s.lock.sem.waiters with
  | nil => exact Or.inl ⟨rfl, rfl⟩
  | cons w rest => exact Or.inr ⟨w, List.mem_cons_self, rfl⟩

/-- What an access of `t` does to the threads; it may wake another one. -/
structure Turn (s s' : State τ) (t : τ) (woken : Option τ) : Prop where
  others : ∀ u ≠ t, s'.depth u = s.depth u ∧ (s'.pc u = s.pc u ∨
    woken = some u ∧ s.pc u = .waiting ∧ s'.pc u = .semaDown)
  less : s'.work t + (if woken.isSome then 1 else 0) < s.work t

theorem set_turn {lock : Lock τ} {pc : Pc} {depth : ℕ}
    (hless : pc.work depth < s.work t) :
    Turn s (s.set t lock pc depth) t none := by
  refine ⟨fun u hu => ?_, by simpa [State.work, State.set] using hless⟩
  simp [State.set, Function.update_of_ne hu]

theorem Inv.turn (hs : Inv s owner) (hadvance : s.advance t = some s')
    (hrunning : s'.halted = none) : ∃ woken, Turn s s' t woken := by
  rcases hs.advance_cases hadvance hrunning with
    ⟨hpc, rfl⟩ | ⟨hpc, rfl⟩ | ⟨_, lock, pc, depth, rfl, _, hless⟩
  · obtain ⟨lock, pc, heq, _, hplace⟩ := semaDown_cases hrunning
    rw [heq]
    refine ⟨none, set_turn ?_⟩
    rw [State.work, hpc]
    rcases hplace with rfl | rfl <;> simp [Pc.work]
  · have hdepth : s.depth t = 1 := by
      have hinside := (hs.inside t (hs.owner_of_inside (by simp [hpc, Outside]))).1
      rw [hpc] at hinside
      exact hinside.1
    obtain ⟨lock, _, ⟨_, heq⟩ | ⟨w, hw, heq⟩⟩ := semaUp_cases hrunning
    · rw [heq]
      refine ⟨none, set_turn ?_⟩
      rw [State.work, hpc, hdepth]
      simp [Pc.work]
    · have hwaiting := (hs.queued w).mp hw
      have hwt : w ≠ t := by
        rintro rfl
        simp [hpc] at hwaiting
      rw [heq]
      refine ⟨some w, fun u hu => ?_, ?_⟩
      · rcases eq_or_ne u w with rfl | hne
        · simp [State.goto, State.set, Function.update_of_ne hu, hwaiting]
        · simp [State.goto, State.set, Function.update_of_ne hu,
            Function.update_of_ne hne]
      · simp [State.work, State.goto, State.set, hwt.symm, hpc, hdepth, Pc.work]
  · exact ⟨none, set_turn hless⟩

theorem Awake.set (hawake : Awake s) (hpc : s.pc t ≠ .semaDown) {lock : Lock τ}
    (hsem : lock.sem = s.lock.sem) (pc : Pc) (depth : ℕ) :
    Awake (s.set t lock pc depth) := by
  unfold Awake at hawake ⊢
  dsimp only [State.set]
  rw [hsem]
  refine hawake.imp_right (Or.imp_right ?_)
  rintro ⟨u, hu⟩
  have hut : u ≠ t := by
    rintro rfl
    exact hpc hu
  exact ⟨u, by rw [Function.update_of_ne hut]; exact hu⟩

/-- No thread is forgotten on the wait queue. -/
theorem Inv.awake (hs : Inv s owner) (hawake : Awake s)
    (hadvance : s.advance t = some s') (hrunning : s'.halted = none) :
    Awake s' := by
  rcases hs.advance_cases hadvance hrunning with
    ⟨hpc, rfl⟩ | ⟨hpc, rfl⟩ | ⟨hpc, lock, pc, depth, rfl, hsem, _⟩
  · obtain ⟨lock, pc, heq, hvalue, _⟩ := semaDown_cases hrunning
    rw [heq]
    exact Or.inl hvalue
  · obtain ⟨lock, hwaiters, ⟨hnil, heq⟩ | ⟨w, _, heq⟩⟩ := semaUp_cases hrunning
    · rw [heq]
      refine Or.inr (Or.inl ?_)
      rw [hnil] at hwaiters
      exact hwaiters
    · rw [heq]
      exact Or.inr (Or.inr ⟨w, by simp [State.goto, State.set]⟩)
  · exact hawake.set hpc hsem _ _

/-! ## One step -/

/-- A step that is no call of `req_lock`, after which no thread has `2 ^ 32`
unmatched calls. -/
def QuietStep (s : State τ) (a : Act τ) (s' : State τ) : Prop :=
  ShallowStep s a s' ∧ a.isRequest = false

theorem release_turn (hpc : s.pc t = .idle) (hdepth : 0 < s.depth t) :
    Turn s (s.goto t .relCheck) t none := by
  refine set_turn ?_
  rw [State.work, hpc]
  simp only [Pc.work]
  split_ifs <;> omega

theorem Inv.quiet_turn {a : Act τ} (hs : Inv s owner) (hstep : QuietStep s a s')
    (hrunning : s'.halted = none) : ∃ t woken, Turn s s' t woken := by
  obtain ⟨⟨hnext, _⟩, hquiet⟩ := hstep
  unfold Sync.next at hnext
  rw [hs.running] at hnext
  cases a with
  | request => cases hquiet
  | run t => exact ⟨t, hs.turn hnext hrunning⟩
  | release t =>
      dsimp only at hnext
      split at hnext
      next hpc =>
        split_ifs at hnext with hdepth
        obtain rfl := Option.some.inj hnext
        exact ⟨t, none, release_turn hpc hdepth⟩
      next => cases hnext

/-- A call begins. -/
theorem Awake.begin (hawake : Awake s) (hpc : s.pc t = .idle) (pc : Pc) :
    Awake (s.goto t pc) :=
  hawake.set (by simp [hpc]) rfl pc (s.depth t)

theorem Inv.awake_next {a : Act τ} (hs : Inv s owner) (hawake : Awake s)
    (hnext : Sync.next s a = some s') (hrunning : s'.halted = none) :
    Awake s' := by
  unfold Sync.next at hnext
  rw [hs.running] at hnext
  cases a with
  | run t => exact hs.awake hawake hnext hrunning
  | request t =>
      dsimp only at hnext
      split at hnext
      next hpc =>
        obtain rfl := Option.some.inj hnext
        exact hawake.begin hpc _
      next => cases hnext
  | release t =>
      dsimp only at hnext
      split at hnext
      next hpc =>
        split_ifs at hnext with hdepth
        obtain rfl := Option.some.inj hnext
        exact hawake.begin hpc _
      next => cases hnext

theorem Turn.mem {woken : Option τ} {threads : Finset τ}
    (hturn : Turn s s' t woken) (hwithin : Within s threads) : t ∈ threads := by
  by_contra ht
  obtain ⟨hpc, hdepth⟩ := hwithin t ht
  have hless := hturn.less
  simp [State.work, hpc, hdepth, Pc.work] at hless

theorem Turn.within {woken : Option τ} {threads : Finset τ}
    (hturn : Turn s s' t woken) (hwithin : Within s threads) :
    Within s' threads := by
  intro u hu
  obtain ⟨hpc, hdepth⟩ := hwithin u hu
  have hut : u ≠ t := by
    rintro rfl
    exact hu (hturn.mem hwithin)
  obtain ⟨hdepth', hsame | ⟨_, hwaiting, _⟩⟩ := hturn.others u hut
  · exact ⟨hsame.trans hpc, hdepth'.trans hdepth⟩
  · rw [hpc] at hwaiting
    cases hwaiting

/-- The work that is left becomes less with every access. -/
theorem Turn.sum_lt {woken : Option τ} {threads : Finset τ}
    (hturn : Turn s s' t woken) (ht : t ∈ threads) :
    ∑ u ∈ threads, s'.work u < ∑ u ∈ threads, s.work u := by
  have hless := hturn.less
  have hothers : ∑ u ∈ threads.erase t, s'.work u ≤
      ∑ u ∈ threads.erase t, (s.work u + if woken = some u then 1 else 0) := by
    refine Finset.sum_le_sum fun u hu => ?_
    obtain ⟨hdepth, hsame | ⟨hwoken, hfrom, hto⟩⟩ :=
      hturn.others u (Finset.ne_of_mem_erase hu)
    · simp [State.work, hsame, hdepth]
    · simp [State.work, hwoken, hfrom, hto, hdepth, Pc.work]
  have hwoken : (∑ u ∈ threads.erase t, if woken = some u then 1 else 0) ≤
      if woken.isSome then 1 else 0 := by
    cases woken with
    | none => simp
    | some w =>
        rw [Option.isSome_some, if_pos rfl]
        simp only [Option.some.injEq, Finset.sum_ite_eq]
        split_ifs <;> omega
  rw [Finset.sum_add_distrib] at hothers
  rw [← Finset.sum_erase_add _ _ ht, ← Finset.sum_erase_add _ (s.work) ht]
  omega

/-- A thread that asks goes on asking until it has the lock. -/
theorem Inv.asks_advance (hs : Inv s owner) (hasks : Asks (s.pc t))
    (hnot : ¬ Owns s t) (hadvance : s.advance t = some s')
    (hrunning : s'.halted = none) : Asks (s'.pc t) ∨ Owns s' t := by
  cases hpc : s.pc t with
  | reqCheck =>
      have hholder : s.lock.holder ≠ some t := by
        intro hholder
        obtain rfl := hs.owner_eq_of_holder hholder
        exact hnot hs.owns_of_owner
      simp only [State.advance, hpc, if_pos hholder, Option.some.injEq] at hadvance
      subst hadvance
      left
      simp [State.goto, State.set, Asks]
  | semaDown =>
      simp only [State.advance, hpc, Option.some.injEq] at hadvance
      subst hadvance
      obtain ⟨lock, pc, heq, _, rfl | rfl⟩ := semaDown_cases hrunning
      · left
        simp [heq, State.set, Asks]
      · right
        simp [heq, State.set, Owns]
  | waiting => simp [State.advance, hpc] at hadvance
  | _ => simp [hpc, Asks] at hasks

theorem Inv.asks_step {a : Act τ} {u : τ} (hs : Inv s owner)
    (hasks : Asks (s.pc u)) (hnot : ¬ Owns s u) (hstep : QuietStep s a s')
    (hrunning : s'.halted = none) : Asks (s'.pc u) ∨ Owns s' u := by
  have hkept : ∀ t woken, Turn s s' t woken → u ≠ t → Asks (s'.pc u) := by
    intro t woken hturn hut
    obtain ⟨_, hsame | ⟨_, _, hdown⟩⟩ := hturn.others u hut
    · rwa [hsame]
    · simp [hdown, Asks]
  obtain ⟨⟨hnext, _⟩, hquiet⟩ := hstep
  unfold Sync.next at hnext
  rw [hs.running] at hnext
  cases a with
  | request => cases hquiet
  | run t =>
      by_cases hut : u = t
      · subst hut
        exact hs.asks_advance hasks hnot hnext hrunning
      · obtain ⟨woken, hturn⟩ := hs.turn hnext hrunning
        exact Or.inl (hkept t woken hturn hut)
  | release t =>
      dsimp only at hnext
      split at hnext
      next hpc =>
        split_ifs at hnext with hdepth
        obtain rfl := Option.some.inj hnext
        by_cases hut : u = t
        · subst hut
          simp [hpc, Asks] at hasks
        · exact Or.inl (hkept t none (release_turn hpc hdepth) hut)
      next => cases hnext

/-! ## Runs -/

/-- What holds in every reachable state. -/
structure Live (s : State τ) (threads : Finset τ) : Prop where
  inv : ∃ owner, Inv s owner
  awake : Awake s
  within : Within s threads

omit [DecidableEq τ] in
theorem Live.running {threads : Finset τ} (hs : Live s threads) :
    s.halted = none := by
  obtain ⟨_, hinv⟩ := hs.inv
  exact hinv.running

theorem Live.quiet {threads : Finset τ} {a : Act τ} (hs : Live s threads)
    (hstep : QuietStep s a s') :
    Live s' threads ∧
      ∑ u ∈ threads, s'.work u < ∑ u ∈ threads, s.work u := by
  obtain ⟨owner, hinv⟩ := hs.inv
  obtain ⟨owner', hinv'⟩ := hinv.next hstep.1.1 hstep.1.2
  obtain ⟨t, woken, hturn⟩ := hinv.quiet_turn hstep hinv'.running
  exact ⟨⟨⟨owner', hinv'⟩, hinv.awake_next hs.awake hstep.1.1 hinv'.running,
    hturn.within hs.within⟩, hturn.sum_lt (hturn.mem hs.within)⟩

theorem Live.step {threads : Finset τ} {a : Act τ} (hs : Live s threads)
    (hstep : ShallowStep s a s') : ∃ threads', Live s' threads' := by
  cases a with
  | request t =>
      obtain ⟨owner, hinv⟩ := hs.inv
      obtain ⟨owner', hinv'⟩ := hinv.next hstep.1 hstep.2
      refine ⟨insert t threads, ⟨owner', hinv'⟩,
        hinv.awake_next hs.awake hstep.1 hinv'.running, fun u hu => ?_⟩
      obtain ⟨hut, hold⟩ := not_or.mp (mt Finset.mem_insert.mpr hu)
      obtain ⟨hpc, hdepth⟩ := hs.within u hold
      obtain ⟨hnext, _⟩ := hstep
      unfold next at hnext
      rw [hs.running] at hnext
      dsimp only at hnext
      split at hnext
      · obtain rfl := Option.some.inj hnext
        simp [State.goto, State.set, Function.update_of_ne hut, hpc, hdepth]
      · cases hnext
  | run t => exact ⟨threads, (hs.quiet ⟨hstep, rfl⟩).1⟩
  | release t => exact ⟨threads, (hs.quiet ⟨hstep, rfl⟩).1⟩

theorem live_of_run {acts : List (Act τ)}
    (hrun : Run ShallowStep State.initial acts s) : ∃ threads, Live s threads := by
  refine hrun.invariant (fun s => ∃ threads, Live s threads)
    (fun _ _ _ ⟨_, hs⟩ hstep => hs.step hstep) ⟨∅, ⟨none, initial_inv⟩, ?_, ?_⟩
  · exact Or.inr (Or.inl rfl)
  · exact fun t _ => ⟨rfl, rfl⟩

theorem advance_isSome (hidle : s.pc t ≠ .idle) (hwaiting : s.pc t ≠ .waiting) :
    ∃ s', s.advance t = some s' := by
  unfold State.advance
  cases hpc : s.pc t with
  | idle => exact absurd hpc hidle
  | waiting => exact absurd hpc hwaiting
  | _ => exact ⟨_, rfl⟩

/-- Where no thread can go on, nobody waits. -/
theorem Live.quiescent {threads : Finset τ} (hs : Live s threads)
    (hstuck : ∀ a s', next s a = some s' → a.isRequest = true) :
    (∀ t, s.pc t = .idle ∧ s.depth t = 0) ∧ s.lock.holder = none ∧
      s.lock.sem.value = 1 ∧ s.lock.sem.waiters = [] := by
  obtain ⟨owner, hinv⟩ := hs.inv
  have hplace : ∀ t, s.pc t = .idle ∨ s.pc t = .waiting := by
    intro t
    by_contra! hpc
    obtain ⟨s', hadvance⟩ := advance_isSome hpc.1 hpc.2
    have hrun := hstuck (.run t) s' (by simp only [next, hs.running, hadvance])
    cases hrun
  have hdepth : ∀ t, s.pc t = .idle → s.depth t = 0 := by
    intro t hpc
    by_contra hne
    have hrelease := hstuck (.release t) (s.goto t .relCheck)
      (by simp only [next, hs.running, hpc, if_pos (Nat.pos_of_ne_zero hne)])
    cases hrelease
  have hfree : owner = none := by
    cases owner with
    | none => rfl
    | some o =>
        have hat := (hinv.inside o rfl).1
        rcases hplace o with hpc | hpc
        · rw [hpc] at hat
          have hpos := Held.positive hat
          have hzero := hdepth o hpc
          omega
        · rw [hpc] at hat
          exact hat.elim
  obtain ⟨hholder, _, hvalue⟩ := hinv.free hfree
  have hwaiters : s.lock.sem.waiters = [] := by
    rcases hs.awake with hzero | hnil | ⟨t, ht⟩
    · rw [hvalue] at hzero
      cases hzero
    · exact hnil
    · rcases hplace t with hpc | hpc <;> simp [hpc] at ht
  refine ⟨fun t => ?_, hholder, hvalue, hwaiters⟩
  have hidle : s.pc t = .idle := by
    refine (hplace t).resolve_right fun hpc => ?_
    have hmem := (hinv.queued t).mpr hpc
    simp [hwaiters] at hmem
  exact ⟨hidle, hdepth t hidle⟩

/-- Without further requests a run is no longer than the work that is left, and
a thread that asks goes on asking until some state of the run in which it has
the lock. -/
theorem Live.quiet_run {threads : Finset τ} {acts : List (Act τ)}
    (hs : Live s threads) (hrun : Run QuietStep s acts s') :
    Live s' threads ∧
      acts.length + ∑ u ∈ threads, s'.work u ≤ ∑ u ∈ threads, s.work u ∧
      ∀ t, Asks (s.pc t) → Asks (s'.pc t) ∨
        ∃ first s₁, first <+: acts ∧ Run QuietStep s first s₁ ∧ Owns s₁ t := by
  induction hrun with
  | nil => exact ⟨hs, by simp, fun t hasks => Or.inl hasks⟩
  | @snoc acts s₁ s₂ a hrun hstep ih =>
      obtain ⟨hs₁, hlength, hasked⟩ := ih
      obtain ⟨hs₂, hless⟩ := hs₁.quiet hstep
      refine ⟨hs₂, ?_, fun t hasks => ?_⟩
      · rw [List.length_append, List.length_singleton]
        omega
      · rcases hasked t hasks with hstill | ⟨first, u, hprefix, hfirst, howns⟩
        · by_cases howns : Owns s₁ t
          · exact Or.inr ⟨acts, s₁, List.prefix_append .., hrun, howns⟩
          · obtain ⟨owner, hinv⟩ := hs₁.inv
            refine (hinv.asks_step hstill howns hstep hs₂.running).imp_right ?_
            exact fun howns₂ => ⟨_, s₂, List.prefix_rfl, .snoc hrun hstep, howns₂⟩
        · exact Or.inr ⟨first, u, hprefix.trans (List.prefix_append ..), hfirst,
            howns⟩

/-- The first thread releases the lock twice; the second one, which waits, gets
it and releases it. -/
def twoReleases : List (Act Bool) :=
  [.release true, .run true, .run true, .run true, .run true,
    .release true, .run true, .run true, .run true, .run true, .run true,
    .run true, .run false, .run false, .run false, .run false,
    .release false, .run false, .run false, .run false, .run false, .run false,
    .run false]

def quietNext (s : State Bool) (a : Act Bool) : Option (State Bool) :=
  if a.isRequest then none else shallowNext s a

theorem quietStep_of_next {s s' : State Bool} {a : Act Bool}
    (hnext : quietNext s a = some s') : QuietStep s a s' := by
  unfold quietNext at hnext
  split_ifs at hnext with hrequest
  exact ⟨shallowStep_of_next hnext, by simpa using hrequest⟩

end Sync
end OS32
