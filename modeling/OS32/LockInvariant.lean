import OS32.LockModel
import OS32.Run

/-!
# Mutual exclusion of the recursive lock

A thread owns the lock from the step of `sema_down` that takes the semaphore to
the step of `sema_up` that gives it back.  The invariant says, for each place an
owner may stand at, what the three fields of the lock are; all other threads are
outside the lock.
-/

namespace OS32
namespace Sync

open Transition

variable {τ : Type*}

/-- Taken by `t` with `depth` unmatched calls. -/
structure Held (holder : Option τ) (times : Uint) (t : τ) (depth : ℕ) :
    Prop where
  positive : 1 ≤ depth
  holder_eq : holder = some t
  times_eq : times = BitVec.ofNat 32 depth

/-- `holder` and `holder_repeat_times` while the owner stands at a given
place. -/
def OwnerAt (holder : Option τ) (times : Uint) (t : τ) (depth : ℕ) : Pc → Prop
  | .semaDown | .waiting => False
  | .setHolder => depth = 0 ∧ holder = none ∧ times = 0
  | .checkRepeat | .setRepeat => depth = 0 ∧ holder = some t ∧ times = 0
  | .idle | .reqCheck | .incLoad | .relCheck | .relTest =>
      Held holder times t depth
  | .incStore v => Held holder times t depth ∧ v = BitVec.ofNat 32 depth
  | .decLoad => Held holder times t depth ∧ 2 ≤ depth
  | .decStore v =>
      Held holder times t depth ∧ 2 ≤ depth ∧ v = BitVec.ofNat 32 depth
  | .checkLast | .clearHolder => Held holder times t depth ∧ depth = 1
  | .clearRepeat => depth = 1 ∧ holder = none
  | .semaUp => depth = 1 ∧ holder = none ∧ times = 0

/-- Where a thread that does not own the lock may stand. -/
def Outside : Pc → Prop
  | .idle | .reqCheck | .semaDown | .waiting => True
  | _ => False

/-- The lock is owned by `owner`, or free. -/
structure Inv (s : State τ) (owner : Option τ) : Prop where
  running : s.halted = none
  shallow : ∀ t, s.depth t < 2 ^ 32
  outside : ∀ t, owner ≠ some t → Outside (s.pc t) ∧ s.depth t = 0
  inside : ∀ t, owner = some t →
    OwnerAt s.lock.holder s.lock.holderRepeatTimes t (s.depth t) (s.pc t) ∧
      s.lock.sem.value = 0
  free : owner = none → s.lock.holder = none ∧
    s.lock.holderRepeatTimes = 0 ∧ s.lock.sem.value = 1
  queued : ∀ t, t ∈ s.lock.sem.waiters ↔ s.pc t = .waiting
  nodup : s.lock.sem.waiters.Nodup

theorem initial_inv : Inv (State.initial : State τ) none := by
  constructor <;> simp [State.initial, lockInit, semaInit, Outside]

theorem OwnerAt.ne_waiting {holder : Option τ} {times : Uint} {t : τ}
    {depth : ℕ} {pc : Pc} (hat : OwnerAt holder times t depth pc) : pc ≠ .waiting := by
  intro hpc
  rw [hpc] at hat
  exact hat

theorem OwnerAt.holder_eq {holder : Option τ} {times : Uint} {t : τ}
    {depth : ℕ} {pc : Pc} (hat : OwnerAt holder times t depth pc) :
    holder = none ∨ holder = some t := by
  cases pc with
  | semaDown | waiting => exact hat.elim
  | setHolder => exact Or.inl hat.2.1
  | checkRepeat | setRepeat => exact Or.inr hat.2.1
  | idle | reqCheck | incLoad | relCheck | relTest =>
      exact Or.inr (Held.holder_eq hat)
  | incStore | decLoad | decStore | checkLast | clearHolder =>
      exact Or.inr hat.1.holder_eq
  | clearRepeat => exact Or.inl hat.2
  | semaUp => exact Or.inl hat.2.1

theorem Inv.owner_eq_of_holder {s : State τ} {owner : Option τ} {t : τ}
    (hs : Inv s owner) (hholder : s.lock.holder = some t) :
    owner = some t := by
  cases owner with
  | none => simp [(hs.free rfl).1] at hholder
  | some o =>
      rcases (hs.inside o rfl).1.holder_eq with hnone | hsome
      · simp [hnone] at hholder
      · rw [← hsome, hholder]

theorem Inv.owner_of_inside {s : State τ} {owner : Option τ} {t : τ}
    (hs : Inv s owner) (hpc : ¬ Outside (s.pc t)) : owner = some t := by
  by_contra hne
  exact hpc (hs.outside t hne).1

theorem Held.one_lt_iff {holder : Option τ} {times : Uint} {t : τ} {depth : ℕ}
    (hheld : Held holder times t depth) (hdepth : depth < 2 ^ 32) :
    1 < times ↔ 2 ≤ depth := by
  rw [hheld.times_eq, BitVec.lt_def, BitVec.toNat_ofNat,
    Nat.mod_eq_of_lt hdepth]
  rfl

section Moves

variable [DecidableEq τ] {s : State τ} {owner : Option τ} {t : τ}

theorem Inv.shallow_set (hs : Inv s owner) {depth : ℕ}
    (hdepth : depth < 2 ^ 32) (lock : Lock τ) (pc : Pc) (u : τ) :
    (s.set t lock pc depth).depth u < 2 ^ 32 := by
  by_cases hu : u = t
  · subst u
    simpa [State.set] using hdepth
  · simpa [State.set, hu] using hs.shallow u

/-- A thread outside the lock moves on outside of it. -/
theorem Inv.outsideMove (hs : Inv s owner) (ht : owner ≠ some t) {pc : Pc}
    (hfrom : s.pc t ≠ .waiting) (hout : Outside pc) (hto : pc ≠ .waiting) :
    Inv (s.goto t pc) owner := by
  have hkept : ∀ u, u ≠ t →
      (s.goto t pc).pc u = s.pc u ∧ (s.goto t pc).depth u = s.depth u := by
    intro u hu
    simp [State.goto, State.set, hu]
  have hself : (s.goto t pc).pc t = pc ∧
      (s.goto t pc).depth t = s.depth t := by
    simp [State.goto, State.set]
  constructor
  · exact hs.running
  · exact hs.shallow_set (hs.shallow t) _ _
  · intro u howner
    by_cases hu : u = t
    · subst u
      rw [hself.1, hself.2]
      exact ⟨hout, (hs.outside t ht).2⟩
    · rw [(hkept u hu).1, (hkept u hu).2]
      exact hs.outside u howner
  · intro u howner
    have hu : u ≠ t := by
      intro heq
      subst u
      exact ht howner
    rw [(hkept u hu).1, (hkept u hu).2]
    exact hs.inside u howner
  · exact hs.free
  · intro u
    by_cases hu : u = t
    · subst u
      rw [hself.1]
      exact iff_of_false (mt (hs.queued t).mp hfrom) hto
    · rw [(hkept u hu).1]
      exact hs.queued u
  · exact hs.nodup

/-- The owner moves on and keeps the lock. -/
theorem Inv.ownerMove (hs : Inv s (some t)) {lock : Lock τ} {pc : Pc}
    {depth : ℕ} (hsem : lock.sem = s.lock.sem)
    (hat : OwnerAt lock.holder lock.holderRepeatTimes t depth pc) (hdepth : depth < 2 ^ 32) :
    Inv (s.set t lock pc depth) (some t) := by
  have hkept : ∀ u, u ≠ t → (s.set t lock pc depth).pc u = s.pc u ∧
      (s.set t lock pc depth).depth u = s.depth u := by
    intro u hu
    simp [State.set, hu]
  have hself : (s.set t lock pc depth).pc t = pc ∧
      (s.set t lock pc depth).depth t = depth := by
    simp [State.set]
  constructor
  · exact hs.running
  · exact hs.shallow_set hdepth _ _
  · intro u howner
    have hu : u ≠ t := by
      intro heq
      exact howner (by rw [heq])
    rw [(hkept u hu).1, (hkept u hu).2]
    exact hs.outside u howner
  · intro u howner
    have hu : u = t := (Option.some.inj howner).symm
    subst u
    rw [hself.1, hself.2]
    refine ⟨hat, ?_⟩
    change lock.sem.value = 0
    rw [hsem]
    exact (hs.inside t rfl).2
  · intro hnone
    contradiction
  · intro u
    change u ∈ lock.sem.waiters ↔ _
    rw [hsem]
    by_cases hu : u = t
    · subst u
      rw [hself.1]
      exact iff_of_false
        (mt (hs.queued t).mp (hs.inside t rfl).1.ne_waiting) hat.ne_waiting
    · rw [(hkept u hu).1]
      exact hs.queued u
  · change lock.sem.waiters.Nodup
    rw [hsem]
    exact hs.nodup

theorem Inv.ownerGoto (hs : Inv s (some t)) {pc : Pc}
    (hat : OwnerAt s.lock.holder s.lock.holderRepeatTimes t (s.depth t) pc) :
    Inv (s.goto t pc) (some t) :=
  hs.ownerMove rfl hat (hs.shallow t)

/-- A thread that finds the semaphore taken joins the wait queue. -/
theorem Inv.wait (hs : Inv s owner) (ht : owner ≠ some t)
    (hpc : s.pc t ≠ .waiting) :
    Inv (s.set t { s.lock with sem :=
      { s.lock.sem with waiters := s.lock.sem.waiters ++ [t] } } .waiting
        (s.depth t)) owner := by
  have hnot : t ∉ s.lock.sem.waiters := mt (hs.queued t).mp hpc
  constructor
  · exact hs.running
  · exact hs.shallow_set (hs.shallow t) _ _
  · intro u howner
    by_cases hu : u = t
    · subst u
      simpa [State.set, Outside] using (hs.outside t ht).2
    · simpa [State.set, hu] using hs.outside u howner
  · intro u howner
    have hu : u ≠ t := by
      intro heq
      subst u
      exact ht howner
    simpa [State.set, hu] using hs.inside u howner
  · exact hs.free
  · intro u
    by_cases hu : u = t
    · subst u
      simp [State.set]
    · simpa [State.set, hu] using hs.queued u
  · simpa [State.set, List.concat_eq_append] using hs.nodup.concat hnot

/-- A thread that finds the semaphore free takes it. -/
theorem Inv.take (hs : Inv s none) (hpc : s.pc t ≠ .waiting) :
    Inv (s.set t { s.lock with sem :=
      { s.lock.sem with value := s.lock.sem.value - 1 } } .setHolder
        (s.depth t)) (some t) := by
  have hfree := hs.free rfl
  have hdepth := (hs.outside t (by simp)).2
  constructor
  · exact hs.running
  · exact hs.shallow_set (hs.shallow t) _ _
  · intro u howner
    have hu : u ≠ t := by
      intro heq
      exact howner (by rw [heq])
    simpa [State.set, hu] using hs.outside u (by simp)
  · intro u howner
    have hu : u = t := (Option.some.inj howner).symm
    subst u
    simp only [State.set, Function.update_self, hdepth, hfree.2.2]
    exact ⟨⟨rfl, hfree.1, hfree.2.1⟩, rfl⟩
  · intro hnone
    contradiction
  · intro u
    by_cases hu : u = t
    · subst u
      simpa [State.set] using mt (hs.queued t).mp hpc
    · simpa [State.set, hu] using hs.queued u
  · exact hs.nodup

/-- What a thread outside the lock does next keeps it outside, or takes the
semaphore. -/
theorem Inv.semaDown (hs : Inv s owner) (ht : owner ≠ some t)
    (hpc : s.pc t = .semaDown) : ∃ owner', Inv (s.semaDown t) owner' := by
  have hwaiting : s.pc t ≠ .waiting := by simp [hpc]
  have hnot : t ∉ s.lock.sem.waiters := mt (hs.queued t).mp hwaiting
  cases owner with
  | none =>
      have hvalue := (hs.free rfl).2.2
      have htake := hs.take hwaiting
      refine ⟨some t, ?_⟩
      simpa [State.semaDown, State.assert, hvalue, State.set] using htake
  | some o =>
      have hvalue := (hs.inside o rfl).2
      have hwait := hs.wait ht hwaiting
      refine ⟨some o, ?_⟩
      simpa [State.semaDown, State.assert, hvalue, hnot] using hwait

/-- The owner gives the semaphore back. -/
theorem Inv.give (hs : Inv s (some t))
    (hholder : s.lock.holder = none) (htimes : s.lock.holderRepeatTimes = 0) :
    Inv (s.set t { s.lock with sem :=
      { s.lock.sem with value := s.lock.sem.value + 1 } } .idle 0) none := by
  have hinside := hs.inside t rfl
  constructor
  · exact hs.running
  · exact hs.shallow_set (Nat.two_pow_pos 32) _ _
  · intro u _
    by_cases hu : u = t
    · subst u
      simp [State.set, Outside]
    · have hout := hs.outside u (by simpa using Ne.symm hu)
      simpa [State.set, hu] using hout
  · intro u hnone
    contradiction
  · intro _
    exact ⟨hholder, htimes, by simp [State.set, hinside.2]⟩
  · intro u
    by_cases hu : u = t
    · subst u
      simpa [State.set] using mt (hs.queued t).mp hinside.1.ne_waiting
    · simpa [State.set, hu] using hs.queued u
  · exact hs.nodup

/-- The first thread on the wait queue leaves it. -/
theorem Inv.wake (hs : Inv s owner) {rest : List τ}
    (hwaiters : s.lock.sem.waiters = t :: rest) :
    Inv (s.set t { s.lock with sem := { s.lock.sem with waiters := rest } }
      .semaDown (s.depth t)) owner := by
  have hnodup := hs.nodup
  rw [hwaiters, List.nodup_cons] at hnodup
  have hpc : s.pc t = .waiting := (hs.queued t).mp (by simp [hwaiters])
  have ht : owner ≠ some t := by
    intro howner
    exact (hs.inside t howner).1.ne_waiting hpc
  constructor
  · exact hs.running
  · exact hs.shallow_set (hs.shallow t) _ _
  · intro u howner
    by_cases hu : u = t
    · subst u
      simpa [State.set, Outside] using (hs.outside t ht).2
    · simpa [State.set, hu] using hs.outside u howner
  · intro u howner
    have hu : u ≠ t := by
      intro heq
      subst u
      exact ht howner
    simpa [State.set, hu] using hs.inside u howner
  · exact hs.free
  · intro u
    by_cases hu : u = t
    · subst u
      simpa [State.set] using hnodup.1
    · have hqueued := hs.queued u
      rw [hwaiters, List.mem_cons] at hqueued
      simpa [State.set, hu] using hqueued
  · exact hnodup.2

/-- `sema_up` leaves the lock free. -/
theorem Inv.semaUp (hs : Inv s (some t)) (hpc : s.pc t = .semaUp) :
    Inv (s.semaUp t) none := by
  have hinside := hs.inside t rfl
  rw [hpc] at hinside
  rcases hinside with ⟨⟨hdepth, hholder, htimes⟩, hvalue⟩
  have hgive := hs.give hholder htimes
  cases hwaiters : s.lock.sem.waiters with
  | nil =>
      simpa [State.semaUp, State.assert, hvalue, hwaiters, hdepth] using hgive
  | cons w rest =>
      have hwake := hgive.wake (t := w) hwaiters
      simpa [State.semaUp, State.assert, hvalue, hwaiters, hdepth,
        State.goto, State.set] using hwake

/-! ## One step -/

/-- One access of the thread `t` keeps the invariant, as long as no thread nests
too deep for the counter. -/
theorem Inv.advance {s' : State τ} (hs : Inv s owner)
    (hadvance : s.advance t = some s') (hshallow : ∀ u, s'.depth u < 2 ^ 32) :
    ∃ owner', Inv s' owner' := by
  unfold State.advance at hadvance
  have hdepth := hs.shallow t
  by_cases hout : Outside (s.pc t)
  · cases hpc : s.pc t with
    | idle => simp [hpc] at hadvance
    | waiting => simp [hpc] at hadvance
    | reqCheck =>
        simp only [hpc, Option.some.injEq] at hadvance
        by_cases howner : owner = some t
        · subst howner
          have hinside := (hs.inside t rfl).1
          rw [hpc] at hinside
          rw [if_neg (by simpa using Held.holder_eq hinside)] at hadvance
          subst hadvance
          exact ⟨_, hs.ownerGoto hinside⟩
        · have hholder : s.lock.holder ≠ some t := by
            intro hholder
            exact howner (hs.owner_eq_of_holder hholder)
          rw [if_pos hholder] at hadvance
          subst hadvance
          exact ⟨_, hs.outsideMove howner (by simp [hpc]) trivial (by simp)⟩
    | semaDown =>
        simp only [hpc, Option.some.injEq] at hadvance
        subst hadvance
        refine hs.semaDown ?_ hpc
        intro howner
        have hinside := (hs.inside t howner).1
        rwa [hpc] at hinside
    | _ => simp [hpc, Outside] at hout
  · obtain rfl := hs.owner_of_inside hout
    have hinside := (hs.inside t rfl).1
    cases hpc : s.pc t with
    | idle | waiting | reqCheck | semaDown => simp [hpc, Outside] at hout
    | setHolder =>
        simp only [hpc, Option.some.injEq] at hadvance hinside
        subst hadvance
        exact ⟨_, hs.ownerMove rfl ⟨hinside.1, rfl, hinside.2.2⟩ hdepth⟩
    | checkRepeat =>
        simp only [hpc, Option.some.injEq] at hadvance hinside
        rw [State.assert, if_pos (by simpa using hinside.2.2)] at hadvance
        subst hadvance
        exact ⟨_, hs.ownerGoto hinside⟩
    | setRepeat =>
        simp only [hpc, Option.some.injEq] at hadvance hinside
        subst hadvance
        refine ⟨_, hs.ownerMove rfl ⟨by omega, hinside.2.1, ?_⟩ ?_⟩
        · simp [hinside.1]
        · simp [hinside.1]
    | incLoad =>
        simp only [hpc, Option.some.injEq] at hadvance hinside
        subst hadvance
        exact ⟨_, hs.ownerGoto ⟨hinside, hinside.times_eq⟩⟩
    | incStore v =>
        simp only [hpc, Option.some.injEq] at hadvance hinside
        subst hadvance
        have hbound := hshallow t
        simp only [State.set, Function.update_self] at hbound
        refine ⟨_, hs.ownerMove rfl ⟨by omega, hinside.1.holder_eq, ?_⟩ hbound⟩
        simp only [hinside.2, BitVec.ofNat_add]
        rfl
    | relCheck =>
        simp only [hpc, Option.some.injEq] at hadvance hinside
        rw [State.assert, if_pos (by simpa using Held.holder_eq hinside)]
          at hadvance
        subst hadvance
        exact ⟨_, hs.ownerGoto hinside⟩
    | relTest =>
        simp only [hpc, Option.some.injEq] at hadvance hinside
        by_cases hmany : 2 ≤ s.depth t
        · rw [if_pos ((hinside.one_lt_iff hdepth).mpr hmany)] at hadvance
          subst hadvance
          exact ⟨_, hs.ownerGoto ⟨hinside, hmany⟩⟩
        · rw [if_neg (mt (hinside.one_lt_iff hdepth).mp hmany)] at hadvance
          subst hadvance
          have hpositive := hinside.positive
          exact ⟨_, hs.ownerGoto ⟨hinside, by omega⟩⟩
    | decLoad =>
        simp only [hpc, Option.some.injEq] at hadvance hinside
        subst hadvance
        exact ⟨_, hs.ownerGoto ⟨hinside.1, hinside.2, hinside.1.times_eq⟩⟩
    | decStore v =>
        simp only [hpc, Option.some.injEq] at hadvance hinside
        subst hadvance
        rcases hinside with ⟨hheld, hmany, hv⟩
        refine ⟨_, hs.ownerMove rfl ⟨by omega, hheld.holder_eq, ?_⟩ (by omega)⟩
        obtain ⟨d, hd⟩ : ∃ d, s.depth t = d + 1 := ⟨s.depth t - 1, by omega⟩
        simp only [hv, hd, BitVec.ofNat_add, Nat.add_sub_cancel]
        exact BitVec.add_sub_cancel _ _
    | checkLast =>
        simp only [hpc, Option.some.injEq] at hadvance hinside
        have htimes := hinside.1.times_eq
        rw [hinside.2] at htimes
        rw [State.assert, if_pos (by simpa using htimes)] at hadvance
        subst hadvance
        exact ⟨_, hs.ownerGoto hinside⟩
    | clearHolder =>
        simp only [hpc, Option.some.injEq] at hadvance hinside
        subst hadvance
        exact ⟨_, hs.ownerMove rfl ⟨hinside.2, rfl⟩ hdepth⟩
    | clearRepeat =>
        simp only [hpc, Option.some.injEq] at hadvance hinside
        subst hadvance
        exact ⟨_, hs.ownerMove rfl ⟨hinside.1, hinside.2, rfl⟩ hdepth⟩
    | semaUp =>
        simp only [hpc, Option.some.injEq] at hadvance
        subst hadvance
        exact ⟨none, hs.semaUp hpc⟩

/-- Every step keeps the invariant. -/
theorem Inv.next {s' : State τ} {a : Act τ} (hs : Inv s owner)
    (hnext : Sync.next s a = some s') (hshallow : ∀ u, s'.depth u < 2 ^ 32) :
    ∃ owner', Inv s' owner' := by
  unfold Sync.next at hnext
  rw [hs.running] at hnext
  cases a with
  | run t => exact hs.advance hnext hshallow
  | request t =>
      cases hpc : s.pc t with
      | idle =>
          simp only [hpc, Option.some.injEq] at hnext
          subst hnext
          by_cases howner : owner = some t
          · subst howner
            have hinside := (hs.inside t rfl).1
            rw [hpc] at hinside
            exact ⟨_, hs.ownerGoto hinside⟩
          · exact ⟨_, hs.outsideMove howner (by simp [hpc]) trivial (by simp)⟩
      | _ => simp [hpc] at hnext
  | release t =>
      cases hpc : s.pc t with
      | idle =>
          simp only [hpc] at hnext
          split at hnext
          next hheld =>
            simp only [Option.some.injEq] at hnext
            subst hnext
            obtain rfl : owner = some t := by
              by_contra hne
              have := (hs.outside t hne).2
              omega
            have hinside := (hs.inside t rfl).1
            rw [hpc] at hinside
            exact ⟨_, hs.ownerGoto hinside⟩
          next => contradiction
      | _ => simp [hpc] at hnext

end Moves

/-! ## Runs -/

section Runs

/-- `t` has taken the semaphore in its outermost `req_lock` and not given it
back. -/
def Owns (s : State τ) (t : τ) : Prop :=
  0 < s.depth t ∨ s.pc t = .setHolder ∨ s.pc t = .checkRepeat ∨
    s.pc t = .setRepeat

theorem Inv.owner_of_owns {s : State τ} {owner : Option τ} {t : τ}
    (hs : Inv s owner) (howns : Owns s t) : owner = some t := by
  by_contra hne
  rcases hs.outside t hne with ⟨hout, hdepth⟩
  rcases howns with hpos | hpc | hpc | hpc
  · omega
  all_goals
    rw [hpc] at hout
    exact hout

theorem Inv.owns_of_owner {s : State τ} {t : τ} (hs : Inv s (some t)) :
    Owns s t := by
  have hinside := (hs.inside t rfl).1
  unfold Owns
  cases hpc : s.pc t with
  | semaDown | waiting =>
      rw [hpc] at hinside
      exact hinside.elim
  | setHolder | checkRepeat | setRepeat => simp
  | idle | reqCheck | incLoad | relCheck | relTest =>
      rw [hpc] at hinside
      exact Or.inl (Held.positive hinside)
  | incStore | decLoad | decStore | checkLast | clearHolder =>
      rw [hpc] at hinside
      exact Or.inl hinside.1.positive
  | clearRepeat | semaUp =>
      rw [hpc] at hinside
      have hdepth := hinside.1
      left
      omega

variable [DecidableEq τ]

/-- One step after which no thread has `2 ^ 32` unmatched calls. -/
def ShallowStep (s : State τ) (a : Act τ) (s' : State τ) : Prop :=
  next s a = some s' ∧ ∀ t, s'.depth t < 2 ^ 32

/-- While no thread nests `2 ^ 32` calls deep, at most one thread owns the lock,
the semaphore and the holder agree with it, the counter counts its unmatched
calls and no assertion fires. -/
theorem lock_mutual_exclusion {acts : List (Act τ)} {s : State τ}
    (hrun : Run ShallowStep State.initial acts s) :
    (∀ t u, Owns s t → Owns s u → t = u) ∧
      (s.lock.sem.value = 0 ∨ s.lock.sem.value = 1) ∧
      (s.lock.sem.value = 1 → ∀ t, ¬ Owns s t) ∧
      (∀ t, s.lock.holder = some t → Owns s t) ∧
      (∀ t, Owns s t → s.pc t = .idle →
        s.lock.holderRepeatTimes.toNat = s.depth t) ∧
      s.halted = none := by
  obtain ⟨owner, hs⟩ := hrun.invariant (fun s => ∃ owner, Inv s owner)
    (fun _ _ _ ⟨_, hs⟩ hstep => hs.next hstep.1 hstep.2) ⟨none, initial_inv⟩
  refine ⟨?_, ?_, ?_, ?_, ?_, hs.running⟩
  · intro t u ht hu
    have htu := (hs.owner_of_owns ht).symm.trans (hs.owner_of_owns hu)
    exact Option.some.inj htu
  · cases owner with
    | none => exact Or.inr (hs.free rfl).2.2
    | some o => exact Or.inl (hs.inside o rfl).2
  · intro hvalue t ht
    have hzero := (hs.inside t (hs.owner_of_owns ht)).2
    rw [hvalue] at hzero
    contradiction
  · intro t hholder
    obtain rfl := hs.owner_eq_of_holder hholder
    exact hs.owns_of_owner
  · intro t ht hidle
    have hinside := (hs.inside t (hs.owner_of_owns ht)).1
    rw [hidle] at hinside
    rw [Held.times_eq hinside, BitVec.toNat_ofNat,
      Nat.mod_eq_of_lt (hs.shallow t)]

/-- Two threads: the first takes the lock twice, the second waits. -/
def twoThreads : List (Act Bool) :=
  [.request true, .run true, .run true, .run true, .run true, .run true,
    .request false, .run false, .run false,
    .request true, .run true, .run true, .run true]

def shallowNext (s : State Bool) (a : Act Bool) : Option (State Bool) :=
  (next s a).filter fun s' => s'.depth true < 2 ^ 32 ∧ s'.depth false < 2 ^ 32

theorem shallowStep_of_next {s s' : State Bool} {a : Act Bool}
    (hnext : shallowNext s a = some s') : ShallowStep s a s' := by
  rcases Option.filter_eq_some_iff.mp hnext with ⟨hstep, hshallow⟩
  rw [decide_eq_true_eq] at hshallow
  exact ⟨hstep, Bool.forall_bool.mpr hshallow.symm⟩

theorem lock_mutual_exclusion_two_threads :
    ∃ s : State Bool, Run ShallowStep State.initial twoThreads s ∧
      s.lock.holderRepeatTimes.toNat = 2 ∧ ¬ Owns s false ∧
      s.halted = none := by
  obtain ⟨s, hexec, hdepth, hidle⟩ :
      ∃ s, exec shallowNext State.initial twoThreads = some s ∧
        s.depth true = 2 ∧ s.pc true = .idle :=
    ⟨_, rfl, rfl, rfl⟩
  have hrun := Run.of_exec (fun _ _ _ => shallowStep_of_next) hexec
  rcases lock_mutual_exclusion hrun with
    ⟨honly, _, _, _, hrepeat, hrunning⟩
  have howns : Owns s true := Or.inl (by omega)
  refine ⟨s, hrun, ?_, ?_, hrunning⟩
  · rw [hrepeat true howns hidle, hdepth]
  · intro hfalse
    exact absurd (honly true false howns hfalse) (by decide)

end Runs

/-! ## The counter wraps -/

/-- One thread with `n` unmatched calls. -/
def nested (n : ℕ) : State Unit where
  lock := ⟨some (), ⟨0, []⟩, BitVec.ofNat 32 n⟩
  pc := fun _ => .idle
  depth := fun _ => n
  halted := none

theorem request_first :
    Run (fun (s : State Unit) a s' => next s a = some s') State.initial
      [.request (), .run (), .run (), .run (), .run (), .run ()]
      (nested 1) := by
  refine Run.of_exec (fun _ _ _ h => h) ?_
  rfl

theorem request_again (n : ℕ) :
    Run (fun (s : State Unit) a s' => next s a = some s') (nested n)
      [.request (), .run (), .run (), .run ()] (nested (n + 1)) := by
  refine Run.of_exec (fun _ _ _ h => h) ?_
  have hupdate : ∀ {α : Type} (f : Unit → α) (a : α),
      Function.update f () a = fun _ => a := by
    intro α f a
    funext u
    simp
  simp [exec, next, State.goto, State.set, State.advance, nested, hupdate,
    BitVec.ofNat_add]

theorem request_times (n : ℕ) :
    ∃ acts, Run (fun (s : State Unit) a s' => next s a = some s')
      State.initial acts (nested (n + 1)) := by
  induction n with
  | zero => exact ⟨_, request_first⟩
  | succ n ih =>
      obtain ⟨acts, hrun⟩ := ih
      exact ⟨_, hrun.append (request_again (n + 1))⟩

/-- After `2 ^ 32` nested calls the counter of the owner is 0. -/
theorem repeat_times_wrap :
    ∃ acts s, Run (fun (s : State Unit) a s' => next s a = some s')
        State.initial acts s ∧
      Owns s () ∧ s.pc () = .idle ∧ s.depth () = 2 ^ 32 ∧
      s.lock.holderRepeatTimes.toNat = 0 := by
  obtain ⟨acts, hrun⟩ := request_times (2 ^ 32 - 1)
  refine ⟨acts, _, hrun, Or.inl ?_, rfl, rfl, ?_⟩
  · simp [nested]
  · simp [nested]

end Sync
end OS32
