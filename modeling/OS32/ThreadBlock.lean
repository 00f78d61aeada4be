import OS32.RoundRobin

/-!
# What `thread_block` does

`thread_block` leaves the CPU through the `schedule` of the timer.  With ticks
left `schedule` returns at once, and without ticks it puts the thread into the
ready list like any other: whatever the state, the thread is not blocked.
-/

namespace OS32

open NullList Links IntrusiveList Transition

namespace Sched
namespace Procs

variable {τ ι : Type*} [DecidableEq τ] [DecidableEq ι]

/-- The states `thread_block` accepts. -/
def BlockState (state : ProcState) : Prop :=
  state = .waiting ∨ state = .hanging ∨ state = .blocked

def InReadyList (s : Procs τ ι) (t : τ) : Prop :=
  s.links.Listed .readyList (.proc t)

/-- `schedule` gives the CPU to another thread, and the thread that called
`thread_block` is not in the ready list.  This is looked at where `schedule`
has chosen, before any other thread has taken a step. -/
structure Blocks (s : Procs τ ι) (state : ProcState) : Prop where
  leaves : ∃ next, (s.threadBlock state).2 = some next ∧ next ≠ s.current
  unlisted : ¬ (s.threadBlock state).1.InReadyList s.current

variable {s : Procs τ ι} {state : ProcState} {next : τ}

/-- With ticks left the thread goes on, marked as blocked. -/
theorem threadBlock_of_ticks (hticks : s.ticks s.current ≠ 0) :
    s.threadBlock state = (s.setState s.current state, none) :=
  pick_of_ticks hticks

/-- Where `schedule` has chosen a thread, the old one is the last node of the
ready list, whatever the links were. -/
theorem inReadyList_of_pick {s' : Procs τ ι}
    (hpick : s.pick = (s', some next)) : s'.InReadyList s.current := by
  have hlast : s'.links.prev readyList = node s.current := by
    unfold pick at hpick
    split_ifs at hpick with hticks hempty
    · cases hpick
    · split at hpick
      · cases hpick
        exact setPrev_prev_self _ _ _
      · cases hpick
    · cases hpick
  exact ⟨0, Or.inr hlast⟩

/-- `thread_block` never blocks. -/
theorem threadBlock_never_blocks (s : Procs τ ι) (state : ProcState) :
    ¬ s.Blocks state := by
  rintro ⟨⟨next, hnext, _⟩, hunlisted⟩
  exact hunlisted (inReadyList_of_pick (s := s.setState s.current state)
    (Prod.ext rfl hnext))

end Procs

/-- The boot thread calls `thread_block` while a thread it has created is
ready. -/
theorem threadBlock_with_ticks :
    ¬ ∀ acts (s : RoundRobin ℕ Unit),
      Run RoundRobin.Step (RoundRobin.start RoundRobin.zeroed 0 0) acts s →
      (∃ l, s.procs.Ready l ∧ l ≠ []) → ∀ state, Procs.BlockState state →
        s.procs.Blocks state := by
  intro hall
  obtain ⟨s, hexec, hticks⟩ : ∃ s,
      exec RoundRobin.next (RoundRobin.start RoundRobin.zeroed 0 0)
        [.create 1 5] = some s ∧ s.procs.ticks s.procs.current ≠ 0 :=
    ⟨_, rfl, by decide⟩
  have hrun : Run RoundRobin.Step (RoundRobin.start RoundRobin.zeroed 0 0) _
      s := Run.of_exec (fun _ _ _ h => h) hexec
  have hready : s.procs.Ready [1] := by
    obtain rfl : _ = s := Option.some.inj hexec
    exact (RoundRobin.start_inv _ 0 0).ready.afterCreate (by simp) 5
  obtain ⟨next, hnext, _⟩ := (hall _ s hrun ⟨[1], hready, by simp⟩ .blocked
    (Or.inr (Or.inr rfl))).leaves
  rw [Procs.threadBlock_of_ticks hticks] at hnext
  cases hnext

end Sched
end OS32
