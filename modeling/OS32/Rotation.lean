import OS32.Run

/-!
# A resource that goes round

The members of a rota hold a resource in turn.  The holder keeps it for as many
ticks as its quantum says and then goes to the end of the queue; a new member
joins there.  The timetable lists who holds the resource at which of the next
ticks.
-/

open Transition

/-- `left` more ticks and the holder passes the resource on. -/
@[ext] structure Rota (τ : Type*) where
  holder : τ
  left : ℕ
  queue : List τ
  quantum : τ → ℕ
  nodup : (holder :: queue).Nodup
  quantum_pos : ∀ t, 0 < quantum t
  left_pos : 0 < left
  left_le : left ≤ quantum holder

namespace Rota

variable {τ : Type*}

def line (r : Rota τ) : List τ := r.holder :: r.queue

/-- The first of the queue takes over; nobody else waits where it is empty. -/
def pass (r : Rota τ) : Rota τ :=
  match hqueue : r.queue with
  | [] => { r with
      left := r.quantum r.holder
      left_pos := r.quantum_pos _
      left_le := le_rfl }
  | t :: rest => { r with
      holder := t
      left := r.quantum t
      queue := rest ++ [r.holder]
      nodup := by
        have hperm : (t :: (rest ++ [r.holder])).Perm (r.holder :: r.queue) := by
          rw [hqueue]
          exact List.perm_append_singleton r.holder (t :: rest)
        exact hperm.nodup_iff.mpr r.nodup
      left_pos := r.quantum_pos _
      left_le := le_rfl }

def tick (r : Rota τ) : Rota τ :=
  if hleft : 1 < r.left then { r with
    left := r.left - 1
    left_pos := by omega
    left_le := by
      have hle := r.left_le
      omega }
  else r.pass

def join [DecidableEq τ] (r : Rota τ) (t : τ) (quantum : ℕ)
    (ht : t ∉ r.line) (hquantum : 0 < quantum) : Rota τ :=
  { r with
    queue := r.queue ++ [t]
    quantum := Function.update r.quantum t quantum
    nodup := by
      have hperm : (r.holder :: (r.queue ++ [t])).Perm (t :: r.line) :=
        List.perm_append_singleton t (r.holder :: r.queue)
      exact hperm.nodup_iff.mpr (List.nodup_cons.mpr ⟨ht, r.nodup⟩)
    quantum_pos := by
      intro u
      rcases eq_or_ne u t with rfl | hne
      · rwa [Function.update_self]
      · rw [Function.update_of_ne hne]
        exact r.quantum_pos u
    left_le := by
      have hne : r.holder ≠ t := by
        rintro rfl
        exact ht List.mem_cons_self
      rw [Function.update_of_ne hne]
      exact r.left_le }

inductive Event (τ : Type*) where
  | tick
  | join (t : τ) (quantum : ℕ)

inductive Step [DecidableEq τ] (r : Rota τ) : Event τ → Rota τ → Prop
  | tick : Step r .tick r.tick
  | join {t : τ} {quantum : ℕ} (ht : t ∉ r.line) (hquantum : 0 < quantum) :
      Step r (.join t quantum) (r.join t quantum ht hquantum)

def Event.isTick : Event τ → Bool
  | .tick => true
  | .join .. => false

/-- The ticks among the events. -/
def ticks (events : List (Event τ)) : ℕ := events.countP Event.isTick

/-- The holders at the next ticks, up to the last member's turn. -/
def timetable (r : Rota τ) : List τ :=
  List.replicate r.left r.holder ++
    r.queue.flatMap fun t => List.replicate (r.quantum t) t

/-- The ticks of one round. -/
def period (r : Rota τ) : ℕ := (r.line.map r.quantum).sum

variable {r r' : Rota τ} {t : τ}

@[simp] theorem ticks_snoc (events : List (Event τ)) (e : Event τ) :
    ticks (events ++ [e]) = ticks events + if e.isTick then 1 else 0 := by
  simp [ticks, List.countP_append, List.countP_singleton]

theorem pass_line (r : Rota τ) : r.pass.line = r.queue ++ [r.holder] := by
  unfold pass
  split
  next hqueue => simp [line, hqueue]
  next hqueue => simp [line, hqueue]

@[simp] theorem pass_quantum (r : Rota τ) : r.pass.quantum = r.quantum := by
  unfold pass
  split <;> rfl

@[simp] theorem pass_left (r : Rota τ) :
    r.pass.left = r.quantum r.pass.holder := by
  unfold pass
  split <;> rfl

@[simp] theorem tick_quantum (r : Rota τ) : r.tick.quantum = r.quantum := by
  unfold tick
  split
  · rfl
  · exact r.pass_quantum

theorem tick_of_lt (hleft : 1 < r.left) :
    r.tick.holder = r.holder ∧ r.tick.left = r.left - 1 ∧
      r.tick.queue = r.queue := by
  simp [tick, hleft]

theorem tick_of_one (hleft : r.left = 1) : r.tick = r.pass := by
  simp [tick, hleft]

/-! ## The timetable -/

theorem timetable_cons (r : Rota τ) :
    r.timetable = r.holder :: r.timetable.tail := by
  obtain ⟨n, hn⟩ := Nat.exists_eq_add_of_lt r.left_pos
  simp [timetable, hn, List.replicate_succ]

theorem timetable_pass (r : Rota τ) :
    r.pass.timetable = (r.queue.flatMap fun t =>
      List.replicate (r.quantum t) t) ++
        List.replicate (r.quantum r.holder) r.holder := by
  have hline : r.pass.timetable = r.pass.line.flatMap fun t =>
      List.replicate (r.quantum t) t := by
    rw [timetable, pass_left, pass_quantum, line, List.flatMap_cons]
  rw [hline, pass_line, List.flatMap_append, List.flatMap_singleton]

/-- A tick takes the first entry away and adds the next turn of a holder that
passes the resource on. -/
theorem timetable_tick (r : Rota τ) :
    ∃ new, r.tick.timetable = r.timetable.tail ++ new := by
  by_cases hleft : 1 < r.left
  · obtain ⟨hholder, hless, hqueue⟩ := tick_of_lt hleft
    obtain ⟨n, hn⟩ := Nat.exists_eq_add_of_lt hleft
    have hpred : r.left = r.left - 1 + 1 := by omega
    refine ⟨[], ?_⟩
    rw [timetable, hholder, hless, hqueue, tick_quantum, timetable]
    conv_rhs => rw [hpred]
    simp [List.replicate_succ]
  · have hone : r.left = 1 := by
      have hpos := r.left_pos
      omega
    refine ⟨List.replicate (r.quantum r.holder) r.holder, ?_⟩
    rw [tick_of_one hone, timetable_pass, timetable, hone]
    rfl

theorem timetable_join [DecidableEq τ] {quantum : ℕ} (ht : t ∉ r.line)
    (hquantum : 0 < quantum) :
    (r.join t quantum ht hquantum).timetable =
      r.timetable ++ List.replicate quantum t := by
  have hturns : (r.queue.flatMap fun u => List.replicate
      (Function.update r.quantum t quantum u) u) =
      r.queue.flatMap fun u => List.replicate (r.quantum u) u := by
    refine List.flatMap_congr fun u hu => ?_
    have hne : u ≠ t := by
      rintro rfl
      exact ht (List.mem_cons_of_mem _ hu)
    rw [Function.update_of_ne hne]
  simp only [timetable, join, List.flatMap_append, List.flatMap_singleton,
    hturns, Function.update_self, List.append_assoc]

/-- The timetable is kept to, whoever joins meanwhile. -/
theorem timetable_run [DecidableEq τ] {events : List (Event τ)}
    (hrun : Run Step r events r') :
    ∃ new, r'.timetable = r.timetable.drop (ticks events) ++ new := by
  induction hrun with
  | nil => exact ⟨[], by simp [ticks]⟩
  | @snoc events r₁ r₂ e _ hlast ih =>
      obtain ⟨new, hnew⟩ := ih
      rw [ticks_snoc]
      cases hlast with
      | tick =>
          obtain ⟨more, hmore⟩ := r₁.timetable_tick
          simp only [Event.isTick, if_true, ← List.tail_drop]
          rw [hmore, hnew]
          cases r.timetable.drop (ticks events) with
          | nil => exact ⟨new.tail ++ more, rfl⟩
          | cons => exact ⟨new ++ more, by simp⟩
      | @join t quantum ht hquantum =>
          refine ⟨new ++ List.replicate quantum t, ?_⟩
          rw [timetable_join, hnew]
          simp [Event.isTick]

/-- Whoever stands in the timetable at a tick holds the resource then. -/
theorem holder_of_run [DecidableEq τ] {events : List (Event τ)}
    (hrun : Run Step r events r')
    (hentry : r.timetable[ticks events]? = some t) : r'.holder = t := by
  obtain ⟨new, hnew⟩ := timetable_run hrun
  obtain ⟨hlt, hget⟩ := List.getElem?_eq_some_iff.mp hentry
  rw [timetable_cons, List.drop_eq_getElem_cons hlt, List.cons_append] at hnew
  exact (List.cons.inj hnew).1.trans hget

theorem timetable_holder {n : ℕ} (hn : n < r.left) :
    r.timetable[n]? = some r.holder := by
  rw [timetable, List.getElem?_append_left (by simpa using hn)]
  simp [hn]

/-- A member's turn comes when those before it have had theirs. -/
theorem timetable_turn {first rest : List τ} (hqueue : r.queue = first ++ t :: rest)
    {n : ℕ} (hle : r.left + (first.map r.quantum).sum ≤ n)
    (hlt : n < r.left + (first.map r.quantum).sum + r.quantum t) :
    r.timetable[n]? = some t := by
  have hbefore : (List.replicate r.left r.holder ++ first.flatMap fun u =>
      List.replicate (r.quantum u) u).length =
      r.left + (first.map r.quantum).sum := by
    simp [List.length_flatMap]
  rw [timetable, hqueue, List.flatMap_append, List.flatMap_cons,
    ← List.append_assoc, List.getElem?_append_right (by omega), hbefore,
    List.getElem?_append_left (by simp; omega)]
  exact List.getElem?_replicate_of_lt (by omega)

/-! ## One round -/

theorem eq_of_fresh (hline : r'.line = r.line) (hquantum : r'.quantum = r.quantum)
    (hfresh : r.left = r.quantum r.holder)
    (hfresh' : r'.left = r'.quantum r'.holder) : r' = r := by
  obtain ⟨hholder, hqueue⟩ := List.cons.inj hline
  refine Rota.ext hholder ?_ hqueue hquantum
  rw [hfresh, hfresh', hquantum, hholder]

/-- The holder keeps the resource while its quantum lasts. -/
theorem iterate_tick_of_lt {k : ℕ} (hk : k < r.left) :
    (tick^[k] r).holder = r.holder ∧ (tick^[k] r).left = r.left - k ∧
      (tick^[k] r).queue = r.queue ∧ (tick^[k] r).quantum = r.quantum := by
  induction k with
  | zero => exact ⟨rfl, rfl, rfl, rfl⟩
  | succ k ih =>
      obtain ⟨hholder, hleft, hqueue, hquantum⟩ := ih (by omega)
      obtain ⟨hholder', hleft', hqueue'⟩ :=
        tick_of_lt (r := tick^[k] r) (by omega)
      rw [Function.iterate_succ_apply', hholder', hleft', hqueue', tick_quantum]
      exact ⟨hholder, by omega, hqueue, hquantum⟩

/-- One turn. -/
theorem iterate_tick_left (r : Rota τ) : tick^[r.left] r = r.pass := by
  have hpos := r.left_pos
  obtain ⟨hholder, hleft, hqueue, hquantum⟩ :=
    iterate_tick_of_lt (r := r) (k := r.left - 1) (by omega)
  have hlast : (tick^[r.left - 1] r).left = 1 := by omega
  have hsucc : r.left = (r.left - 1).succ := by omega
  conv_lhs => rw [hsucc]
  rw [Function.iterate_succ_apply', tick_of_one hlast]
  refine eq_of_fresh ?_ ?_ (by simp) (by simp)
  · rw [pass_line, pass_line, hqueue, hholder]
  · rw [pass_quantum, pass_quantum, hquantum]

theorem count_turn (r : Rota τ) (t : τ) [DecidableEq τ] :
    Nat.count (fun i => (tick^[i] r).holder = t) r.left =
      if r.holder = t then r.left else 0 := by
  have hholder : ∀ i < r.left,
      ((tick^[i] r).holder = t ↔ r.holder = t) := fun i hi => by
    rw [(iterate_tick_of_lt hi).1]
  split
  next heq => exact Nat.count_iff_forall.mpr fun i hi => (hholder i hi).mpr heq
  next hne =>
    exact Nat.count_iff_forall_not.mpr fun i hi hi' => hne ((hholder i hi).mp hi')

/-- The turns of the first members of the line, in ticks and in what each of
them gets. -/
theorem iterate_turns [DecidableEq τ] (t : τ) {first rest : List τ}
    (hfresh : r.left = r.quantum r.holder) (hline : r.line = first ++ rest) :
    (tick^[(first.map r.quantum).sum] r).line = rest ++ first ∧
      (tick^[(first.map r.quantum).sum] r).left =
        r.quantum (tick^[(first.map r.quantum).sum] r).holder ∧
      (tick^[(first.map r.quantum).sum] r).quantum = r.quantum ∧
      Nat.count (fun i => (tick^[i] r).holder = t) (first.map r.quantum).sum =
        first.count t * r.quantum t := by
  induction first generalizing r rest with
  | nil => simpa using And.intro hline hfresh
  | cons u first ih =>
      obtain ⟨hholder, hqueue⟩ := List.cons.inj hline
      have hturn := r.iterate_tick_left
      have hcount := r.count_turn t
      rw [hfresh, hholder] at hturn hcount
      have hpass : r.pass.line = first ++ (rest ++ [u]) := by
        rw [pass_line, hqueue, hholder]
        exact List.append_assoc ..
      obtain ⟨hline', hleft', hquantum', hcount'⟩ := ih (by simp) hpass
      have hiterate : ∀ n, tick^[r.quantum u + n] r = tick^[n] r.pass := by
        intro n
        rw [Nat.add_comm, Function.iterate_add_apply, hturn]
      simp only [pass_quantum] at hline' hleft' hquantum' hcount'
      simp only [List.map_cons, List.sum_cons, hiterate, Nat.count_add, hcount,
        hcount', List.count_cons, beq_iff_eq]
      refine ⟨?_, hleft', hquantum', ?_⟩
      · rw [hline', List.append_assoc]
        rfl
      · split_ifs with heq
        · subst heq
          ring
        · ring

/-- A round that begins with a turn. -/
theorem iterate_round [DecidableEq τ] (t : τ)
    (hfresh : r.left = r.quantum r.holder) :
    tick^[r.period] r = r ∧
      Nat.count (fun i => (tick^[i] r).holder = t) r.period =
        r.line.count t * r.quantum t := by
  obtain ⟨hline, hleft, hquantum, hcount⟩ :=
    iterate_turns t hfresh (List.append_nil r.line).symm
  have hfresh' : (tick^[r.period] r).left =
      (tick^[r.period] r).quantum (tick^[r.period] r).holder :=
    hleft.trans (congrFun hquantum _).symm
  exact ⟨eq_of_fresh hline hquantum hfresh hfresh', hcount⟩

/-- The rota at the beginning of its holder's turn. -/
def turn (r : Rota τ) : Rota τ :=
  { r with
    left := r.quantum r.holder
    left_pos := r.quantum_pos _
    left_le := le_rfl }

@[simp] theorem turn_period (r : Rota τ) : r.turn.period = r.period := rfl

theorem iterate_turn (r : Rota τ) :
    tick^[r.quantum r.holder - r.left] r.turn = r := by
  have hpos := r.left_pos
  have hle := r.left_le
  obtain ⟨hholder, hleft, hqueue, hquantum⟩ := iterate_tick_of_lt (r := r.turn)
    (k := r.quantum r.holder - r.left) (by simp only [turn]; omega)
  refine Rota.ext hholder ?_ hqueue hquantum
  rw [hleft]
  simp only [turn]
  omega

/-- After one round everything is as before. -/
theorem iterate_period (r : Rota τ) : tick^[r.period] r = r := by
  classical
  obtain ⟨hround, _⟩ := iterate_round (r := r.turn) r.holder rfl
  rw [turn_period] at hround
  calc tick^[r.period] r
      = tick^[r.period] (tick^[r.quantum r.holder - r.left] r.turn) := by
        rw [iterate_turn]
    _ = tick^[r.quantum r.holder - r.left] (tick^[r.period] r.turn) := by
        rw [← Function.iterate_add_apply, Nat.add_comm,
          Function.iterate_add_apply]
    _ = r := by rw [hround, iterate_turn]

/-- In any ticks as many as one round has, each member holds the resource for
its quantum. -/
theorem count_period [DecidableEq τ] (ht : t ∈ r.line) :
    Nat.count (fun i => (tick^[i] r).holder = t) r.period = r.quantum t := by
  obtain ⟨hreturn, hround⟩ := iterate_round (r := r.turn) t rfl
  have hone : r.turn.line.count t = 1 := List.count_eq_one_of_mem r.nodup ht
  rw [hone, Nat.one_mul, turn_period] at hround
  rw [turn_period] at hreturn
  -- the round from the beginning of the turn, moved to where the turn stands
  have hmove : ∀ d, Nat.count (fun i => (tick^[i] (tick^[d] r.turn)).holder = t)
      r.period = Nat.count (fun i => (tick^[i] r.turn).holder = t) r.period := by
    intro d
    have hleft := Nat.count_add (fun i => (tick^[i] r.turn).holder = t) d r.period
    have hright := Nat.count_add (fun i => (tick^[i] r.turn).holder = t) r.period d
    simp only [Nat.add_comm d, Function.iterate_add_apply] at hleft
    simp only [Nat.add_comm r.period, Function.iterate_add_apply,
      hreturn] at hright
    rw [Nat.add_comm d r.period] at hright
    omega
  have hhere := hmove (r.quantum r.holder - r.left)
  rw [iterate_turn] at hhere
  exact hhere.trans hround

end Rota
