import OS32.Basic

/-!
# `sleep`

The loop of `sleep` compares the tick counter with a deadline, both modulo
`2 ^ 32`.  It is right as long as the counter has been through zero as often as
the deadline.
-/

namespace OS32

namespace Sleep

/-- What happens to a thread in the loop of `sleep`. -/
inductive Event where
  | timer
  | test
  deriving DecidableEq

/-- `while(tick < endcc);` from `tick` on: how many tests the loop passes before
the one at which it ends. -/
def loopFrom (endcc : Uint) : Uint → List Event → Option ℕ
  | _, [] => none
  | tick, .timer :: events => loopFrom endcc (tick + 1) events
  | tick, .test :: events =>
      if tick < endcc then (loopFrom endcc tick events).map (· + 1) else some 0

/-- `sleep(ticks)` called while the counter is `tick`. -/
def sleep (tick ticks : Uint) (events : List Event) : Option ℕ :=
  let cc := tick
  let endcc := tick + ticks
  loopFrom endcc cc events

/-- How many ticks have elapsed at each test, `e` of them before the first
event. -/
def tests : ℕ → List Event → List ℕ
  | _, [] => []
  | e, .timer :: events => tests (e + 1) events
  | e, .test :: events => e :: tests e events

/-- The tests up to the first one after `d` ticks. -/
def untilDue (d : ℕ) : List ℕ → List ℕ
  | [] => []
  | e :: l => if d ≤ e then [e] else e :: untilDue d l

/-- The loop does not end before `d` ticks have elapsed, and it ends at the
first test after that, if this comes fewer than `2 ^ 31` ticks late. -/
structure Sleeps (tick d : Uint) (events : List Event) : Prop where
  not_early : ∀ i e, sleep tick d events = some i →
    (tests 0 events)[i]? = some e → d.toNat ≤ e
  in_time : ∀ i e, (tests 0 events).findIdx? (d.toNat ≤ ·) = some i →
    (tests 0 events)[i]? = some e → e < d.toNat + 2 ^ 31 →
    sleep tick d events = some i

/-! ## The tests -/

theorem le_of_mem_tests {e a : ℕ} {events : List Event}
    (ha : a ∈ tests e events) : e ≤ a := by
  induction events generalizing e with
  | nil => cases ha
  | cons event events ih =>
      cases event with
      | timer => exact (Nat.le_succ e).trans (ih ha)
      | test =>
          rcases List.mem_cons.mp ha with rfl | ha
          · exact le_rfl
          · exact ih ha

theorem tests_sorted (e : ℕ) (events : List Event) :
    (tests e events).Pairwise (· ≤ ·) := by
  induction events generalizing e with
  | nil => exact .nil
  | cons event events ih =>
      cases event with
      | timer => exact ih (e + 1)
      | test => exact .cons (fun _ ha => le_of_mem_tests ha) (ih e)

/-- The loop ends at the first test whose counter is not below the deadline. -/
theorem loopFrom_eq (endcc tick : Uint) (e : ℕ) (events : List Event) :
    loopFrom endcc (tick + BitVec.ofNat 32 e) events =
      (tests e events).findIdx? fun e =>
        ¬ tick + BitVec.ofNat 32 e < endcc := by
  induction events generalizing e with
  | nil => rfl
  | cons event events ih =>
      cases event with
      | timer =>
          have hnext : tick + BitVec.ofNat 32 e + 1 =
              tick + BitVec.ofNat 32 (e + 1) := by
            rw [BitVec.add_assoc, BitVec.ofNat_add]
            rfl
          rw [loopFrom, hnext, ih, tests]
      | test =>
          rw [loopFrom, tests, List.findIdx?_cons, ih]
          by_cases hlt : tick + BitVec.ofNat 32 e < endcc
          · simp [hlt]
          · simp [hlt]

theorem sleep_eq (tick d : Uint) (events : List Event) :
    sleep tick d events = (tests 0 events).findIdx? fun e =>
      ¬ tick + BitVec.ofNat 32 e < tick + d := by
  rw [← loopFrom_eq]
  simp [sleep]

/-! ## The first test that counts -/

/-- A search by `stops` in a sorted list ends at the first entry that is due, if
that one is near, and never before, just if `stops` is right up to there. -/
theorem search_iff {l : List ℕ} (hl : l.Pairwise (· ≤ ·)) (stops : ℕ → Bool)
    (d near : ℕ) (hnear : d ≤ near) :
    ((∀ i e, l.findIdx? stops = some i → l[i]? = some e → d ≤ e) ∧
      ∀ i e, l.findIdx? (d ≤ ·) = some i → l[i]? = some e → e < near →
        l.findIdx? stops = some i) ↔
      ∀ e ∈ untilDue d l, e < near → (stops e = true ↔ d ≤ e) := by
  induction l with
  | nil => simp [untilDue]
  | cons a l ih =>
      obtain ⟨hle, hl⟩ := List.pairwise_cons.mp hl
      have ih := ih hl
      by_cases hdue : d ≤ a
      · have hlate : ∀ i e : ℕ, (a :: l)[i]? = some e → d ≤ e := by
          intro i e hget
          rcases List.mem_cons.mp (List.mem_of_getElem? hget) with rfl | hmem
          · exact hdue
          · exact hdue.trans (hle e hmem)
        have huntil : untilDue d (a :: l) = [a] := if_pos hdue
        rw [huntil, List.findIdx?_cons, List.findIdx?_cons]
        simp only [hdue, decide_true, if_true]
        constructor
        · rintro ⟨_, htime⟩ e he hlt
          obtain rfl := List.mem_singleton.mp he
          have hstop := htime 0 e rfl rfl hlt
          refine iff_of_true ?_ hdue
          by_contra hnot
          rw [if_neg hnot] at hstop
          simp at hstop
        · intro hright
          refine ⟨fun i e _ hget => hlate i e hget, ?_⟩
          rintro i e hi hget hlt
          obtain rfl := Option.some.inj hi
          obtain rfl := Option.some.inj hget
          rw [if_pos ((hright a (List.mem_singleton_self a) hlt).mpr hdue)]
      · have huntil : untilDue d (a :: l) = a :: untilDue d l := if_neg hdue
        have hlt : a < near := (not_le.mp hdue).trans_le hnear
        rw [huntil, List.findIdx?_cons, List.findIdx?_cons]
        simp only [hdue, decide_false, Bool.false_eq_true, if_false]
        cases hstop : stops a with
        | true =>
            refine iff_of_false ?_ ?_
            · rintro ⟨hearly, _⟩
              exact hdue (hearly 0 a rfl rfl)
            · intro hright
              exact hdue ((hright a List.mem_cons_self hlt).mp hstop)
        | false =>
            simp only [Bool.false_eq_true, if_false, Option.map_eq_some_iff]
            constructor
            · rintro ⟨hearly, htime⟩
              have hrest := ih.mp ⟨fun i e hi hget =>
                hearly (i + 1) e ⟨i, hi, rfl⟩ hget, fun i e hi hget hnear => by
                  obtain ⟨j, hj, hji⟩ :=
                    htime (i + 1) e ⟨i, hi, rfl⟩ hget hnear
                  rw [hj, Nat.succ.inj hji]⟩
              intro e he hnear
              rcases List.mem_cons.mp he with rfl | he
              · exact iff_of_false (by simp [hstop]) hdue
              · exact hrest e he hnear
            · intro hright
              obtain ⟨hearly, htime⟩ := ih.mpr fun e he =>
                hright e (List.mem_cons_of_mem _ he)
              constructor
              · rintro i e ⟨j, hj, rfl⟩ hget
                exact hearly j e hj hget
              · rintro i e ⟨j, hj, rfl⟩ hget hnear
                exact ⟨j, htime j e hj hget hnear, rfl⟩

/-! ## The counter wraps -/

/-- The comparison of the counter with the deadline is right just if no multiple
of `2 ^ 32` lies between them. -/
theorem below_deadline_iff (tick d : Uint) {e : ℕ}
    (he : e < d.toNat + 2 ^ 31) :
    (¬ tick + BitVec.ofNat 32 e < tick + d ↔ d.toNat ≤ e) ↔
      (tick.toNat + e) / 2 ^ 32 = (tick.toNat + d.toNat) / 2 ^ 32 := by
  have htick := tick.isLt
  have hd := d.isLt
  have hlt : tick + BitVec.ofNat 32 e < tick + d ↔
      (tick.toNat + e) % 2 ^ 32 < (tick.toNat + d.toNat) % 2 ^ 32 := by
    rw [BitVec.lt_def, BitVec.toNat_add, BitVec.toNat_add, BitVec.toNat_ofNat,
      Nat.add_mod_mod]
  rw [hlt]
  omega

/-- `sleep` is right just if at each test up to the first one that is due, or to
the last one before that if it comes too late, the counter has wrapped as often
as the deadline. -/
theorem sleeps_iff (tick d : Uint) (events : List Event) :
    Sleeps tick d events ↔ ∀ e ∈ untilDue d.toNat (tests 0 events),
      e < d.toNat + 2 ^ 31 →
        (tick.toNat + e) / 2 ^ 32 = (tick.toNat + d.toNat) / 2 ^ 32 := by
  have hsearch := search_iff (tests_sorted 0 events)
    (fun e => ¬ tick + BitVec.ofNat 32 e < tick + d) d.toNat
    (d.toNat + 2 ^ 31) (Nat.le_add_right _ _)
  rw [← sleep_eq] at hsearch
  refine Iff.trans ?_ (hsearch.trans (forall₃_congr fun e _ he => ?_))
  · exact ⟨fun hs => ⟨hs.not_early, hs.in_time⟩, fun hs => ⟨hs.1, hs.2⟩⟩
  · rw [decide_eq_true_iff]
    exact below_deadline_iff tick d he

/-- One tick before the counter wraps, `sleep(1)` ends at its first test. -/
theorem sleep_wrapped : ¬ ∀ tick d events, Sleeps tick d events := by
  intro hall
  have hends : sleep 0xFFFFFFFF 1 [.test] = some 0 := by decide
  have helapsed := (hall 0xFFFFFFFF 1 [.test]).not_early 0 0 hends rfl
  exact absurd helapsed (by decide)

end Sleep

end OS32
