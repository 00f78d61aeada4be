import Mathlib.Tactic

/-!
# Logs of requests to a store

A log lists requests in the order in which they were made.  `last` finds the
last one of a kind, `replay` is the store after all of them.  What the store
holds in a cell is what the last request that writes there put into it.
-/

namespace WriteLog

variable {ρ σ α : Type*}

/-- The last request with the property `p`. -/
def last (p : ρ → Bool) (log : List ρ) : Option ρ := log.reverse.find? p

@[simp] theorem last_nil (p : ρ → Bool) : last p [] = none := rfl

@[simp] theorem last_concat (p : ρ → Bool) (log : List ρ) (r : ρ) :
    last p (log ++ [r]) = if p r then some r else last p log := by
  unfold last
  rw [List.reverse_append, List.reverse_singleton, List.singleton_append,
    List.find?_cons]
  cases p r <;> rfl

theorem prop_of_last {p : ρ → Bool} {log : List ρ} {r : ρ}
    (hlast : last p log = some r) : p r = true :=
  List.find?_some hlast

/-- The last request of two kinds is the same one if each is of both kinds. -/
theorem last_unique {p q : ρ → Bool} {log : List ρ} {r s : ρ}
    (hr : last p log = some r) (hs : last q log = some s) (hq : q r = true)
    (hp : p s = true) : r = s := by
  induction log using List.reverseRecOn with
  | nil => cases hr
  | append_singleton log t ih =>
      rw [last_concat] at hr hs
      by_cases hpt : p t = true
      · rw [if_pos hpt] at hr
        obtain rfl := Option.some.inj hr
        rw [if_pos hq] at hs
        exact Option.some.inj hs
      · rw [if_neg hpt] at hr
        by_cases hqt : q t = true
        · rw [if_pos hqt] at hs
          obtain rfl := Option.some.inj hs
          exact absurd hp hpt
        · rw [if_neg hqt] at hs
          exact ih hr hs

theorem last_map {τ : Type*} (f : τ → ρ) (p : ρ → Bool) (log : List τ) :
    last p (log.map f) = (last (fun t => p (f t)) log).map f := by
  unfold last
  rw [← List.map_reverse, List.find?_map]
  rfl

theorem last_congr {p q : ρ → Bool} {log : List ρ}
    (hsame : ∀ r ∈ log, p r = q r) : last p log = last q log := by
  unfold last
  apply List.find?_congr
  intro r hr
  exact hsame r (List.mem_reverse.mp hr)

/-- The store after the requests of the log; `effect r x` is what `r` puts into
the cell `x`, if it writes there. -/
def replay (effect : ρ → σ → Option α) (store : σ → α) (log : List ρ) :
    σ → α :=
  log.foldl (fun store r x => (effect r x).getD (store x)) store

theorem replay_concat (effect : ρ → σ → Option α) (store : σ → α)
    (log : List ρ) (r : ρ) (x : σ) :
    replay effect store (log ++ [r]) x =
      (effect r x).getD (replay effect store log x) := by
  rw [replay, List.foldl_append]
  rfl

/-- A cell holds what the last request that writes there put into it. -/
theorem replay_of_last {effect : ρ → σ → Option α} {store : σ → α}
    {log : List ρ} {x : σ} {r : ρ} {v : α}
    (hlast : last (fun r => (effect r x).isSome) log = some r)
    (hr : effect r x = some v) : replay effect store log x = v := by
  induction log using List.reverseRecOn with
  | nil => cases hlast
  | append_singleton log s ih =>
      rw [last_concat] at hlast
      rw [replay_concat]
      by_cases hs : (effect s x).isSome = true
      · rw [if_pos hs] at hlast
        obtain rfl := Option.some.inj hlast
        rw [hr, Option.getD_some]
      · rw [if_neg hs] at hlast
        rw [Option.not_isSome_iff_eq_none.mp hs, Option.getD_none]
        exact ih hlast

end WriteLog
