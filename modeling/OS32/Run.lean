import Mathlib.Tactic

/-!
# Runs of labelled transition systems

A system is a relation `Step s i t`: in the state `s` the input `i` may lead
to the state `t`.  `Run Step s inputs t` collects finite runs.  The rules below
reduce a property of all runs to one step.
-/

namespace Transition

variable {σ ι : Type*}

/-- A finite run from `s` which takes `inputs` in order and ends in `t`. -/
inductive Run (Step : σ → ι → σ → Prop) (s : σ) : List ι → σ → Prop
  | nil : Run Step s [] s
  | snoc {inputs : List ι} {t u : σ} {i : ι} :
      Run Step s inputs t → Step t i u → Run Step s (inputs ++ [i]) u

/-- A property that holds at the start and is kept by every step holds in the
last state of every run. -/
theorem Run.invariant {Step : σ → ι → σ → Prop} (Inv : σ → Prop)
    {s t : σ} {inputs : List ι}
    (hstep : ∀ s i t, Inv s → Step s i t → Inv t)
    (hrun : Run Step s inputs t) (hs : Inv s) : Inv t := by
  induction hrun with
  | nil => exact hs
  | snoc _ hlast ih => exact hstep _ _ _ ih hlast

theorem run_nil {Step : σ → ι → σ → Prop} {s t : σ}
    (hrun : Run Step s [] t) : t = s := by
  generalize hinputs : ([] : List ι) = inputs at hrun
  cases hrun with
  | nil => rfl
  | snoc => simp at hinputs

theorem run_snoc_iff {Step : σ → ι → σ → Prop} {s u : σ} {inputs : List ι}
    {i : ι} :
    Run Step s (inputs ++ [i]) u ↔ ∃ t, Run Step s inputs t ∧ Step t i u := by
  constructor
  · intro hrun
    generalize hall : inputs ++ [i] = all at hrun
    cases hrun with
    | nil => simp at hall
    | snoc hrun hlast =>
        obtain ⟨rfl, hi⟩ := List.append_inj' hall rfl
        obtain rfl := List.singleton_inj.mp hi
        exact ⟨_, hrun, hlast⟩
  · rintro ⟨t, hrun, hlast⟩
    exact .snoc hrun hlast

/-- The first part of a run is a run. -/
theorem Run.truncate {Step : σ → ι → σ → Prop} {s u : σ}
    {first inputs : List ι} (hrun : Run Step s inputs u)
    (hfirst : first <+: inputs) : ∃ t, Run Step s first t := by
  induction hrun with
  | nil =>
      obtain rfl := List.prefix_nil.mp hfirst
      exact ⟨s, .nil⟩
  | snoc hrun hlast ih =>
      rcases List.prefix_concat_iff.mp hfirst with rfl | hshort
      · exact ⟨_, .snoc hrun hlast⟩
      · exact ih hshort

/-- A system that leaves no choice has one run for each list of inputs. -/
theorem Run.unique {Step : σ → ι → σ → Prop} {s t u : σ} {inputs : List ι}
    (hstep : ∀ s i t u, Step s i t → Step s i u → t = u)
    (ht : Run Step s inputs t) (hu : Run Step s inputs u) : t = u := by
  induction ht generalizing u with
  | nil => exact (run_nil hu).symm
  | snoc _ hlast ih =>
      obtain ⟨v, hrun, hlast'⟩ := run_snoc_iff.mp hu
      obtain rfl := ih hrun
      exact hstep _ _ _ _ hlast hlast'

theorem Run.mono {Step Step' : σ → ι → σ → Prop} {s t : σ}
    {inputs : List ι} (hmono : ∀ s i t, Step s i t → Step' s i t)
    (hrun : Run Step s inputs t) : Run Step' s inputs t := by
  induction hrun with
  | nil => exact .nil
  | snoc _ hlast ih => exact .snoc ih (hmono _ _ _ hlast)

theorem Run.append {Step : σ → ι → σ → Prop} {s t u : σ}
    {first second : List ι} (hfirst : Run Step s first t)
    (hsecond : Run Step t second u) : Run Step s (first ++ second) u := by
  induction hsecond with
  | nil => simpa using hfirst
  | snoc _ hlast ih =>
      rw [← List.append_assoc]
      exact .snoc ih hlast

/-- A relation that every step can be followed along carries runs of one system
to runs of another. -/
theorem Run.simulate {ρ : Type*} {Step : σ → ι → σ → Prop}
    {Step' : ρ → ι → ρ → Prop} (Rel : σ → ρ → Prop)
    {s t : σ} {a : ρ} {inputs : List ι}
    (hstep : ∀ s a i t, Rel s a → Step s i t → ∃ b, Step' a i b ∧ Rel t b)
    (hrun : Run Step s inputs t) (hs : Rel s a) :
    ∃ b, Run Step' a inputs b ∧ Rel t b := by
  induction hrun with
  | nil => exact ⟨a, .nil, hs⟩
  | snoc _ hlast ih =>
      obtain ⟨b, hrun', hb⟩ := ih
      obtain ⟨c, hlast', hc⟩ := hstep _ _ _ _ hb hlast
      exact ⟨c, .snoc hrun' hlast', hc⟩

theorem Run.map {κ : Type*} {Step : σ → κ → σ → Prop} {s t : σ}
    {inputs : List ι} (f : ι → κ)
    (hrun : Run (fun s i t => Step s (f i) t) s inputs t) :
    Run Step s (inputs.map f) t := by
  induction hrun with
  | nil => exact .nil
  | snoc _ hlast ih =>
      rw [List.map_append]
      exact .snoc ih hlast

/-! ## Executing a run -/

/-- Feed `inputs` to an executable step function. -/
def exec (step : σ → ι → Option σ) : σ → List ι → Option σ
  | s, [] => some s
  | s, i :: inputs => (step s i).bind fun t => exec step t inputs

theorem Run.of_exec {Step : σ → ι → σ → Prop} {step : σ → ι → Option σ}
    (hstep : ∀ s i t, step s i = some t → Step s i t)
    {s t : σ} {inputs : List ι} (hexec : exec step s inputs = some t) :
    Run Step s inputs t := by
  induction inputs generalizing s with
  | nil =>
      obtain rfl : s = t := by simpa [exec] using hexec
      exact .nil
  | cons i inputs ih =>
      simp only [exec, Option.bind_eq_some_iff] at hexec
      obtain ⟨next, hnext, hrest⟩ := hexec
      have hone : Run Step s ([] ++ [i]) next :=
        .snoc .nil (hstep s i next hnext)
      simpa using hone.append (ih hrest)

end Transition
