import OS32.Basic

/-!
# Interrupt-disable sections

`local_intr_save` is `cli` and `local_intr_restore` is `sti`.  A section thus
ends with interrupts enabled whatever they were before it, and exactly the
sequences of sections that do not nest, started with interrupts enabled, find
the flag again as it was.
-/

namespace OS32
namespace Intr

inductive Call where
  | save
  | restore
  deriving DecidableEq

/-- `local_intr_save`, on the interrupt flag. -/
def localIntrSave (_ : Bool) : Bool := false

def localIntrRestore (_ : Bool) : Bool := true

def call (flag : Bool) : Call → Bool
  | .save => localIntrSave flag
  | .restore => localIntrRestore flag

/-- The interrupt flag after a sequence of calls. -/
def flagAfter (flag : Bool) (calls : List Call) : Bool := calls.foldl call flag

/-- Properly nested sequences of calls. -/
inductive Nested : List Call → Prop
  | nil : Nested []
  | bracket {body rest : List Call} :
      Nested body → Nested rest → Nested (.save :: body ++ .restore :: rest)

/-- After each restore the flag is what it was just before the matching
save. -/
def Restores (flag : Bool) (calls : List Call) : Prop :=
  ∀ before body after,
    calls = before ++ (.save :: body ++ .restore :: after) → Nested body →
      flagAfter flag (before ++ (.save :: body ++ [.restore])) =
        flagAfter flag before

/-- `n` sections one after the other. -/
def sections (n : ℕ) : List Call :=
  (List.replicate n [Call.save, Call.restore]).flatten

@[simp] theorem flagAfter_append (flag : Bool) (first second : List Call) :
    flagAfter flag (first ++ second) =
      flagAfter (flagAfter flag first) second := by
  simp [flagAfter]

@[simp] theorem flagAfter_save (flag : Bool) (calls : List Call) :
    flagAfter flag (.save :: calls) = flagAfter false calls := rfl

@[simp] theorem flagAfter_restore (flag : Bool) (calls : List Call) :
    flagAfter flag (.restore :: calls) = flagAfter true calls := rfl

theorem sections_succ (n : ℕ) :
    sections (n + 1) = .save :: .restore :: sections n := by
  simp [sections, List.replicate_succ]

/-- The flag after a restore is set, so only the flag before the save
matters. -/
theorem restores_iff {flag : Bool} {calls : List Call} :
    Restores flag calls ↔
      ∀ before body after,
        calls = before ++ (.save :: body ++ .restore :: after) →
          Nested body → flagAfter flag before = true := by
  have hafter : ∀ before body : List Call,
      flagAfter flag (before ++ (.save :: body ++ [.restore])) = true := by
    intro before body
    rw [flagAfter_append, flagAfter_append]
    rfl
  unfold Restores
  constructor
  · intro h before body after hsplit hbody
    rw [← h before body after hsplit hbody, hafter]
  · intro h before body after hsplit hbody
    rw [h before body after hsplit hbody, hafter]

/-- Before every save of sections that do not nest the flag is set. -/
theorem flag_before_save {n : ℕ} {before after : List Call}
    (hsplit : sections n = before ++ .save :: after) :
    flagAfter true before = true := by
  induction n generalizing before with
  | zero => simp [sections] at hsplit
  | succ n ih =>
      rw [sections_succ] at hsplit
      match before, hsplit with
      | [], _ => rfl
      | [c], h => simp at h
      | c :: d :: before, h =>
          simp only [List.cons_append, List.cons.injEq] at h
          obtain ⟨rfl, rfl, hrest⟩ := h
          rw [flagAfter_save, flagAfter_restore]
          exact ih hrest

/-- Nested calls that all restore the flag are sections in a row. -/
theorem Nested.sections_of_restores {calls : List Call} (hcalls : Nested calls)
    {flag : Bool} (hrestores : Restores flag calls) :
    ∃ n, calls = sections n ∧ (n = 0 ∨ flag = true) := by
  induction hcalls generalizing flag with
  | nil => exact ⟨0, rfl, Or.inl rfl⟩
  | @bracket body rest hbody hrest _ ih =>
      rw [restores_iff] at hrestores
      have hflag : flag = true := hrestores [] body rest rfl hbody
      have hempty : body = [] := by
        cases hbody with
        | nil => rfl
        | @bracket inner tail hinner _ =>
            -- the inner save comes right after a save, which cleared the flag
            have hinside := hrestores [.save] inner (tail ++ .restore :: rest)
              (by simp) hinner
            cases hinside
      subst hempty
      have hlater : Restores true rest := by
        rw [restores_iff]
        intro before inner after hsplit hinner
        refine hrestores (.save :: .restore :: before) inner after ?_ hinner
        simp [hsplit]
      obtain ⟨n, rfl, _⟩ := ih hlater
      exact ⟨n + 1, (sections_succ n).symm, Or.inr hflag⟩

/-- Properly nested sections all give the flag back exactly when they do not
nest in one another and, if there are any, the flag is set at the start. -/
theorem nested_restores_iff {calls : List Call} (hcalls : Nested calls)
    (flag : Bool) :
    Restores flag calls ↔
      ∃ n, calls = sections n ∧ (n = 0 ∨ flag = true) := by
  constructor
  · exact hcalls.sections_of_restores
  · rintro ⟨n, rfl, hstart⟩
    rw [restores_iff]
    intro before body after hsplit _
    rcases hstart with rfl | rfl
    · simp [sections] at hsplit
    · exact flag_before_save hsplit

/-- Two sections in a row, as two calls of `thread_unblock` make them. -/
theorem two_sections_restore : Restores true (sections 2) :=
  (nested_restores_iff (.bracket .nil (.bracket .nil .nil)) true).mpr
    ⟨2, rfl, Or.inr rfl⟩

/-- `sema_up` calls `thread_unblock` inside its own section: the inner restore
enables interrupts in the middle of the outer section. -/
theorem sema_up_section :
    Nested [.save, .save, .restore, .restore] ∧
      flagAfter true [.save] = false ∧
      flagAfter true [.save, .save, .restore] = true ∧
      ¬ Restores true [.save, .save, .restore, .restore] := by
  have hnested : Nested [.save, .save, .restore, .restore] :=
    .bracket (.bracket .nil .nil) .nil
  refine ⟨hnested, rfl, rfl, ?_⟩
  intro hrestores
  have hinner := hrestores [.save] [] [.restore] rfl .nil
  cases hinner

end Intr
end OS32
