import OS32.Basic
import OS32.Run

/-!
# `printk` and its buffer

`printk` formats into one static buffer and then writes the buffer to the
console under the console lock.  The lock covers the second step only, so the
text of a call is safe exactly as long as no other call formats between the two
steps of this one.
-/

namespace OS32

open Transition

namespace Printk

variable {τ : Type*} [DecidableEq τ] {α : Type*}

/-- Where a thread stands in `printk`; `text` is what `sprintk` made of the
arguments of its call. -/
inductive Pc (α : Type*) where
  | idle
  /-- `sprintk` has returned, `console_write` has not taken the lock. -/
  | formatted (text : List α)
  /-- In the loop of `console_write`, after the characters `out`. -/
  | writing (text out : List α)

/-- `buf` as a C string, the console with its lock, and what was called and
written so far. -/
structure State (τ α : Type*) where
  buf : List α
  holder : Option τ
  pc : τ → Pc α
  screen : List α
  calls : List (τ × List α)
  writes : List (τ × List α)

def State.initial : State τ α := ⟨[], none, fun _ => .idle, [], [], []⟩

/-- One step of a thread. -/
inductive Act (τ α : Type*) where
  /-- `sprintk(fmt,ap)` -/
  | format (t : τ) (text : List α)
  /-- `console_require()` -/
  | require (t : τ)
  /-- One turn of the loop of `console_write`, or its end. -/
  | putc (t : τ)

/-- `none` where the thread is not at this step, or has to wait. -/
def next (s : State τ α) : Act τ α → Option (State τ α)
  | .format t text =>
      match s.pc t with
      | .idle =>
          some { s with
            buf := text
            pc := Function.update s.pc t (.formatted text)
            calls := s.calls ++ [(t, text)] }
      | _ => none
  | .require t =>
      match s.pc t, s.holder with
      | .formatted text, none =>
          some { s with
            holder := some t
            pc := Function.update s.pc t (.writing text []) }
      | _, _ => none
  | .putc t =>
      match s.pc t with
      | .writing text out =>
          match s.buf[out.length]? with
          | some c =>
              some { s with
                pc := Function.update s.pc t (.writing text (out ++ [c]))
                screen := s.screen ++ [c] }
          | none =>
              some { s with
                holder := none
                pc := Function.update s.pc t .idle
                writes := s.writes ++ [(t, out)] }
      | _ => none

/-- The text of the call a thread is in. -/
def Pc.pending : Pc α → Option (List α)
  | .idle => none
  | .formatted text => some text
  | .writing text _ => some text

/-- What the thread in `console_write` has put on the screen so far. -/
def State.emitted (s : State τ α) : List α :=
  match s.holder.map s.pc with
  | some (.writing _ out) => out
  | _ => []

/-- The texts of the calls, or the strings written, of one thread. -/
def textsOf (t : τ) (log : List (τ × List α)) : List (List α) :=
  (log.filter fun entry => entry.1 = t).map Prod.snd

/-- Each thread has written the texts of its calls, in order and once each, up
to the call it is in; and the screen shows the strings written one after the
other. -/
def Unmixed (s : State τ α) : Prop :=
  (∀ t, textsOf t s.calls =
    textsOf t s.writes ++ (s.pc t).pending.toList) ∧
  s.screen = (s.writes.map Prod.snd).flatten ++ s.emitted

/-- A call formats only while no other call is between its two steps with a
different text. -/
def Alone (s : State τ α) : Act τ α → Prop
  | .format t text => ∀ u, u ≠ t → ∀ other ∈ (s.pc u).pending, other = text
  | _ => True

/-! ## The invariant -/

/-- All calls in progress see their text in the buffer, and only the holder of
the lock writes. -/
structure Inv (s : State τ α) : Prop where
  buffered : ∀ t, ∀ text ∈ (s.pc t).pending, s.buf = text
  copied : ∀ t text out, s.pc t = .writing text out → out <+: text
  holder : ∀ t text out, s.pc t = .writing text out → s.holder = some t
  writing : ∀ t, s.holder = some t → ∃ text out, s.pc t = .writing text out
  texts : ∀ t, textsOf t s.calls =
    textsOf t s.writes ++ (s.pc t).pending.toList
  shown : s.screen = (s.writes.map Prod.snd).flatten ++ s.emitted

variable {s s' : State τ α}

theorem Inv.unmixed (hs : Inv s) : Unmixed s := ⟨hs.texts, hs.shown⟩

theorem initial_inv : Inv (State.initial (τ := τ) (α := α)) := by
  constructor <;> simp [State.initial, Pc.pending, textsOf, State.emitted]

theorem textsOf_concat (t u : τ) (log : List (τ × List α)) (text : List α) :
    textsOf t (log ++ [(u, text)]) =
      textsOf t log ++ (if u = t then [text] else []) := by
  by_cases hut : u = t <;> simp [textsOf, hut]

theorem Inv.emitted_of_writing (hs : Inv s) {t : τ} {text out : List α}
    (hpc : s.pc t = .writing text out) : s.emitted = out := by
  simp [State.emitted, hs.holder t text out hpc, hpc]

/-- A thread that does not write moves nothing on the screen. -/
theorem emitted_update_pc {t : τ} (ht : s.holder ≠ some t) (pc : Pc α)
    (buf : List α) (calls : List (τ × List α)) :
    State.emitted { s with
      buf := buf, pc := Function.update s.pc t pc, calls := calls } =
      s.emitted := by
  cases hholder : s.holder with
  | none => simp [State.emitted, hholder]
  | some u =>
      have hut : u ≠ t := fun heq => ht (by rw [hholder, heq])
      simp [State.emitted, hholder, Function.update_of_ne hut]

theorem Inv.not_holder (hs : Inv s) {t : τ}
    (ht : ∀ text out, s.pc t ≠ .writing text out) : s.holder ≠ some t := by
  intro hholder
  obtain ⟨text, out, hpc⟩ := hs.writing t hholder
  exact ht text out hpc

theorem Inv.afterFormat (hs : Inv s) {t : τ} {text : List α}
    (hidle : s.pc t = .idle)
    (halone : ∀ u, u ≠ t → ∀ other ∈ (s.pc u).pending, other = text) :
    Inv { s with
      buf := text
      pc := Function.update s.pc t (.formatted text)
      calls := s.calls ++ [(t, text)] } := by
  have hfree : s.holder ≠ some t := hs.not_holder (by simp [hidle])
  constructor
  · intro u other hother
    by_cases hut : u = t
    · subst hut
      simpa [Pc.pending] using hother
    · simp only [Function.update_of_ne hut] at hother
      exact (halone u hut other hother).symm
  · intro u other out hpc
    by_cases hut : u = t
    · subst hut
      simp at hpc
    · simp only [Function.update_of_ne hut] at hpc
      exact hs.copied u other out hpc
  · intro u other out hpc
    by_cases hut : u = t
    · subst hut
      simp at hpc
    · simp only [Function.update_of_ne hut] at hpc
      exact hs.holder u other out hpc
  · intro u hu
    have hut : u ≠ t := fun heq => hfree (heq ▸ hu)
    simpa [Function.update_of_ne hut] using hs.writing u hu
  · intro u
    rw [textsOf_concat]
    by_cases hut : u = t
    · subst hut
      simp [hs.texts u, hidle, Pc.pending]
    · simp [hs.texts u, Function.update_of_ne hut, Ne.symm hut]
  · rw [emitted_update_pc hfree]
    exact hs.shown

/-- A step within a call keeps the text of the call. -/
theorem pending_update {t : τ} {pc : Pc α} (hsame : pc.pending = (s.pc t).pending)
    (u : τ) : (Function.update s.pc t pc u).pending = (s.pc u).pending := by
  by_cases hut : u = t
  · subst hut
    rw [Function.update_self, hsame]
  · rw [Function.update_of_ne hut]

theorem Inv.afterRequire (hs : Inv s) {t : τ} {text : List α}
    (hpc : s.pc t = .formatted text) (hfree : s.holder = none) :
    Inv { s with
      holder := some t
      pc := Function.update s.pc t (.writing text []) } := by
  have hnone : ∀ u other out, s.pc u ≠ .writing other out := by
    intro u other out hu
    rw [hs.holder u other out hu] at hfree
    contradiction
  have hsame : (Pc.writing text []).pending = (s.pc t).pending := by
    rw [hpc]
    rfl
  constructor
  · intro u other hother
    rw [pending_update hsame] at hother
    exact hs.buffered u other hother
  · intro u other out hu
    by_cases hut : u = t
    · subst hut
      obtain ⟨rfl, rfl⟩ : text = other ∧ [] = out := by simpa using hu
      exact List.nil_prefix
    · simp only [Function.update_of_ne hut] at hu
      exact absurd hu (hnone u other out)
  · intro u other out hu
    by_cases hut : u = t
    · rw [hut]
    · simp only [Function.update_of_ne hut] at hu
      exact absurd hu (hnone u other out)
  · intro u hu
    obtain rfl : t = u := by simpa using hu
    exact ⟨text, [], by simp⟩
  · intro u
    rw [pending_update hsame]
    exact hs.texts u
  · simpa [State.emitted, hfree] using hs.shown

theorem Inv.afterChar (hs : Inv s) {t : τ} {text out : List α} {c : α}
    (hpc : s.pc t = .writing text out) (hc : s.buf[out.length]? = some c) :
    Inv { s with
      pc := Function.update s.pc t (.writing text (out ++ [c]))
      screen := s.screen ++ [c] } := by
  have hbuf : s.buf = text := hs.buffered t text (by simp [hpc, Pc.pending])
  have hholder : s.holder = some t := hs.holder t text out hpc
  have hsame : (Pc.writing text (out ++ [c])).pending = (s.pc t).pending := by
    rw [hpc]
    rfl
  constructor
  · intro u other hother
    rw [pending_update hsame] at hother
    exact hs.buffered u other hother
  · intro u other out' hu
    by_cases hut : u = t
    · subst hut
      obtain ⟨rfl, rfl⟩ : text = other ∧ out ++ [c] = out' := by
        simpa using hu
      obtain ⟨rest, rfl⟩ := hs.copied u text out hpc
      obtain ⟨d, rest', rfl⟩ : ∃ d rest', rest = d :: rest' := by
        rw [hbuf] at hc
        cases rest with
        | nil => simp at hc
        | cons d rest' => exact ⟨d, rest', rfl⟩
      obtain rfl : d = c := by simpa [hbuf] using hc
      exact ⟨rest', by simp⟩
    · simp only [Function.update_of_ne hut] at hu
      exact hs.copied u other out' hu
  · intro u other out' hu
    by_cases hut : u = t
    · rw [hut]
      exact hholder
    · simp only [Function.update_of_ne hut] at hu
      exact hs.holder u other out' hu
  · intro u hu
    obtain rfl : u = t := by simpa [hholder] using hu.symm
    exact ⟨text, out ++ [c], by simp⟩
  · intro u
    rw [pending_update hsame]
    exact hs.texts u
  · have hemitted : s.emitted = out := hs.emitted_of_writing hpc
    rw [hs.shown, hemitted]
    simp [State.emitted, hholder]

theorem Inv.afterEnd (hs : Inv s) {t : τ} {text out : List α}
    (hpc : s.pc t = .writing text out) (hc : s.buf[out.length]? = none) :
    Inv { s with
      holder := none
      pc := Function.update s.pc t .idle
      writes := s.writes ++ [(t, out)] } := by
  have hbuf : s.buf = text := hs.buffered t text (by simp [hpc, Pc.pending])
  have hout : out = text := by
    have hprefix : out <+: text := hs.copied t text out hpc
    have hlength : text.length ≤ out.length := by simpa [hbuf] using hc
    exact hprefix.eq_of_length (le_antisymm hprefix.length_le hlength)
  have hother : ∀ u, u ≠ t → ∀ text' out', s.pc u ≠ .writing text' out' := by
    intro u hut text' out' hu
    have heq := hs.holder u text' out' hu
    rw [hs.holder t text out hpc] at heq
    exact hut (Option.some.inj heq).symm
  constructor
  · intro u other hu
    by_cases hut : u = t
    · subst hut
      simp [Pc.pending] at hu
    · simp only [Function.update_of_ne hut] at hu
      exact hs.buffered u other hu
  · intro u text' out' hu
    by_cases hut : u = t
    · subst hut
      simp at hu
    · simp only [Function.update_of_ne hut] at hu
      exact absurd hu (hother u hut text' out')
  · intro u text' out' hu
    by_cases hut : u = t
    · subst hut
      simp at hu
    · simp only [Function.update_of_ne hut] at hu
      exact absurd hu (hother u hut text' out')
  · intro u hu
    simp at hu
  · intro u
    rw [textsOf_concat]
    by_cases hut : u = t
    · subst hut
      simp [hs.texts u, hpc, Pc.pending, hout]
    · simp [hs.texts u, Function.update_of_ne hut, Ne.symm hut]
  · have hemitted : s.emitted = out := hs.emitted_of_writing hpc
    rw [hs.shown, hemitted]
    simp [State.emitted]

theorem Inv.afterStep (hs : Inv s) {a : Act τ α} (hnext : next s a = some s')
    (halone : Alone s a) : Inv s' := by
  cases a with
  | format t text =>
      cases hpc : s.pc t with
      | idle =>
          simp only [next, hpc, Option.some.injEq] at hnext
          exact hnext ▸ hs.afterFormat hpc halone
      | formatted other => simp [next, hpc] at hnext
      | writing other out => simp [next, hpc] at hnext
  | require t =>
      cases hpc : s.pc t with
      | idle => simp [next, hpc] at hnext
      | formatted text =>
          cases hholder : s.holder with
          | none =>
              simp only [next, hpc, hholder, Option.some.injEq] at hnext
              exact hnext ▸ hs.afterRequire hpc hholder
          | some u => simp [next, hpc, hholder] at hnext
      | writing text out => simp [next, hpc] at hnext
  | putc t =>
      cases hpc : s.pc t with
      | idle => simp [next, hpc] at hnext
      | formatted text => simp [next, hpc] at hnext
      | writing text out =>
          cases hc : s.buf[out.length]? with
          | some c =>
              simp only [next, hpc, hc, Option.some.injEq] at hnext
              exact hnext ▸ hs.afterChar hpc hc
          | none =>
              simp only [next, hpc, hc, Option.some.injEq] at hnext
              exact hnext ▸ hs.afterEnd hpc hc

/-! ## All runs -/

/-- As long as nobody formats over the text of another call, all output is
the text of the calls. -/
theorem printk_unmixed {acts : List (Act τ α)} {s : State τ α}
    (hrun : Run (fun s a s' => next s a = some s' ∧ Alone s a)
      .initial acts s) : Unmixed s :=
  (hrun.invariant Inv (fun _ _ _ hs hstep => hs.afterStep hstep.1 hstep.2)
    initial_inv).unmixed

instance (s : State τ α) [DecidableEq α] (a : Act τ α) [Fintype τ] :
    Decidable (Alone s a) := by
  cases a <;> unfold Alone <;> infer_instance

/-- `next`, for the calls `printk_unmixed` allows. -/
def nextAlone [Fintype τ] [DecidableEq α] (s : State τ α) (a : Act τ α) :
    Option (State τ α) :=
  if Alone s a then next s a else none

theorem step_of_nextAlone [Fintype τ] [DecidableEq α] (s : State τ α)
    (a : Act τ α) (s' : State τ α) (hnext : nextAlone s a = some s') :
    next s a = some s' ∧ Alone s a := by
  unfold nextAlone at hnext
  split_ifs at hnext with halone
  exact ⟨hnext, halone⟩

/-- Two threads print one after the other. -/
theorem printk_unmixed_two_calls :
    ∃ s, Run (fun s a s' => next s a = some s' ∧ Alone s a)
      (State.initial (τ := Bool))
      [.format true ['A'], .require true, .putc true, .putc true,
        .format false ['B'], .require false, .putc false, .putc false] s ∧
      s.screen = ['A', 'B'] ∧ Unmixed s := by
  obtain ⟨s, hexec, hscreen⟩ : ∃ s,
      exec nextAlone (State.initial (τ := Bool))
        [.format true ['A'], .require true, .putc true, .putc true,
          .format false ['B'], .require false, .putc false, .putc false] =
        some s ∧ s.screen = ['A', 'B'] := ⟨_, rfl, rfl⟩
  have hrun := Run.of_exec step_of_nextAlone hexec
  exact ⟨s, hrun, hscreen, printk_unmixed hrun⟩

/-- A thread switch between `sprintk` and `console_write`: the first thread
prints the text of the second. -/
theorem printk_overwritten :
    ¬ ∀ (acts : List (Act Bool Char)) s,
      Run (fun s a s' => next s a = some s') .initial acts s → Unmixed s := by
  intro hall
  obtain ⟨s, hexec, hwrites⟩ : ∃ s, exec next (State.initial (τ := Bool))
      [.format true ['A'], .format false ['B'], .require true, .putc true,
        .putc true] = some s ∧ s.writes = [(true, ['B'])] ∧
        s.calls = [(true, ['A']), (false, ['B'])] := ⟨_, rfl, rfl, rfl⟩
  have hmixed := (hall _ s (Run.of_exec (fun _ _ _ h => h) hexec)).1 true
  rw [hwrites.1, hwrites.2] at hmixed
  simp [textsOf] at hmixed

end Printk
end OS32
