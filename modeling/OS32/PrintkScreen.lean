import Mathlib.Data.List.TakeWhile
import OS32.SprintkText

/-!
# From the format to the screen

`printk` and `printk_color` format into `buf` and write `buf` to the console.
Whatever the formats, what a sequence of calls leaves on the screen is what an
ideal terminal shows to which the renderings were typed.
-/

namespace OS32

open Bytes KString

namespace Console

def rcBlack : Color := 0
def rcWhite : Color := 15

/-- The loop of `console_write_color` from `str[i]` on, ended after `fuel`
turns. -/
def writeFrom (str : ℕ → Uchar) (fontColor backColor : Color) :
    ℕ → ℕ → Screen → Except Fault Screen
  | 0, _, _ => .error .hang
  | fuel + 1, i, s =>
      if str i ≠ 0 then
        writeFrom str fontColor backColor fuel (i + 1)
          (consolePutcColor s (str i) fontColor backColor)
      else .ok s

def consoleWriteColor (str : ℕ → Uchar) (fontColor backColor : Color)
    (s : Screen) : Except Fault Screen :=
  writeFrom str fontColor backColor walkBound 0 s

def consoleWrite (str : ℕ → Uchar) (s : Screen) : Except Fault Screen :=
  consoleWriteColor str rcWhite rcBlack s

/-- The characters of a text, in one pair of colours. -/
def painted (fontColor backColor : Color) (t : List Uchar) : List Input :=
  t.map fun c => (c, fontColor, backColor)

theorem writeFrom_eq {str : ℕ → Uchar} {t : List Uchar}
    (ht : CString str t) (fontColor backColor : Color) {fuel i : ℕ}
    (hi : i ≤ t.length) (hfuel : t.length < i + fuel) (s : Screen) :
    writeFrom str fontColor backColor fuel i s =
      .ok (putAll s (painted fontColor backColor (t.drop i))) := by
  induction fuel generalizing i s with
  | zero => omega
  | succ fuel ih =>
      unfold writeFrom
      rcases Nat.eq_or_lt_of_le hi with rfl | hlt
      · rw [if_neg (not_not.mpr ht.nul), List.drop_length]
        rfl
      · rw [if_pos (ht.ne_zero hlt), ih hlt (by omega), ht.chars i hlt,
          List.drop_eq_getElem_cons hlt]
        rfl

theorem consoleWriteColor_eq {str : ℕ → Uchar} {t : List Uchar}
    (ht : CString str t) (hlength : t.length < walkBound)
    (fontColor backColor : Color) (s : Screen) :
    consoleWriteColor str fontColor backColor s =
      .ok (putAll s (painted fontColor backColor t)) := by
  rw [consoleWriteColor, writeFrom_eq ht fontColor backColor (Nat.zero_le _)
    (by omega), List.drop_zero]

theorem Terminal.putAll_append (t : Terminal) (first second : List Input) :
    t.putAll (first ++ second) = (t.putAll first).putAll second :=
  List.foldl_append

end Console

namespace Kstdio

open Console Sprintk

/-- `buf` and the console. -/
structure State where
  buf : ℕ → Uchar
  screen : Screen

/-- `printk(fmt,...)`; `tmp` is what `sprintk` finds on the stack. -/
def printk (env : Env) (tmp : Buffer) (s : State) : Except Fault State := do
  let done ← sprintk env walkBound s.buf tmp
  let screen ← consoleWrite done.buf.bytes s.screen
  return ⟨done.buf.bytes, screen⟩

/-- `printk_color(font_color,back_color,fmt,...)` -/
def printkColor (fontColor backColor : Color) (env : Env) (tmp : Buffer)
    (s : State) : Except Fault State := do
  let done ← sprintk env walkBound s.buf tmp
  let screen ← consoleWriteColor done.buf.bytes fontColor backColor s.screen
  return ⟨done.buf.bytes, screen⟩

inductive Call where
  | printk (env : Env) (tmp : Buffer)
  | printkColor (fontColor backColor : Color) (env : Env) (tmp : Buffer)

def call (s : State) : Call → Except Fault State
  | .printk env tmp => printk env tmp s
  | .printkColor fontColor backColor env tmp =>
      printkColor fontColor backColor env tmp s

/-- The text of a call with a format that ends no conversion early and a
rendering that fits the buffer: its characters up to the first `'\0'`, which a
`"%c"` can put there. -/
def Text (env : Env) (text : List Uchar) : Prop :=
  ∃ f ps ap, CString env.fmtAt f ∧ Rendered env f 0 ps ap ∧
    (output ps).length < 1024 ∧ text = (output ps).takeWhile (· ≠ 0)

def Call.Types : Call → List Input → Prop
  | .printk env _, input =>
      ∃ text, Text env text ∧ input = painted rcWhite rcBlack text
  | .printkColor fontColor backColor env _, input =>
      ∃ text, Text env text ∧ input = painted fontColor backColor text

/-! ## One call -/

/-- The entry after the longest part of a list that passes a test fails it. -/
theorem not_getElem_takeWhile {α : Type*} {p : α → Bool} {t : List α}
    (hlt : (t.takeWhile p).length < t.length) :
    ¬ p t[(t.takeWhile p).length] := by
  induction t with
  | nil => simp at hlt
  | cons c t ih =>
      by_cases hc : p c
      · simp only [List.takeWhile_cons_of_pos hc, List.length_cons] at hlt ⊢
        exact ih (Nat.lt_of_succ_lt_succ hlt)
      · simpa [List.takeWhile_cons_of_neg hc] using hc

/-- A list in front of a zero is a string up to its own first zero. -/
theorem cstring_takeWhile {m : ℕ → Uchar} {t : List Uchar}
    (hnul : m t.length = 0) :
    CString (overlay m 0 t) (t.takeWhile (· ≠ 0)) := by
  have hprefix : t.takeWhile (· ≠ 0) <+: t := List.takeWhile_prefix _
  have hlength := hprefix.length_le
  have hread : ∀ i (hi : i < t.length), overlay m 0 t i = t[i] := by
    intro i hi
    have hget := overlay_get m 0 hi
    rwa [Nat.zero_add] at hget
  refine ⟨fun i hi => ?_, fun hzero => ?_, ?_⟩
  · rw [hread i (hi.trans_le hlength), hprefix.getElem hi]
  · exact absurd (List.mem_takeWhile_imp hzero) (by decide)
  · rcases hlength.eq_or_lt with hall | hlt
    · rw [overlay_of_le m (by omega), hall]
      exact hnul
    · rw [hread _ hlt]
      simpa using not_getElem_takeWhile hlt

/-- `sprintk` leaves the text of the call in the buffer. -/
theorem Text.sprintk {env : Env} {text : List Uchar} (htext : Text env text)
    (old : ℕ → Uchar) (tmp : Buffer) :
    ∃ s, sprintk env walkBound old tmp = .ok s ∧ CString s.buf.bytes text ∧
      text.length < walkBound := by
  obtain ⟨f, ps, ap, hf, hr, htotal, rfl⟩ := htext
  obtain ⟨k, hk, hscan⟩ := hr.scans (p := 0) hf.nonzero fun i hi => by
    rw [Nat.zero_add]
    exact hf.chars i hi
  have hfits : Fits 1024 ([] : List Uchar).length ps :=
    fits_of_lt (by simpa using htotal)
  obtain ⟨s, hturns, hp, _, hfilled⟩ :=
    Scans.turns (s := start old tmp) hscan (start_clear old tmp) hfits
  have hend : env.fmtAt s.p = 0 := by
    rw [hp, Nat.zero_add]
    exact hf.nul
  have hbytes := hfilled.bytes
  rw [List.nil_append] at hbytes
  have hformat := string_length hf
  refine ⟨s, hturns.loop hend (by omega), ?_, ?_⟩
  · rw [hbytes]
    exact cstring_takeWhile (hfilled.clear _ htotal)
  · have hshort := (List.takeWhile_prefix (· ≠ 0) (l := output ps)).length_le
    have hbound : 1024 < walkBound := by decide
    omega

theorem Text.printkColor {env : Env} {text : List Uchar}
    (htext : Text env text) (fontColor backColor : Color) (tmp : Buffer)
    (s : State) : ∃ s', printkColor fontColor backColor env tmp s = .ok s' ∧
      s'.screen = putAll s.screen (painted fontColor backColor text) := by
  obtain ⟨done, hrun, hstring, hlength⟩ := htext.sprintk s.buf tmp
  refine ⟨⟨done.buf.bytes, _⟩, ?_, rfl⟩
  unfold Kstdio.printkColor
  rw [hrun]
  change (consoleWriteColor _ _ _ _).bind _ = _
  rw [consoleWriteColor_eq hstring hlength]
  rfl

/-- `printk` is `printk_color` in white on black. -/
theorem printk_eq (env : Env) (tmp : Buffer) (s : State) :
    printk env tmp s = printkColor rcWhite rcBlack env tmp s := rfl

theorem Call.Types.call {c : Call} {input : List Input} (hc : c.Types input)
    (s : State) : ∃ s', Kstdio.call s c = .ok s' ∧
      s'.screen = putAll s.screen input := by
  cases c with
  | printk env tmp =>
      obtain ⟨text, htext, rfl⟩ := hc
      simpa only [Kstdio.call, printk_eq] using
        htext.printkColor rcWhite rcBlack tmp s
  | printkColor fontColor backColor env tmp =>
      obtain ⟨text, htext, rfl⟩ := hc
      simpa only [Kstdio.call] using htext.printkColor fontColor backColor tmp s

/-! ## Any sequence of calls -/

/-- The screen stays a window on the terminal to which the texts are typed. -/
theorem calls_window {calls : List Call} {inputs : List (List Input)}
    (hcalls : List.Forall₂ Call.Types calls inputs) {s : State} {t : Terminal}
    (hs : Window s.screen t) :
    ∃ s', calls.foldlM call s = .ok s' ∧
      Window s'.screen (t.putAll inputs.flatten) := by
  induction hcalls generalizing s t with
  | nil => exact ⟨s, rfl, hs⟩
  | cons hc _ ih =>
      obtain ⟨next, hnext, hscreen⟩ := hc.call s
      obtain ⟨s', hrest, hwindow⟩ := ih (s := next) (hscreen ▸ hs.putAll _)
      refine ⟨s', ?_, ?_⟩
      · rw [List.foldlM_cons, hnext]
        exact hrest
      · rw [List.flatten_cons, Terminal.putAll_append]
        exact hwindow

/-- After `console_clear`, any sequence of calls whose renderings fit the buffer
returns and shows the last 25 rows of the ideal terminal to which the renderings
were typed one after the other, in their colours. -/
theorem printk_calls_show {calls : List Call} {inputs : List (List Input)}
    (hcalls : List.Forall₂ Call.Types calls inputs) (old : ℕ → Uchar)
    (s : Screen) :
    ∃ s', calls.foldlM call ⟨old, consoleClear { s with written := [] }⟩ =
        .ok s' ∧
      let terminal := Terminal.initial.putAll inputs.flatten
      (∀ i ∈ s'.screen.written, i < 2000) ∧
        (∀ y < 25, ∀ x < 80, s'.screen.textVideoMem (y * 80 + x) =
          terminal.cell (terminal.row - 24 + y) x) ∧
        s'.screen.cursorX.toNat = terminal.col ∧
        s'.screen.cursorY.toNat = terminal.row - (terminal.row - 24) := by
  obtain ⟨s', hrun, hwindow⟩ := calls_window hcalls
    (s := ⟨old, consoleClear { s with written := [] }⟩)
    (consoleClear_window { s with written := [] } (by simp))
  have hrow := hwindow.shows.row
  unfold Terminal.top at hrow
  exact ⟨s', hrun, hwindow.shows.bound, hwindow.shows.grid,
    hwindow.shows.column, by omega⟩

theorem assign_text : Text assignEnv [0x78, 0x3D, 0x2D, 0x35] := by
  have hname : CString (assignEnv.string 6) [0x78] :=
    ⟨by decide, by decide, by decide⟩
  have hfive : Numeral.Text Numeral.itoa 5 [0x35] :=
    (Numeral.Digits.last (by decide)).text (by decide) (by decide)
  exact ⟨_, _, _, assignEnv_format,
    .conversion (.s hname) (.literal (by decide)
      (.conversion (.negative (.inl rfl) (by decide) hfive) .nil)),
    by decide, by decide⟩

/-- The same line in white and, behind it, in red. -/
theorem printk_calls_show_assign :
    ∃ s', [Call.printk assignEnv ⟨fun _ => 0, []⟩,
        Call.printkColor 4 rcBlack assignEnv ⟨fun _ => 0, []⟩].foldlM call
        ⟨fun _ => 0x58, consoleClear ⟨fun _ => 0, 0, 0, [], []⟩⟩ = .ok s' ∧
      s'.screen.textVideoMem 7 = 0x0435 ∧ s'.screen.cursorX.toNat = 8 := by
  have htypes : List.Forall₂ Call.Types
      [Call.printk assignEnv ⟨fun _ => 0, []⟩,
        Call.printkColor 4 rcBlack assignEnv ⟨fun _ => 0, []⟩]
      [painted rcWhite rcBlack [0x78, 0x3D, 0x2D, 0x35],
        painted 4 rcBlack [0x78, 0x3D, 0x2D, 0x35]] :=
    .cons ⟨_, assign_text, rfl⟩ (.cons ⟨_, assign_text, rfl⟩ .nil)
  obtain ⟨s', hrun, _, hgrid, hcol, _⟩ := printk_calls_show htypes
    (fun _ => 0x58) ⟨fun _ => 0, 0, 0, [], []⟩
  refine ⟨s', hrun, ?_, hcol.trans (by decide)⟩
  have hcell := hgrid 0 (by decide) 7 (by decide)
  exact hcell.trans (by decide)

end Kstdio

end OS32
