import OS32.Basic

/-!
# The console as a window on an unbounded terminal

`console.c` keeps 25 rows of text in video memory and moves them up when the
cursor leaves the last one.  An ideal terminal has a row for every line ever
begun and never scrolls; the console always shows its last 25 rows.
-/

namespace OS32
namespace Console

abbrev Uchar := BitVec 8
abbrev Ushort := BitVec 16
/-- `Color_t`, an enum that is passed as a word. -/
abbrev Color := Uint

/-- The text memory, the cursor, the bytes sent to ports by `outb`, and the
indices of `text_video_mem` written so far. -/
structure Screen where
  textVideoMem : ℕ → Ushort
  cursorX : Uchar
  cursorY : Uchar
  ports : List (Ushort × Uchar)
  written : List ℕ

namespace Screen

/-- `text_video_mem[i] = cell;` -/
def write (s : Screen) (i : ℕ) (cell : Ushort) : Screen :=
  { s with
    textVideoMem := Function.update s.textVideoMem i cell
    written := s.written ++ [i] }

def outb (s : Screen) (port : Ushort) (value : Uchar) : Screen :=
  { s with ports := s.ports ++ [(port, value)] }

end Screen

def moveCursor (s : Screen) : Screen :=
  let cursorLoc : Ushort :=
    s.cursorY.setWidth 16 * 80 + s.cursorX.setWidth 16
  (((s.outb 0x3D4 14).outb 0x3D5 ((cursorLoc >>> 8).setWidth 8)).outb 0x3D5
    15).outb 0x3D5 ((cursorLoc &&& 0xFF).setWidth 8)

def attributeByte (backColor foreColor : Uchar) : Uchar :=
  backColor <<< 4 ||| foreColor &&& 0x0F

/-- A space, white on black. -/
def blank : Ushort := 0x20 ||| (attributeByte 0 15).setWidth 16 <<< 8

/-- `for (i = start; i < start + n; i++) text_video_mem[i] = blank;` -/
def fillBlank (start n : ℕ) (s : Screen) : Screen :=
  (List.range' start n).foldl (fun s i => s.write i blank) s

def scroll (s : Screen) : Screen :=
  if 25 ≤ s.cursorY then
    let s := (List.range (24 * 80)).foldl
      (fun s i => s.write i (s.textVideoMem (i + 80))) s
    { fillBlank (24 * 80) 80 s with cursorY := 24 }
  else s

def consoleClear (s : Screen) : Screen :=
  let s := fillBlank 0 (80 * 25) s
  moveCursor { s with cursorX := 0, cursorY := 0 }

/-- What a printable character leaves in its cell. -/
def cellOf (c : Uchar) (fontColor backcolor : Color) : Ushort :=
  c.signExtend 16 |||
    (attributeByte (backcolor.setWidth 8) (fontColor.setWidth 8)).setWidth 16
      <<< 8

/-- The tests on the character.  `char` is signed, so bytes above 127 are not
`>= ' '`. -/
def putChar (s : Screen) (c : Uchar) (fontColor backcolor : Color) : Screen :=
  if c = 0x08 ∧ s.cursorX ≠ 0 then { s with cursorX := s.cursorX - 1 }
  else if c = 0x09 then { s with cursorX := (s.cursorX + 8) &&& ~~~(8 - 1) }
  else if c = 0x0D then { s with cursorX := 0 }
  else if c = 0x0A then { s with cursorX := 0, cursorY := s.cursorY + 1 }
  else if 32 ≤ c.toInt then
    let s := s.write (s.cursorY.toNat * 80 + s.cursorX.toNat)
      (cellOf c fontColor backcolor)
    { s with cursorX := s.cursorX + 1 }
  else s

/-- "change line". -/
def changeLine (s : Screen) : Screen :=
  if 80 ≤ s.cursorX then
    { s with cursorX := 0, cursorY := s.cursorY + 1 }
  else s

def consolePutcColor (s : Screen) (c : Uchar) (fontColor backcolor : Color) :
    Screen :=
  moveCursor (scroll (changeLine (putChar s c fontColor backcolor)))

/-! ## The ideal terminal -/

/-- Rows without end, all of 80 columns, and the place of the cursor. -/
structure Terminal where
  cell : ℕ → ℕ → Ushort
  row : ℕ
  col : ℕ

namespace Terminal

def initial : Terminal := ⟨fun _ _ => blank, 0, 0⟩

def place (t : Terminal) (value : Ushort) : Terminal :=
  { t with
    cell := Function.update t.cell t.row
      (Function.update (t.cell t.row) t.col value)
    col := t.col + 1 }

/-- Backspace, tab stops of 8, carriage return, newline and printable
characters. -/
def type (t : Terminal) (c : Uchar) (value : Ushort) : Terminal :=
  if c = 0x08 then { t with col := t.col - 1 }
  else if c = 0x09 then { t with col := (t.col / 8 + 1) * 8 }
  else if c = 0x0D then { t with col := 0 }
  else if c = 0x0A then { t with col := 0, row := t.row + 1 }
  else if 32 ≤ c.toInt then t.place value
  else t

/-- The end of a row leads to the next one. -/
def wrap (t : Terminal) : Terminal :=
  if 80 ≤ t.col then { t with col := 0, row := t.row + 1 } else t

def putc (t : Terminal) (c : Uchar) (value : Ushort) : Terminal :=
  (t.type c value).wrap

end Terminal

/-! ## Loops over the text memory -/

section Loops

variable (s : Screen)

theorem fillBlank_succ (start n : ℕ) :
    fillBlank start (n + 1) s =
      (fillBlank start n s).write (start + n) blank := by
  simp [fillBlank, List.range'_1_concat]

theorem fillBlank_mem (start n i : ℕ) :
    (fillBlank start n s).textVideoMem i =
      if start ≤ i ∧ i < start + n then blank else s.textVideoMem i := by
  induction n with
  | zero => simp [fillBlank]
  | succ n ih =>
      rw [fillBlank_succ]
      by_cases hi : i = start + n
      · subst hi
        simp [Screen.write]
      · have hiff : (start ≤ i ∧ i < start + (n + 1)) ↔
            start ≤ i ∧ i < start + n := by omega
        simp only [Screen.write, Function.update_of_ne hi, ih, hiff]

theorem fillBlank_written (start n i : ℕ) :
    i ∈ (fillBlank start n s).written ↔
      i ∈ s.written ∨ start ≤ i ∧ i < start + n := by
  induction n with
  | zero => simp [fillBlank]
  | succ n ih =>
      rw [fillBlank_succ]
      simp only [Screen.write, List.mem_append, List.mem_singleton, ih]
      by_cases hold : i ∈ s.written
      · simp only [hold, true_or]
      · simp only [hold, false_or]
        omega

theorem fillBlank_cursor (start n : ℕ) :
    (fillBlank start n s).cursorX = s.cursorX ∧
      (fillBlank start n s).cursorY = s.cursorY := by
  induction n with
  | zero => simp [fillBlank]
  | succ n ih =>
      rw [fillBlank_succ]
      exact ih

/-- The first `n` turns of the loop that moves the text up one row. -/
def moveUp (n : ℕ) : Screen :=
  (List.range n).foldl (fun s i => s.write i (s.textVideoMem (i + 80))) s

theorem moveUp_succ (n : ℕ) :
    moveUp s (n + 1) =
      (moveUp s n).write n ((moveUp s n).textVideoMem (n + 80)) := by
  simp [moveUp, List.range_succ]

/-- A cell is read before it is overwritten. -/
theorem moveUp_mem (n i : ℕ) :
    (moveUp s n).textVideoMem i =
      if i < n then s.textVideoMem (i + 80) else s.textVideoMem i := by
  induction n generalizing i with
  | zero => simp [moveUp]
  | succ n ih =>
      rw [moveUp_succ]
      by_cases hi : i = n
      · subst hi
        simp [Screen.write, ih]
      · have hiff : i < n + 1 ↔ i < n := by omega
        simp only [Screen.write, Function.update_of_ne hi, ih, hiff]

theorem moveUp_written (n i : ℕ) :
    i ∈ (moveUp s n).written ↔ i ∈ s.written ∨ i < n := by
  induction n with
  | zero => simp [moveUp]
  | succ n ih =>
      rw [moveUp_succ]
      simp only [Screen.write, List.mem_append, List.mem_singleton, ih]
      by_cases hold : i ∈ s.written
      · simp only [hold, true_or]
      · simp only [hold, false_or]
        omega

theorem moveUp_cursorX (n : ℕ) : (moveUp s n).cursorX = s.cursorX := by
  induction n with
  | zero => rfl
  | succ n ih =>
      rw [moveUp_succ]
      exact ih

end Loops

/-! ## The window -/

/-- The screen shows the rows of the terminal from `top` on. -/
structure Shows (top : ℕ) (s : Screen) (t : Terminal) : Prop where
  column : s.cursorX.toNat = t.col
  row : s.cursorY.toNat + top = t.row
  grid : ∀ y < 25, ∀ x < 80, s.textVideoMem (y * 80 + x) = t.cell (top + y) x
  unused : ∀ r, top + 25 ≤ r → ∀ x, t.cell r x = blank
  bound : ∀ i ∈ s.written, i < 2000

/-- The first of the last 25 rows. -/
def Terminal.top (t : Terminal) : ℕ := t.row - 24

/-- The screen between two calls. -/
structure Window (s : Screen) (t : Terminal) : Prop where
  shows : Shows t.top s t
  col_lt : t.col < 80

variable {s : Screen} {t : Terminal} {top : ℕ}

theorem Window.cursorY_lt (hs : Window s t) : s.cursorY.toNat < 25 := by
  have hrow := hs.shows.row
  unfold Terminal.top at hrow
  omega

theorem Shows.moveCursor (hs : Shows top s t) : Shows top (moveCursor s) t :=
  ⟨hs.column, hs.row, hs.grid, hs.unused, hs.bound⟩

/-- Moving the cursor to the top left corner. -/
def home (s : Screen) : Screen :=
  moveCursor { s with cursorX := 0, cursorY := 0 }

theorem home_textVideoMem (s : Screen) :
    (home s).textVideoMem = s.textVideoMem := rfl

theorem home_written (s : Screen) : (home s).written = s.written := rfl

theorem consoleClear_window (s : Screen) (hbound : ∀ i ∈ s.written, i < 2000) :
    Window (consoleClear s) .initial := by
  have hclear : consoleClear s = home (fillBlank 0 (80 * 25) s) := by
    rw [consoleClear, home]
  rw [hclear]
  refine ⟨⟨rfl, rfl, ?_, fun _ _ _ => rfl, ?_⟩, by decide⟩
  · intro y hy x hx
    rw [home_textVideoMem, fillBlank_mem, if_pos (by omega)]
    rfl
  · intro i hi
    rw [home_written, fillBlank_written] at hi
    rcases hi with hold | hnew
    · exact hbound i hold
    · omega

/-! ## One character -/

theorem tab_stop (x : Uchar) (hx : x.toNat < 80) :
    ((x + 8) &&& ~~~(8 - 1)).toNat = (x.toNat / 8 + 1) * 8 := by
  revert x
  decide +kernel

theorem toNat_add_one {x : Uchar} (hx : x.toNat < 200) :
    (x + 1).toNat = x.toNat + 1 := by
  rw [BitVec.toNat_add]
  simp
  omega

theorem toNat_sub_one {x : Uchar} (hx : x ≠ 0) :
    (x - 1).toNat = x.toNat - 1 := by
  bv_omega

/-- A printable character goes to the same cell of the screen and of the
terminal. -/
theorem Window.place (hs : Window s t) (cell : Ushort) :
    Shows t.top
      { s.write (s.cursorY.toNat * 80 + s.cursorX.toNat) cell with
        cursorX := s.cursorX + 1 } (t.place cell) := by
  have hx := hs.col_lt
  have hy := hs.cursorY_lt
  obtain ⟨hcol, hrow, hgrid, hunused, hbound⟩ := hs.shows
  constructor
  · change (s.cursorX + 1).toNat = t.col + 1
    rw [toNat_add_one (by omega), hcol]
  · exact hrow
  · intro y hy' x hx'
    by_cases hsame : y = s.cursorY.toNat ∧ x = s.cursorX.toNat
    · obtain ⟨rfl, rfl⟩ := hsame
      have hthere : t.top + s.cursorY.toNat = t.row := by omega
      simp [Screen.write, Terminal.place, hthere, hcol]
    · have hindex : y * 80 + x ≠ s.cursorY.toNat * 80 + s.cursorX.toNat := by
        omega
      simp only [Screen.write, Function.update_of_ne hindex, hgrid y hy' x hx',
        Terminal.place]
      by_cases hline : t.top + y = t.row
      · have hcell : x ≠ t.col := by omega
        rw [hline, Function.update_self, Function.update_of_ne hcell]
      · rw [Function.update_of_ne hline]
  · intro r hr x
    have hne : r ≠ t.row := by omega
    simp only [Terminal.place, Function.update_of_ne hne]
    exact hunused r hr x
  · intro i hi
    rcases List.mem_append.mp hi with hi | hi
    · exact hbound i hi
    · obtain rfl := List.mem_singleton.mp hi
      omega

theorem Window.putChar (hs : Window s t) (c : Uchar)
    (fontColor backcolor : Color) :
    Shows t.top (putChar s c fontColor backcolor)
      (t.type c (cellOf c fontColor backcolor)) := by
  have hx := hs.col_lt
  have hy := hs.cursorY_lt
  obtain ⟨hcol, hrow, hgrid, hunused, hbound⟩ := hs.shows
  unfold Console.putChar Terminal.type
  by_cases hback : c = 0x08
  · rw [if_pos hback]
    by_cases hzero : s.cursorX = 0
    · -- column 0: none of the tests succeeds
      subst hback
      have hcol0 : t.col = 0 := by
        rw [← hcol, hzero]
        rfl
      rw [if_neg (fun h => h.2 hzero), if_neg (by decide), if_neg (by decide),
        if_neg (by decide), if_neg (by decide)]
      refine ⟨?_, hrow, hgrid, hunused, hbound⟩
      rw [hcol, hcol0]
    · rw [if_pos ⟨hback, hzero⟩]
      refine ⟨?_, hrow, hgrid, hunused, hbound⟩
      change (s.cursorX - 1).toNat = t.col - 1
      rw [toNat_sub_one hzero, hcol]
  · rw [if_neg (fun h => hback h.1), if_neg hback]
    by_cases htab : c = 0x09
    · rw [if_pos htab, if_pos htab]
      refine ⟨?_, hrow, hgrid, hunused, hbound⟩
      change ((s.cursorX + 8) &&& ~~~(8 - 1)).toNat = (t.col / 8 + 1) * 8
      rw [tab_stop _ (by omega), hcol]
    · rw [if_neg htab, if_neg htab]
      by_cases hreturn : c = 0x0D
      · rw [if_pos hreturn, if_pos hreturn]
        exact ⟨rfl, hrow, hgrid, hunused, hbound⟩
      · rw [if_neg hreturn, if_neg hreturn]
        by_cases hline : c = 0x0A
        · rw [if_pos hline, if_pos hline]
          refine ⟨rfl, ?_, hgrid, hunused, hbound⟩
          change (s.cursorY + 1).toNat + t.top = t.row + 1
          rw [toNat_add_one (by omega)]
          omega
        · rw [if_neg hline, if_neg hline]
          by_cases hprint : 32 ≤ c.toInt
          · rw [if_pos hprint, if_pos hprint]
            exact hs.place _
          · rw [if_neg hprint, if_neg hprint]
            exact hs.shows

/-- One character moves the cursor at most to the next row, and past the right
edge by at most 8 columns. -/
theorem Terminal.type_range (t : Terminal) (hcol : t.col < 80) (c : Uchar)
    (value : Ushort) :
    (t.type c value).col ≤ 88 ∧ t.row ≤ (t.type c value).row ∧
      ((t.type c value).row = t.row ∨
        (t.type c value).row = t.row + 1 ∧ (t.type c value).col = 0) := by
  unfold Terminal.type Terminal.place
  split_ifs <;> simp <;> omega

theorem Terminal.putc_range (t : Terminal) (hcol : t.col < 80) (c : Uchar)
    (value : Ushort) :
    (t.putc c value).col < 80 ∧ t.row ≤ (t.putc c value).row ∧
      (t.putc c value).row ≤ t.row + 1 := by
  obtain ⟨hright, hdown, hcase⟩ := t.type_range hcol c value
  unfold Terminal.putc Terminal.wrap
  split_ifs with hedge
  · simp
    omega
  · omega

theorem Shows.changeLine (hs : Shows top s t) (hrow : t.row < top + 200) :
    Shows top (changeLine s) t.wrap := by
  have hX := hs.column
  have hY := hs.row
  unfold Console.changeLine Terminal.wrap
  have hedge : 80 ≤ s.cursorX ↔ 80 ≤ t.col := by
    rw [← hX]
    exact BitVec.le_def
  by_cases hend : 80 ≤ t.col
  · rw [if_pos (hedge.mpr hend), if_pos hend]
    refine ⟨rfl, ?_, hs.grid, hs.unused, hs.bound⟩
    change (s.cursorY + 1).toNat + top = t.row + 1
    rw [toNat_add_one (by omega)]
    omega
  · rw [if_neg (mt hedge.mp hend), if_neg hend]
    exact hs

/-- Scrolling brings the window back to the last 25 rows. -/
theorem Shows.scroll (hs : Shows top s t) (hlast : t.row ≤ top + 25)
    (htop : top = 0 ∨ top + 24 ≤ t.row) : Shows t.top (scroll s) t := by
  have hY := hs.row
  have hfull : 25 ≤ s.cursorY ↔ 25 ≤ s.cursorY.toNat := BitVec.le_def
  unfold Console.scroll
  by_cases hover : 25 ≤ s.cursorY.toNat
  · rw [if_pos (hfull.mpr hover)]
    have hnext : t.top = top + 1 := by
      unfold Terminal.top
      omega
    rw [hnext]
    have hmem := fillBlank_mem (moveUp s (24 * 80)) (24 * 80) 80
    have hwritten := fillBlank_written (moveUp s (24 * 80)) (24 * 80) 80
    have hX := (fillBlank_cursor (moveUp s (24 * 80)) (24 * 80) 80).1
    change Shows (top + 1)
      { fillBlank (24 * 80) 80 (moveUp s (24 * 80)) with cursorY := 24 } t
    -- only what the loops did to the text is needed from here on
    generalize fillBlank (24 * 80) 80 (moveUp s (24 * 80)) = u at hmem hwritten hX
    constructor
    · rw [← hs.column, ← moveUp_cursorX s (24 * 80), ← hX]
    · change 24 + (top + 1) = t.row
      omega
    · intro y hy x hx
      rw [hmem]
      by_cases hbottom : y = 24
      · rw [if_pos (by omega), hs.unused (top + 1 + y) (by omega)]
      · rw [if_neg (by omega), moveUp_mem, if_pos (by omega)]
        have hup := hs.grid (y + 1) (by omega) x hx
        rw [show (y + 1) * 80 + x = y * 80 + x + 80 by ring] at hup
        rw [hup, show top + (y + 1) = top + 1 + y by ring]
    · exact fun r hr => hs.unused r (by omega)
    · intro i hi
      rw [hwritten, moveUp_written] at hi
      rcases hi with (hold | hup) | hbottom
      · exact hs.bound i hold
      · omega
      · omega
  · rw [if_neg (mt hfull.mp hover)]
    have hsame : t.top = top := by
      unfold Terminal.top
      omega
    rw [hsame]
    exact hs

/-- One call keeps the window on the last 25 rows. -/
theorem Window.putc (hs : Window s t) (c : Uchar)
    (fontColor backcolor : Color) :
    Window (consolePutcColor s c fontColor backcolor)
      (t.putc c (cellOf c fontColor backcolor)) := by
  obtain ⟨hcol, hdown, hnext⟩ :=
    t.putc_range hs.col_lt c (cellOf c fontColor backcolor)
  obtain ⟨hright, _, hcase⟩ :=
    t.type_range hs.col_lt c (cellOf c fontColor backcolor)
  have htop : t.top = t.row - 24 := rfl
  refine ⟨?_, hcol⟩
  have hline := (hs.putChar c fontColor backcolor).changeLine (by omega)
  exact (hline.scroll (by unfold Terminal.putc at *; omega)
    (by unfold Terminal.putc at *; omega)).moveCursor

/-! ## Any sequence of characters -/

/-- A character with its font and background colours. -/
abbrev Input := Uchar × Color × Color

def putAll (s : Screen) (input : List Input) : Screen :=
  input.foldl (fun s k => consolePutcColor s k.1 k.2.1 k.2.2) s

/-- The ideal terminal after the same characters. -/
def Terminal.putAll (t : Terminal) (input : List Input) : Terminal :=
  input.foldl (fun t k => t.putc k.1 (cellOf k.1 k.2.1 k.2.2)) t

theorem Window.putAll (hs : Window s t) (input : List Input) :
    Window (putAll s input) (t.putAll input) := by
  induction input generalizing s t with
  | nil => exact hs
  | cons k input ih => exact ih (hs.putc k.1 k.2.1 k.2.2)

/-- After `console_clear` and any characters, video memory was written inside
its 2000 cells only, the cursor is on the screen, and the screen shows the last
25 rows of the ideal terminal with its cursor. -/
theorem console_is_window (s : Screen) (input : List Input) :
    let screen := putAll (consoleClear { s with written := [] }) input
    let terminal := Terminal.initial.putAll input
    (∀ i ∈ screen.written, i < 2000) ∧
      screen.cursorX.toNat < 80 ∧ screen.cursorY.toNat < 25 ∧
      (∀ y < 25, ∀ x < 80, screen.textVideoMem (y * 80 + x) =
        terminal.cell (terminal.row - 24 + y) x) ∧
      screen.cursorX.toNat = terminal.col ∧
      screen.cursorY.toNat = terminal.row - (terminal.row - 24) := by
  intro screen terminal
  have hwindow : Window screen terminal :=
    (consoleClear_window { s with written := [] } (by simp)).putAll input
  have hcol := hwindow.shows.column
  have hrow := hwindow.shows.row
  unfold Terminal.top at hrow
  refine ⟨hwindow.shows.bound, ?_, hwindow.cursorY_lt, hwindow.shows.grid,
    hcol, ?_⟩
  · rw [hcol]
    exact hwindow.col_lt
  · omega

end Console
end OS32
