import OS32.Console

/-!
# The hardware cursor

The VGA controller has an index register behind port 0x3D4 and, behind port
0x3D5, the register that the index selects.  `move_cursor` selects register 14
only: it sends the second index to the data port.
-/

namespace OS32
namespace Console

/-- The controller's registers. -/
structure Vga where
  index : Uchar
  regs : Uchar → Uchar

namespace Vga

def out (d : Vga) (port : Ushort) (value : Uchar) : Vga :=
  if port = 0x3D4 then { d with index := value }
  else if port = 0x3D5 then
    { d with regs := Function.update d.regs d.index value }
  else d

/-- The controller after the bytes sent to ports. -/
def after (d : Vga) (ports : List (Ushort × Uchar)) : Vga :=
  ports.foldl (fun d sent => d.out sent.1 sent.2) d

end Vga

variable {d : Vga} {s : Screen} {r : Uchar}

/-- The cursor location in registers 14 and 15 is that of `cursor_X` and
`cursor_Y`. -/
def Follows (d : Vga) (s : Screen) : Prop :=
  ((d.after s.ports).regs 14).toNat * 256 +
      ((d.after s.ports).regs 15).toNat =
    s.cursorY.toNat * 80 + s.cursorX.toNat

/-- After `console_clear` the hardware cursor follows every character. -/
def FollowsEach (d : Vga) (s : Screen) (input : List Input) : Prop :=
  ∀ typed, typed <+: input → typed ≠ [] →
    Follows d (putAll (consoleClear { s with ports := [] }) typed)

/-- The character leaves the cursor in the top left corner. -/
def Still (c : Uchar) : Prop := c ≠ 0x09 ∧ c ≠ 0x0A ∧ c.toInt < 32

/-! ## The bytes sent to ports -/

theorem fillBlank_ports (start n : ℕ) (s : Screen) :
    (fillBlank start n s).ports = s.ports := by
  induction n with
  | zero => rfl
  | succ n ih =>
      rw [fillBlank_succ]
      exact ih

theorem moveUp_ports (s : Screen) (n : ℕ) : (moveUp s n).ports = s.ports := by
  induction n with
  | zero => rfl
  | succ n ih =>
      rw [moveUp_succ]
      exact ih

theorem scroll_ports (s : Screen) : (scroll s).ports = s.ports := by
  unfold scroll
  rw [← moveUp]
  split
  · dsimp only
    rw [fillBlank_ports, moveUp_ports]
  · rfl

theorem changeLine_ports (s : Screen) : (changeLine s).ports = s.ports := by
  unfold changeLine
  split <;> rfl

theorem putChar_ports (s : Screen) (c : Uchar) (fontColor backcolor : Color) :
    (putChar s c fontColor backcolor).ports = s.ports := by
  unfold putChar
  split_ifs <;> rfl

/-- `cursor_loc & 0xFF`. -/
def lowByte (s : Screen) : Uchar :=
  ((s.cursorY.setWidth 16 * 80 + s.cursorX.setWidth 16 : Ushort) &&&
    0xFF).setWidth 8

theorem lowByte_moveCursor (s : Screen) : lowByte (moveCursor s) = lowByte s :=
  rfl

/-- All three bytes for the data port go to register 14. -/
theorem after_moveCursor (d : Vga) (s : Screen) :
    d.after (moveCursor s).ports =
      ⟨14, Function.update (d.after s.ports).regs 14 (lowByte s)⟩ := by
  unfold moveCursor Screen.outb Vga.after lowByte
  simp [Vga.out]

theorem after_putc (d : Vga) (s : Screen) (c : Uchar)
    (fontColor backcolor : Color) :
    d.after (consolePutcColor s c fontColor backcolor).ports =
      ⟨14, Function.update (d.after s.ports).regs 14
        (lowByte (consolePutcColor s c fontColor backcolor))⟩ := by
  unfold consolePutcColor
  rw [after_moveCursor, lowByte_moveCursor, scroll_ports, changeLine_ports,
    putChar_ports]

/-! ## Characters at the top left corner -/

/-- The cursor is in the top left corner, and register 15 holds `r`. -/
structure Home (d : Vga) (r : Uchar) (s : Screen) : Prop where
  cursorX : s.cursorX = 0
  cursorY : s.cursorY = 0
  low : (d.after s.ports).regs 15 = r

theorem consoleClear_home (d : Vga) (s : Screen) :
    Home d (d.regs 15) (consoleClear { s with ports := [] }) := by
  refine ⟨rfl, rfl, ?_⟩
  unfold consoleClear
  rw [after_moveCursor]
  dsimp only
  rw [fillBlank_ports]
  rfl

/-- Where a character takes the cursor from the corner. -/
def fromHome (c : Uchar) : Uchar × Uchar :=
  if c = 0x09 then (8, 0) else if c = 0x0A then (0, 1)
  else if 32 ≤ c.toInt then (1, 0) else (0, 0)

theorem fromHome_cases (c : Uchar) :
    (Still c ∧ fromHome c = (0, 0)) ∨ (¬ Still c ∧
      (fromHome c = (8, 0) ∨ fromHome c = (0, 1) ∨ fromHome c = (1, 0))) := by
  unfold fromHome Still
  by_cases htab : c = 0x09
  · simp [htab]
  by_cases hline : c = 0x0A
  · simp [hline]
  by_cases hprint : 32 ≤ c.toInt
  · right
    rw [if_neg htab, if_neg hline, if_pos hprint]
    exact ⟨fun hstill => by omega, .inr (.inr rfl)⟩
  · left
    rw [if_neg htab, if_neg hline, if_neg hprint]
    exact ⟨⟨htab, hline, by omega⟩, rfl⟩

theorem fromHome_still {c : Uchar} (hstill : Still c) : fromHome c = (0, 0) := by
  rcases fromHome_cases c with ⟨_, hhome⟩ | ⟨hmoves, _⟩
  · exact hhome
  · exact absurd hstill hmoves

theorem putChar_fromHome (hx : s.cursorX = 0) (hy : s.cursorY = 0) (c : Uchar)
    (fontColor backcolor : Color) :
    ((putChar s c fontColor backcolor).cursorX,
      (putChar s c fontColor backcolor).cursorY) = fromHome c := by
  unfold putChar fromHome
  rw [if_neg (fun hback => hback.2 hx)]
  by_cases htab : c = 0x09
  · rw [if_pos htab, if_pos htab, hx, hy]
    rfl
  rw [if_neg htab, if_neg htab]
  by_cases hreturn : c = 0x0D
  · subst hreturn
    simp [hy]
  rw [if_neg hreturn]
  by_cases hline : c = 0x0A
  · rw [if_pos hline, if_pos hline, hy]
    rfl
  rw [if_neg hline, if_neg hline]
  by_cases hprint : 32 ≤ c.toInt
  · rw [if_pos hprint, if_pos hprint]
    simp [Screen.write, hx, hy]
  · rw [if_neg hprint, if_neg hprint, hx, hy]

theorem putc_fromHome (hx : s.cursorX = 0) (hy : s.cursorY = 0) (c : Uchar)
    (fontColor backcolor : Color) :
    ((consolePutcColor s c fontColor backcolor).cursorX,
      (consolePutcColor s c fontColor backcolor).cursorY) = fromHome c := by
  have hput := putChar_fromHome hx hy c fontColor backcolor
  have hbound : (fromHome c).1 < 80 ∧ (fromHome c).2 < 25 := by
    unfold fromHome
    split_ifs <;> decide
  rw [← hput] at hbound ⊢
  have hline : changeLine (putChar s c fontColor backcolor) =
      putChar s c fontColor backcolor :=
    if_neg (BitVec.not_le.mpr hbound.1)
  have hscroll : scroll (putChar s c fontColor backcolor) =
      putChar s c fontColor backcolor :=
    if_neg (BitVec.not_le.mpr hbound.2)
  unfold consolePutcColor
  rw [hline, hscroll]
  rfl

theorem Home.putc (hs : Home d r s) {c : Uchar} (hstill : Still c)
    (fontColor backcolor : Color) :
    Home d r (consolePutcColor s c fontColor backcolor) := by
  have hcursor := putc_fromHome hs.cursorX hs.cursorY c fontColor backcolor
  rw [fromHome_still hstill] at hcursor
  obtain ⟨hx, hy⟩ := Prod.mk.inj hcursor
  refine ⟨hx, hy, ?_⟩
  rw [after_putc]
  exact hs.low

/-- One character at the corner: the low byte of the location is where the high
byte belongs. -/
theorem Home.follows_putc_iff (hs : Home d r s) (c : Uchar)
    (fontColor backcolor : Color) :
    Follows d (consolePutcColor s c fontColor backcolor) ↔
      r = 0 ∧ Still c := by
  have hcursor := putc_fromHome hs.cursorX hs.cursorY c fontColor backcolor
  have hlow := hs.low
  have hrange := r.isLt
  unfold Follows
  rw [after_putc]
  generalize consolePutcColor s c fontColor backcolor = t at hcursor
  have hx : t.cursorX = (fromHome c).1 := congrArg Prod.fst hcursor
  have hy : t.cursorY = (fromHome c).2 := congrArg Prod.snd hcursor
  dsimp only
  rw [Function.update_self, Function.update_of_ne (by decide), hlow, lowByte,
    hx, hy, ← BitVec.toNat_inj]
  rcases fromHome_cases c with ⟨hstill, hhome⟩ | ⟨hmoves, hhome⟩
  · rw [hhome]
    change 0 * 256 + r.toNat = 0 ↔ r.toNat = 0 ∧ Still c
    simp [hstill]
  · have hapart : ((((fromHome c).2.setWidth 16 * 80 +
        (fromHome c).1.setWidth 16 : Ushort) &&& 0xFF).setWidth 8).toNat * 256 >
          (fromHome c).2.toNat * 80 + (fromHome c).1.toNat := by
      rcases hhome with hhome | hhome | hhome <;> rw [hhome] <;> decide
    constructor
    · intro hsame
      omega
    · exact fun hstill => absurd hstill.2 hmoves

/-! ## Any sequence of characters -/

theorem Home.follows_iff (hs : Home d r s) (input : List Input) :
    (∀ typed, typed <+: input → typed ≠ [] → Follows d (putAll s typed)) ↔
      ∀ k ∈ input, r = 0 ∧ Still k.1 := by
  induction input generalizing s with
  | nil =>
      constructor
      · exact fun _ _ hk => absurd hk List.not_mem_nil
      · exact fun _ typed htyped hne => absurd (List.prefix_nil.mp htyped) hne
  | cons k input ih =>
      constructor
      · intro hall
        have hfirst := hall [k] (List.prefix_append [k] input) (by simp)
        have hk := (hs.follows_putc_iff k.1 k.2.1 k.2.2).mp hfirst
        have hrest := (ih (hs.putc hk.2 k.2.1 k.2.2)).mp fun typed htyped _ =>
          hall (k :: typed) (List.prefix_cons_inj k |>.mpr htyped) (by simp)
        intro k' hk'
        rcases List.mem_cons.mp hk' with rfl | hk'
        · exact hk
        · exact hrest k' hk'
      · intro hall typed htyped hne
        obtain ⟨hr, hstill⟩ := hall k List.mem_cons_self
        obtain ⟨k', typed, rfl⟩ := List.exists_cons_of_ne_nil hne
        obtain ⟨rfl, hrest⟩ := List.cons_prefix_cons.mp htyped
        have hhome := hs.putc hstill k'.2.1 k'.2.2
        rcases typed with _ | ⟨k₂, typed⟩
        · exact (hs.follows_putc_iff k'.1 k'.2.1 k'.2.2).mpr ⟨hr, hstill⟩
        · exact (ih hhome).mpr
            (fun k hk => hall k (List.mem_cons_of_mem _ hk)) _ hrest (by simp)

/-- The hardware cursor follows the software cursor only as long as both stay in
the top left corner, and if register 15 held zero before. -/
theorem cursor_follows_iff (d : Vga) (s : Screen) (input : List Input) :
    FollowsEach d s input ↔ ∀ k ∈ input, d.regs 15 = 0 ∧ Still k.1 :=
  (consoleClear_home d s).follows_iff input

/-- After one letter the location reads 256. -/
theorem cursor_left_behind :
    ¬ FollowsEach ⟨0, fun _ => 0⟩ ⟨fun _ => 0, 0, 0, [], []⟩
      [(0x41, 15, 0)] := by
  intro hall
  have hfollows := hall _ List.prefix_rfl (by simp)
  have hstill := ((consoleClear_home _ _).follows_putc_iff 0x41 15 0).mp hfollows
  exact absurd hstill.2.2.2 (by decide)

end Console
end OS32
