import OS32.IoQueue

/-!
# Modifier keys: `keyboard.c`

A key sends its code when it goes down and again while it is held, and its code
with bit 7 set when it goes up; some keys send the byte 0xe0 in front.  Shift,
ctrl and alt have two keys and one status each, so a status follows the keys as
long as none of them is released while the other one of its pair is held.
-/

namespace OS32

open Transition

namespace Keyboard

open Ioq

abbrev Ushort := BitVec 16

def shift_l_make : Ushort := 0x2a
def shift_r_make : Ushort := 0x36
def alt_l_make : Ushort := 0x38
def alt_r_make : Ushort := 0xe038
def ctrl_l_make : Ushort := 0x1d
def ctrl_r_make : Ushort := 0xe01d
def capslock_make : Ushort := 0x3a

/-- Neighbouring keys with what they stand for without and with shift. -/
def row (plain shifted : String) : List (Byte × Byte) :=
  (plain.toList.zip shifted.toList).map fun c =>
    (BitVec.ofNat 8 c.1.toNat, BitVec.ofNat 8 c.2.toNat)

def esc : Byte := 0x1b
def backspace : Byte := 0x08
def tab : Byte := 0x09
def enter : Byte := 0x0d
def char_invisible : Byte := 0

def keymap : List (Byte × Byte) :=
  [(0, 0), (esc, esc)] ++
  row "1234567890-=" "!@#$%^&*()_+" ++
  [(backspace, backspace), (tab, tab)] ++
  row "qwertyuiop[]" "QWERTYUIOP\x7b\x7d" ++
  [(enter, enter), (char_invisible, char_invisible)] ++
  row "asdfghjkl;'`" "ASDFGHJKL:\x22~" ++
  [(char_invisible, char_invisible)] ++ row "\\" "|" ++
  row "zxcvbnm,./" "ZXCVBNM<>?" ++
  [(char_invisible, char_invisible)] ++ row "*" "*" ++
  [(char_invisible, char_invisible)] ++ row " " " " ++
  [(char_invisible, char_invisible)]

/-- The statics of `keyboard.c`, what went to the console and the threads
passed to `thread_unblock`. -/
structure Kbd (τ : Type*) where
  kbdBuf : Ioqueue τ
  ctrlStatus : ℤ
  shiftStatus : ℤ
  altStatus : ℤ
  capslockStatus : ℤ
  extStatus : ℤ
  console : List String
  unblocked : List τ

variable {τ : Type*}

namespace Kbd

/-- A break code, with bit 7 cleared. -/
def onBreak (kbd : Kbd τ) (makeCode : Ushort) : Kbd τ :=
  let kbd :=
    if makeCode = ctrl_l_make ∨ makeCode = ctrl_r_make then
      { kbd with ctrlStatus := 0 }
    else kbd
  let kbd :=
    if makeCode = shift_l_make ∨ makeCode = shift_r_make then
      { kbd with shiftStatus := 0 }
    else kbd
  if makeCode = alt_l_make ∨ makeCode = alt_r_make then
    { kbd with altStatus := 0 }
  else kbd

/-- The column of `keymap`. -/
def shiftOf (kbd : Kbd τ) (scancode : Ushort) : Bool :=
  if scancode < 0x0e ∨ scancode = 0x29 ∨
      scancode = 0x1a ∨ scancode = 0x1b ∨
      scancode = 0x2b ∨ scancode = 0x27 ∨
      scancode = 0x28 ∨ scancode = 0x33 ∨
      scancode = 0x34 ∨ scancode = 0x35 then
    kbd.shiftStatus ≠ 0
  else if kbd.shiftStatus ≠ 0 ∧ kbd.capslockStatus ≠ 0 then false
  else kbd.shiftStatus ≠ 0 ∨ kbd.capslockStatus ≠ 0

/-- `ioq_putchar(&kbd_buf, cur_char)`. -/
def putchar (kbd : Kbd τ) (curChar : Byte) : Kbd τ :=
  let (kbdBuf, waiting) := ioqPutchar kbd.kbdBuf curChar
  { kbd with kbdBuf := kbdBuf, unblocked := kbd.unblocked ++ waiting.toList }

def keymapAt (index : Ushort) (shift : Bool) : Byte :=
  let entry := keymap.getD index.toNat (0, 0)
  if shift then entry.2 else entry.1

/-- A make code that is in `keymap`.  The prefix is dropped by the assignment
in `index = (scancode &= 0x00ff)`. -/
def onMake (kbd : Kbd τ) (scancode : Ushort) : Kbd τ :=
  let shift := kbd.shiftOf scancode
  let scancode := scancode &&& 0x00ff
  let curChar := keymapAt scancode shift
  if curChar ≠ 0 then
    if ioqFull kbd.kbdBuf then kbd else kbd.putchar curChar
  else if scancode = ctrl_l_make ∨ scancode = ctrl_r_make then
    { kbd with ctrlStatus := 1 }
  else if scancode = shift_l_make ∨ scancode = shift_r_make then
    { kbd with shiftStatus := 1 }
  else if scancode = alt_l_make ∨ scancode = alt_r_make then
    { kbd with altStatus := 1 }
  else if scancode = capslock_make then
    { kbd with capslockStatus := if kbd.capslockStatus = 0 then 1 else 0 }
  else kbd

def inKeymap (scancode : Ushort) : Bool :=
  (0x00 < scancode ∧ scancode < 0x3b) ∨ scancode = alt_r_make ∨
    scancode = ctrl_r_make

def onScancode (kbd : Kbd τ) (scancode : Ushort) : Kbd τ :=
  if scancode &&& 0x0080 ≠ 0 then kbd.onBreak (scancode &&& 0xff7f)
  else if inKeymap scancode then kbd.onMake scancode
  else { kbd with console := kbd.console ++ ["unknown key\n"] }

end Kbd

/-- `kbd_handler`, with what `inb(KBD_BUF_PORT)` returns. -/
def kbdHandler (kbd : Kbd τ) (byte : Byte) : Kbd τ :=
  let scancode : Ushort := byte.setWidth 16
  if scancode = 0xe0 then { kbd with extStatus := 1 }
  else if kbd.extStatus ≠ 0 then
    { kbd with extStatus := 0 }.onScancode (0xe000 ||| scancode)
  else kbd.onScancode scancode

/-! ## Keys -/

/-- A key: whether its codes have the prefix 0xe0, and its make code.  0xe0
itself is no break code. -/
structure Key where
  ext : Bool
  code : Byte
  small : code &&& 0x80 = 0
  ne_prefix : code ≠ 0x60
  deriving DecidableEq

inductive Code where
  /-- A key goes down, or is held and repeats. -/
  | press (key : Key)
  | release (key : Key)

def Code.bytes : Code → List Byte
  | .press key => (if key.ext then [0xe0] else []) ++ [key.code]
  | .release key => (if key.ext then [0xe0] else []) ++ [key.code ||| 0x80]

inductive Modifier where
  | shift
  | ctrl
  | alt
  deriving DecidableEq

def Modifier.left : Modifier → Key
  | .shift => ⟨false, 0x2a, by decide, by decide⟩
  | .ctrl => ⟨false, 0x1d, by decide, by decide⟩
  | .alt => ⟨false, 0x38, by decide, by decide⟩

def Modifier.right : Modifier → Key
  | .shift => ⟨false, 0x36, by decide, by decide⟩
  | .ctrl => ⟨true, 0x1d, by decide, by decide⟩
  | .alt => ⟨true, 0x38, by decide, by decide⟩

def Kbd.status (kbd : Kbd τ) : Modifier → ℤ
  | .shift => kbd.shiftStatus
  | .ctrl => kbd.ctrlStatus
  | .alt => kbd.altStatus

/-- The handler on a complete code. -/
def receive (kbd : Kbd τ) (code : Code) : Kbd τ :=
  code.bytes.foldl kbdHandler kbd

/-- The key is one of the two of the modifier. -/
def Key.IsFor (key : Key) (m : Modifier) : Prop := key = m.left ∨ key = m.right

instance (key : Key) (m : Modifier) : Decidable (key.IsFor m) :=
  inferInstanceAs (Decidable (_ ∨ _))

/-! ## One code -/

/-- The scancode after the bytes of a code have been merged. -/
def merged (ext : Bool) (byte : Byte) : Ushort :=
  if ext then 0xe000 ||| byte.setWidth 16 else byte.setWidth 16

theorem merge_bytes {kbd : Kbd τ} (hext : kbd.extStatus = 0) (ext : Bool)
    {byte : Byte} (hbyte : byte ≠ 0xe0) :
    ((if ext then [0xe0] else []) ++ [byte]).foldl kbdHandler kbd =
      kbd.onScancode (merged ext byte) := by
  have hne : byte.setWidth 16 ≠ (0xe0 : Ushort) := by
    intro heq
    apply hbyte
    rw [← BitVec.toNat_inj] at heq ⊢
    rwa [BitVec.toNat_setWidth_of_le (by omega)] at heq
  have hsame : { kbd with extStatus := 0 } = kbd := by
    rw [← hext]
  cases ext with
  | false =>
      change kbdHandler kbd byte = _
      rw [kbdHandler, if_neg hne, if_neg (not_not.mpr hext)]
      rfl
  | true =>
      change kbdHandler (kbdHandler kbd 0xe0) byte = _
      have hfirst : kbdHandler kbd 0xe0 = { kbd with extStatus := 1 } := rfl
      rw [hfirst, kbdHandler, if_neg hne, if_pos one_ne_zero]
      change Kbd.onScancode { kbd with extStatus := 0 } _ = _
      rw [hsame]
      rfl

/-- The modifier a make code is for. -/
def modifierOf (makeCode : Ushort) : Option Modifier :=
  if makeCode = ctrl_l_make ∨ makeCode = ctrl_r_make then some .ctrl
  else if makeCode = shift_l_make ∨ makeCode = shift_r_make then some .shift
  else if makeCode = alt_l_make ∨ makeCode = alt_r_make then some .alt
  else none

/-- The codes of modifiers stand for no character. -/
theorem keymapAt_eq_zero {index : Ushort} {m : Modifier}
    (hindex : modifierOf index = some m) (shift : Bool) :
    Kbd.keymapAt index shift = 0 := by
  unfold modifierOf at hindex
  split at hindex
  next h => rcases h with rfl | rfl <;> cases shift <;> decide
  next =>
    split at hindex
    next h => rcases h with rfl | rfl <;> cases shift <;> decide
    next =>
      split at hindex
      next h => rcases h with rfl | rfl <;> cases shift <;> decide
      next => cases hindex

namespace Kbd

@[simp] theorem putchar_status (kbd : Kbd τ) (c : Byte) (m : Modifier) :
    (kbd.putchar c).status m = kbd.status m := by
  cases m <;> rfl

theorem onMake_status (kbd : Kbd τ) (scancode : Ushort) (m : Modifier) :
    (kbd.onMake scancode).status m =
      if modifierOf (scancode &&& 0x00ff) = some m then 1
      else kbd.status m := by
  unfold onMake
  dsimp only
  generalize kbd.shiftOf scancode = shift
  generalize scancode &&& 0x00ff = index
  by_cases hchar : keymapAt index shift = 0
  · rw [if_neg (not_not.mpr hchar)]
    unfold modifierOf
    by_cases hctrl : index = ctrl_l_make ∨ index = ctrl_r_make
    · rw [if_pos hctrl, if_pos hctrl]
      cases m <;> rfl
    · rw [if_neg hctrl, if_neg hctrl]
      by_cases hshift : index = shift_l_make ∨ index = shift_r_make
      · rw [if_pos hshift, if_pos hshift]
        cases m <;> rfl
      · rw [if_neg hshift, if_neg hshift]
        by_cases halt : index = alt_l_make ∨ index = alt_r_make
        · rw [if_pos halt, if_pos halt]
          cases m <;> rfl
        · rw [if_neg halt, if_neg halt, if_neg (Option.some_ne_none m).symm]
          split <;> cases m <;> rfl
  · rw [if_pos hchar, if_neg fun h => hchar (keymapAt_eq_zero h shift)]
    split
    · rfl
    · rw [putchar_status]

theorem onBreak_status (kbd : Kbd τ) (makeCode : Ushort) (m : Modifier) :
    (kbd.onBreak makeCode).status m =
      if modifierOf makeCode = some m then 0 else kbd.status m := by
  unfold onBreak modifierOf
  dsimp only
  by_cases hctrl : makeCode = ctrl_l_make ∨ makeCode = ctrl_r_make
  · rcases hctrl with rfl | rfl <;> cases m <;> rfl
  · rw [if_neg hctrl, if_neg hctrl]
    by_cases hshift : makeCode = shift_l_make ∨ makeCode = shift_r_make
    · rcases hshift with rfl | rfl <;> cases m <;> rfl
    · rw [if_neg hshift, if_neg hshift]
      by_cases halt : makeCode = alt_l_make ∨ makeCode = alt_r_make
      · rw [if_pos halt, if_pos halt]
        cases m <;> rfl
      · rw [if_neg halt, if_neg halt, if_neg (Option.some_ne_none m).symm]

end Kbd

/-! ## Complete codes -/

theorem makeCode_facts : ∀ (ext : Bool) (code : Byte), code &&& 0x80 = 0 →
    merged ext code &&& 0x0080 = 0 ∧
      merged ext (code ||| 0x80) &&& 0x0080 ≠ 0 ∧
      merged ext (code ||| 0x80) &&& 0xff7f = merged ext code := by
  decide +kernel

/-- The codes of the modifiers are their own; in particular a make code that
has lost its prefix is that of a modifier only if it came from one. -/
theorem modifierOf_merged : ∀ (ext : Bool) (code : Byte), code &&& 0x80 = 0 →
    modifierOf (merged ext code) =
      if Kbd.inKeymap (merged ext code) then
        modifierOf (merged ext code &&& 0x00ff)
      else none := by
  decide +kernel

theorem Key.isFor_iff (key : Key) (m : Modifier) :
    key.IsFor m ↔ modifierOf (merged key.ext key.code) = some m := by
  obtain ⟨ext, code, hsmall, hne⟩ := key
  have hall : ∀ (ext : Bool) (code : Byte), code &&& 0x80 = 0 →
      (modifierOf (merged ext code) = some m ↔
        (ext = m.left.ext ∧ code = m.left.code) ∨
          ext = m.right.ext ∧ code = m.right.code) := by
    cases m <;> decide +kernel
  rw [hall ext code hsmall, IsFor]
  cases m <;> simp [Modifier.left, Modifier.right]

theorem release_ne_lead : ∀ code : Byte, code &&& 0x80 = 0 → code ≠ 0x60 →
    code ≠ 0xe0 ∧ code ||| 0x80 ≠ 0xe0 := by
  decide +kernel

theorem receive_press {kbd : Kbd τ} (hext : kbd.extStatus = 0) (key : Key)
    (m : Modifier) :
    (receive kbd (.press key)).status m =
      if key.IsFor m then 1 else kbd.status m := by
  rcases makeCode_facts key.ext key.code key.small with ⟨hmake, _, _⟩
  have hmod := modifierOf_merged key.ext key.code key.small
  unfold receive Code.bytes
  rw [merge_bytes hext _ (release_ne_lead _ key.small key.ne_prefix).1,
    Kbd.onScancode, if_neg (not_not.mpr hmake)]
  simp only [key.isFor_iff, hmod]
  by_cases hin : Kbd.inKeymap (merged key.ext key.code) = true
  · rw [if_pos hin, if_pos hin, Kbd.onMake_status]
  · rw [if_neg hin, if_neg hin, if_neg (Option.some_ne_none m).symm]
    cases m <;> rfl

theorem receive_release {kbd : Kbd τ} (hext : kbd.extStatus = 0) (key : Key)
    (m : Modifier) :
    (receive kbd (.release key)).status m =
      if key.IsFor m then 0 else kbd.status m := by
  rcases makeCode_facts key.ext key.code key.small with ⟨_, hbreak, hclear⟩
  unfold receive Code.bytes
  rw [merge_bytes hext _ (release_ne_lead _ key.small key.ne_prefix).2,
    Kbd.onScancode, if_pos hbreak, hclear, Kbd.onBreak_status]
  simp only [key.isFor_iff]

theorem onScancode_extStatus (kbd : Kbd τ) (scancode : Ushort) :
    (kbd.onScancode scancode).extStatus = kbd.extStatus := by
  unfold Kbd.onScancode Kbd.onBreak Kbd.onMake Kbd.putchar
  dsimp only
  split_ifs <;> rfl

/-- Between complete codes no prefix is pending. -/
theorem receive_extStatus {kbd : Kbd τ} (hext : kbd.extStatus = 0)
    (code : Code) : (receive kbd code).extStatus = 0 := by
  cases code with
  | press key =>
      unfold receive Code.bytes
      rw [merge_bytes hext _ (release_ne_lead _ key.small key.ne_prefix).1,
        onScancode_extStatus, hext]
  | release key =>
      unfold receive Code.bytes
      rw [merge_bytes hext _ (release_ne_lead _ key.small key.ne_prefix).2,
        onScancode_extStatus, hext]

/-! ## Runs -/

/-- The keyboard driver and the keys that are down. -/
structure State (τ : Type*) where
  kbd : Kbd τ
  down : Key → Bool

/-- A keyboard sends the break code of a key that is down. -/
inductive Step : State τ → Code → State τ → Prop
  | press (s : State τ) (key : Key) :
      Step s (.press key)
        ⟨receive s.kbd (.press key), Function.update s.down key true⟩
  | release (s : State τ) (key : Key) : s.down key = true →
      Step s (.release key)
        ⟨receive s.kbd (.release key), Function.update s.down key false⟩

/-- After `init_kbd`, with no key down. -/
def initial (buf : ℤ → Byte) : State τ where
  kbd := ⟨ioqueueInit buf, 0, 0, 0, 0, 0, [], []⟩
  down := fun _ => false

/-- The statuses are those of the keys that are down. -/
def Follows (s : State τ) : Prop :=
  ∀ m, s.kbd.status m = 1 ↔ s.down m.left = true ∨ s.down m.right = true

/-- No key of a pair is released while the other one is down. -/
def Alone (s : State τ) : Code → Prop
  | .press _ => True
  | .release key => ∀ m : Modifier, (key = m.left → s.down m.right = false) ∧
      (key = m.right → s.down m.left = false)

def AloneStep (s : State τ) (code : Code) (t : State τ) : Prop :=
  Step s code t ∧ Alone s code

variable {s t u : State τ}

theorem Modifier.left_ne_right (m : Modifier) : m.left ≠ m.right := by
  cases m <;> decide

theorem Step.unique {code : Code} (ht : Step s code t) (hu : Step s code u) :
    t = u := by
  cases ht <;> cases hu <;> rfl

theorem Step.extStatus {code : Code} (hstep : Step s code t)
    (hext : s.kbd.extStatus = 0) : t.kbd.extStatus = 0 := by
  cases hstep <;> exact receive_extStatus hext _

theorem Follows.afterPress (hs : Follows s) (hext : s.kbd.extStatus = 0)
    (key : Key) :
    Follows ⟨receive s.kbd (.press key), Function.update s.down key true⟩ := by
  intro m
  rw [receive_press hext]
  by_cases hkey : key.IsFor m
  · rw [if_pos hkey]
    rcases hkey with rfl | rfl
    · simp
    · simp
  · rw [if_neg hkey]
    rcases not_or.mp hkey with ⟨hleft, hright⟩
    dsimp only
    rw [Function.update_of_ne (Ne.symm hleft),
      Function.update_of_ne (Ne.symm hright)]
    exact hs m

/-- The status of a released key is right iff the other key of its pair is
up. -/
theorem Follows.afterRelease_iff (hs : Follows s) (hext : s.kbd.extStatus = 0)
    (key : Key) :
    Follows ⟨receive s.kbd (.release key), Function.update s.down key false⟩ ↔
      Alone s (.release key) := by
  refine forall_congr' fun m => ?_
  rw [receive_release hext]
  by_cases hleft : key = m.left
  · subst hleft
    simp [Key.IsFor, m.left_ne_right, m.left_ne_right.symm]
  · by_cases hright : key = m.right
    · subst hright
      simp [Key.IsFor, m.left_ne_right, m.left_ne_right.symm]
    · have hother : ¬ key.IsFor m := not_or.mpr ⟨hleft, hright⟩
      dsimp only
      rw [if_neg hother,
        Function.update_of_ne (Ne.symm hleft),
        Function.update_of_ne (Ne.symm hright)]
      simp only [hleft, hright, false_implies, and_self, iff_true]
      exact hs m

theorem Follows.afterStep_iff (hs : Follows s) (hext : s.kbd.extStatus = 0)
    {code : Code} (hstep : Step s code t) : Follows t ↔ Alone s code := by
  cases hstep with
  | press key => exact iff_of_true (hs.afterPress hext key) trivial
  | release key _ => exact hs.afterRelease_iff hext key

theorem initial_follows (buf : ℤ → Byte) :
    Follows (initial (τ := τ) buf) := by
  intro m
  cases m <;> simp [initial, Kbd.status]

theorem run_extStatus {buf : ℤ → Byte} {codes : List Code}
    (hrun : Run Step (initial buf) codes s) : s.kbd.extStatus = 0 :=
  hrun.invariant (fun s => s.kbd.extStatus = 0)
    (fun _ _ _ hext hstep => hstep.extStatus hext) rfl

theorem run_follows {buf : ℤ → Byte} {codes : List Code}
    (hrun : Run AloneStep (initial buf) codes s) : Follows s := by
  induction hrun with
  | nil => exact initial_follows buf
  | snoc hrun hlast ih =>
      have hext := run_extStatus (hrun.mono fun _ _ _ h => h.1)
      exact (ih.afterStep_iff hext hlast.1).mpr hlast.2

/-- The statuses follow the keys in all states of a run iff no key of a pair
is released while the other one is down. -/
theorem modifiers_follow_iff {buf : ℤ → Byte} {codes : List Code}
    (hrun : Run Step (initial buf) codes s) :
    (∀ (first : List Code) (t : State τ), first <+: codes →
      Run Step (initial buf) first t → Follows t) ↔
        Run AloneStep (initial buf) codes s := by
  constructor
  · intro hfollows
    induction hrun with
    | nil => exact .nil
    | snoc hrun hlast ih =>
        have hrun' := ih fun first t hfirst =>
          hfollows first t (hfirst.trans (List.prefix_append _ _))
        have hlast' := hfollows _ _ (List.prefix_refl _) (.snoc hrun hlast)
        exact .snoc hrun' ⟨hlast, ((run_follows hrun').afterStep_iff
          (run_extStatus hrun) hlast).mp hlast'⟩
  · intro halone first t hfirst ht
    obtain ⟨t', ht'⟩ := halone.truncate hfirst
    obtain rfl := ht.unique (fun _ _ _ _ h h' => h.unique h')
      (ht'.mono fun _ _ _ h => h.1)
    exact run_follows ht'

/-- The left shift key goes down and up again before the right one goes down. -/
theorem modifiers_follow_left_again :
    ∃ s : State ℕ, Run Step (initial fun _ => 0)
        [.press Modifier.shift.left, .release Modifier.shift.left,
          .press Modifier.shift.right] s ∧
      ∀ (first : List Code) (t : State ℕ), first <+: [.press Modifier.shift.left,
          .release Modifier.shift.left, .press Modifier.shift.right] →
        Run Step (initial fun _ => 0) first t → Follows t := by
  have hone : Run AloneStep (initial (τ := ℕ) fun _ => 0)
      ([] ++ [.press Modifier.shift.left] ++ [.release Modifier.shift.left] ++
        [.press Modifier.shift.right]) _ :=
    .snoc (.snoc (.snoc .nil ⟨.press _ _, trivial⟩)
      ⟨.release _ _ (by decide), by
        intro m
        cases m <;> decide⟩) ⟨.press _ _, trivial⟩
  have hrun := hone.mono fun _ _ _ h => h.1
  exact ⟨_, hrun, (modifiers_follow_iff hrun).mpr hone⟩

/-- Both shift keys go down and the left one goes up: the status says that
none is down. -/
theorem release_of_one_shift_clears_status :
    ¬ ∀ (codes : List Code) (s : State ℕ),
      Run Step (initial fun _ => 0) codes s → Follows s := by
  intro hall
  have hrun : Run Step (initial (τ := ℕ) fun _ => 0)
      ([] ++ [.press Modifier.shift.left] ++ [.press Modifier.shift.right] ++
        [.release Modifier.shift.left]) _ :=
    .snoc (.snoc (.snoc .nil (.press _ _)) (.press _ _))
      (.release _ _ (by decide))
  have hshift := (hall _ _ hrun .shift).mpr (Or.inr (by decide))
  revert hshift
  decide

end Keyboard
end OS32
