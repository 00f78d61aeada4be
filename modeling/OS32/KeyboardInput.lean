import OS32.Keyboard

/-!
# From the keys to `ioq_getchar`

What is typed goes through the codes of the keyboard, `kbd_handler`, the queue
`kbd_buf` and `ioq_getchar`.  A typist's view of all this has a shift that the
last code of a shift key has set or cleared, a capital lock, and a queue of
characters with 1023 places.
-/

namespace OS32

open Transition

namespace Keyboard

open Ioq

/-! ## The typist's view -/

def capslock : Key := ⟨false, 0x3a, by decide, by decide⟩

def IsLetter (c : Byte) : Prop := 0x61 ≤ c ∧ c ≤ 0x7a

instance (c : Byte) : Decidable (IsLetter c) :=
  inferInstanceAs (Decidable (_ ∧ _))

/-- What a key types: of its two characters the second one if shift is on, and
for letters if just one of shift and the capital lock is on. -/
def Key.types (key : Key) (shift caps : Bool) : Option Byte :=
  let entry := keymap.getD key.code.toNat (0, 0)
  if key.ext ∨ entry.1 = 0 then none
  else if (if IsLetter entry.1 then shift != caps else shift) then
    some entry.2
  else some entry.1

/-- Shift, the capital lock, the characters typed and not read, and those
read. -/
structure Typed where
  shift : Bool
  caps : Bool
  waiting : List Byte
  got : List Byte

inductive Act where
  | code (code : Code)
  | getchar

/-- A character finds a place, or is lost. -/
def Typed.enqueue (a : Typed) (c : Byte) : Typed :=
  if a.waiting.length < 1023 then { a with waiting := a.waiting ++ [c] } else a

def Typed.press (a : Typed) (key : Key) : Typed :=
  let a := match key.types a.shift a.caps with
    | some c => a.enqueue c
    | none => a
  { a with
    caps := if key = capslock then !a.caps else a.caps
    shift := if key.IsFor .shift then true else a.shift }

inductive TypedStep : Typed → Act → Typed → Prop
  | press (a : Typed) (key : Key) : TypedStep a (.code (.press key)) (a.press key)
  | release (a : Typed) (key : Key) : TypedStep a (.code (.release key))
      { a with shift := if key.IsFor .shift then false else a.shift }
  | getchar (a : Typed) (c : Byte) (rest : List Byte) : a.waiting = c :: rest →
      TypedStep a .getchar { a with waiting := rest, got := a.got ++ [c] }

/-! ## The driver and its reader -/

/-- The driver, the keys that are down and the characters read so far. -/
structure Session (τ : Type*) where
  state : State τ
  got : List Byte

variable {τ : Type*}

/-- Complete codes come in, and a reader takes characters that are there. -/
inductive SessionStep : Session τ → Act → Session τ → Prop
  | code (s : Session τ) (code : Code) (t : State τ) :
      Step s.state code t → SessionStep s (.code code) ⟨t, s.got⟩
  | getchar (s : Session τ) : ioqEmpty s.state.kbd.kbdBuf = false →
      SessionStep s .getchar
        ⟨{ s.state with kbd := { s.state.kbd with
            kbdBuf := (ioqGetchar s.state.kbd.kbdBuf).2.1 } },
          s.got ++ [(ioqGetchar s.state.kbd.kbdBuf).1]⟩

/-- The driver does what the typist sees. -/
structure Sees (s : Session τ) (a : Typed) : Prop where
  got : a.got = s.got
  shift : a.shift = true ↔ s.state.kbd.shiftStatus ≠ 0
  caps : a.caps = true ↔ s.state.kbd.capslockStatus ≠ 0
  extStatus : s.state.kbd.extStatus = 0
  queue : Ioq.Inv ⟨s.state.kbd.kbdBuf, s.got ++ a.waiting, s.got⟩

/-! ## One key -/

/-- `Kbd.shiftOf` as a function of the two statuses. -/
def shiftFor (shift caps : Bool) (scancode : Ushort) : Bool :=
  if scancode < 0x0e ∨ scancode = 0x29 ∨
      scancode = 0x1a ∨ scancode = 0x1b ∨
      scancode = 0x2b ∨ scancode = 0x27 ∨
      scancode = 0x28 ∨ scancode = 0x33 ∨
      scancode = 0x34 ∨ scancode = 0x35 then shift
  else shift != caps

theorem shiftOf_eq (kbd : Kbd τ) (scancode : Ushort) :
    kbd.shiftOf scancode = shiftFor (kbd.shiftStatus ≠ 0)
      (kbd.capslockStatus ≠ 0) scancode := by
  unfold Kbd.shiftOf shiftFor
  split
  · rfl
  · by_cases hshift : kbd.shiftStatus = 0 <;>
      by_cases hcaps : kbd.capslockStatus = 0 <;> simp [hshift, hcaps]

/-- The code points of the keys: what `onMake` looks up is what the typist
expects, and the capital lock has a code of its own. -/
theorem types_facts : ∀ (ext : Bool) (code : Byte), code &&& 0x80 = 0 →
    (∀ shift caps : Bool,
      (if Kbd.inKeymap (merged ext code) then
        Kbd.keymapAt (merged ext code &&& 0x00ff)
          (shiftFor shift caps (merged ext code))
      else 0) =
        (if ext = true ∨ (keymap.getD code.toNat (0, 0)).1 = 0 then 0
        else if (if IsLetter (keymap.getD code.toNat (0, 0)).1 then
            shift != caps else shift) then (keymap.getD code.toNat (0, 0)).2
        else (keymap.getD code.toNat (0, 0)).1)) ∧
      ((keymap.getD code.toNat (0, 0)).1 ≠ 0 →
        (keymap.getD code.toNat (0, 0)).2 ≠ 0) := by
  decide +kernel

/-- The character that `onScancode` finds for a make code, 0 for none. -/
def Key.char (key : Key) (shift caps : Bool) : Byte :=
  if Kbd.inKeymap (merged key.ext key.code) then
    Kbd.keymapAt (merged key.ext key.code &&& 0x00ff)
      (shiftFor shift caps (merged key.ext key.code))
  else 0

theorem Key.types_eq (key : Key) (shift caps : Bool) :
    key.types shift caps =
      if key.char shift caps = 0 then none else some (key.char shift caps) := by
  obtain ⟨ext, code, hsmall, hne⟩ := key
  obtain ⟨hchar, hsecond⟩ := types_facts ext code hsmall
  unfold Key.types Key.char
  rw [hchar shift caps]
  dsimp only
  by_cases hnone : ext = true ∨ (keymap.getD code.toNat (0, 0)).1 = 0
  · rw [if_pos hnone, if_pos hnone, if_pos rfl]
  · rw [if_neg hnone, if_neg hnone]
    have hfirst := (not_or.mp hnone).2
    generalize keymap.getD code.toNat (0, 0) = entry at *
    have hpick : ∀ b : Bool, (if b then some entry.2 else some entry.1) =
        if (if b then entry.2 else entry.1) = 0 then none
        else some (if b then entry.2 else entry.1) := by
      intro b
      cases b
      · exact (if_neg hfirst).symm
      · exact (if_neg (hsecond hfirst)).symm
    exact hpick _

namespace Kbd

theorem onMake_kbdBuf (kbd : Kbd τ) (scancode : Ushort) :
    (kbd.onMake scancode).kbdBuf =
      if keymapAt (scancode &&& 0x00ff) (kbd.shiftOf scancode) = 0 then
        kbd.kbdBuf
      else if ioqFull kbd.kbdBuf then kbd.kbdBuf
      else (ioqPutchar kbd.kbdBuf
        (keymapAt (scancode &&& 0x00ff) (kbd.shiftOf scancode))).1 := by
  unfold onMake
  dsimp only
  by_cases hchar : keymapAt (scancode &&& 0x00ff) (kbd.shiftOf scancode) = 0
  · rw [if_neg (not_not.mpr hchar), if_pos hchar]
    split_ifs <;> rfl
  · rw [if_pos hchar, if_neg hchar]
    split_ifs <;> rfl

theorem onMake_capslockStatus (kbd : Kbd τ) (scancode : Ushort) :
    (kbd.onMake scancode).capslockStatus =
      if scancode &&& 0x00ff = capslock_make then
        (if kbd.capslockStatus = 0 then 1 else 0)
      else kbd.capslockStatus := by
  unfold onMake
  dsimp only
  generalize kbd.shiftOf scancode = shift
  generalize scancode &&& 0x00ff = index
  by_cases hcaps : index = capslock_make
  · subst hcaps
    have hnone : keymapAt capslock_make shift = 0 := by
      cases shift <;> decide
    rw [if_neg (not_not.mpr hnone), if_neg (by decide), if_neg (by decide),
      if_neg (by decide), if_pos rfl, if_pos rfl]
  · rw [if_neg hcaps, if_neg hcaps]
    split_ifs <;> rfl

theorem onBreak_kbdBuf (kbd : Kbd τ) (makeCode : Ushort) :
    (kbd.onBreak makeCode).kbdBuf = kbd.kbdBuf ∧
      (kbd.onBreak makeCode).capslockStatus = kbd.capslockStatus := by
  unfold onBreak
  dsimp only
  split_ifs <;> exact ⟨rfl, rfl⟩

end Kbd

theorem capslock_facts : ∀ (ext : Bool) (code : Byte), code &&& 0x80 = 0 →
    (Kbd.inKeymap (merged ext code) = true ∧
      merged ext code &&& 0x00ff = capslock_make ↔
        ext = false ∧ code = 0x3a) := by
  decide +kernel

theorem Key.eq_capslock_iff (key : Key) : key = capslock ↔
    Kbd.inKeymap (merged key.ext key.code) = true ∧
      merged key.ext key.code &&& 0x00ff = capslock_make := by
  obtain ⟨ext, code, hsmall, hne⟩ := key
  rw [capslock_facts ext code hsmall]
  simp [capslock]

/-- A press puts the character of the key into the queue, unless it is full. -/
theorem receive_press_kbdBuf {kbd : Kbd τ} (hext : kbd.extStatus = 0)
    (key : Key) : (receive kbd (.press key)).kbdBuf =
      match key.types (kbd.shiftStatus ≠ 0) (kbd.capslockStatus ≠ 0) with
      | some c => if ioqFull kbd.kbdBuf then kbd.kbdBuf
          else (ioqPutchar kbd.kbdBuf c).1
      | none => kbd.kbdBuf := by
  rcases makeCode_facts key.ext key.code key.small with ⟨hmake, _, _⟩
  rw [key.types_eq]
  unfold receive Code.bytes Key.char
  rw [merge_bytes hext _ (release_ne_lead _ key.small key.ne_prefix).1,
    Kbd.onScancode, if_neg (not_not.mpr hmake)]
  by_cases hin : Kbd.inKeymap (merged key.ext key.code) = true
  · rw [if_pos hin, if_pos hin, Kbd.onMake_kbdBuf, shiftOf_eq]
    split_ifs <;> rfl
  · rw [if_neg hin, if_neg hin, if_pos rfl]

theorem receive_press_caps {kbd : Kbd τ} (hext : kbd.extStatus = 0)
    (key : Key) : (receive kbd (.press key)).capslockStatus =
      if key = capslock then (if kbd.capslockStatus = 0 then 1 else 0)
      else kbd.capslockStatus := by
  rcases makeCode_facts key.ext key.code key.small with ⟨hmake, _, _⟩
  have hcaps := key.eq_capslock_iff
  unfold receive Code.bytes
  rw [merge_bytes hext _ (release_ne_lead _ key.small key.ne_prefix).1,
    Kbd.onScancode, if_neg (not_not.mpr hmake)]
  by_cases hin : Kbd.inKeymap (merged key.ext key.code) = true
  · rw [if_pos hin, Kbd.onMake_capslockStatus]
    refine if_congr ?_ rfl rfl
    rw [hcaps]
    exact (and_iff_right hin).symm
  · rw [if_neg hin, if_neg fun h => hin (hcaps.mp h).1]

theorem receive_release_kbdBuf {kbd : Kbd τ} (hext : kbd.extStatus = 0)
    (key : Key) : (receive kbd (.release key)).kbdBuf = kbd.kbdBuf ∧
      (receive kbd (.release key)).capslockStatus = kbd.capslockStatus := by
  rcases makeCode_facts key.ext key.code key.small with ⟨_, hbreak, _⟩
  unfold receive Code.bytes
  rw [merge_bytes hext _ (release_ne_lead _ key.small key.ne_prefix).2,
    Kbd.onScancode, if_pos hbreak]
  exact Kbd.onBreak_kbdBuf _ _

/-! ## Steps -/

variable {s t : Session τ} {a : Typed}

/-- The typist and the driver pick the same character. -/
theorem Sees.types_eq (hs : Sees s a) (key : Key) :
    key.types (s.state.kbd.shiftStatus ≠ 0) (s.state.kbd.capslockStatus ≠ 0) =
      key.types a.shift a.caps := by
  have hshift : decide (s.state.kbd.shiftStatus ≠ 0) = a.shift :=
    Bool.eq_iff_iff.mpr (by simpa using hs.shift.symm)
  have hcaps : decide (s.state.kbd.capslockStatus ≠ 0) = a.caps :=
    Bool.eq_iff_iff.mpr (by simpa using hs.caps.symm)
  rw [hshift, hcaps]

theorem Sees.full_iff (hs : Sees s a) :
    ioqFull s.state.kbd.kbdBuf = true ↔ ¬ a.waiting.length < 1023 := by
  have hroom := hs.queue.room
  have hfull := hs.queue.full_iff
  simp only [List.length_append] at hroom hfull
  rw [hfull]
  omega

/-- The queue after a press. -/
theorem Sees.queue_press (hs : Sees s a) (key : Key) :
    Ioq.Inv ⟨(receive s.state.kbd (.press key)).kbdBuf,
      s.got ++ (a.press key).waiting, s.got⟩ := by
  rw [receive_press_kbdBuf hs.extStatus, hs.types_eq]
  unfold Typed.press
  cases htypes : key.types a.shift a.caps with
  | none => exact hs.queue
  | some c =>
      dsimp only [Typed.enqueue]
      by_cases hroom : a.waiting.length < 1023
      · have hfull : ¬ ioqFull s.state.kbd.kbdBuf = true :=
          fun h => hs.full_iff.mp h hroom
        rw [if_neg hfull, if_pos hroom, ← List.append_assoc]
        apply hs.queue.put
        rw [Ioq.step, if_neg hfull]
      · rw [if_pos (hs.full_iff.mpr hroom), if_neg hroom]
        exact hs.queue

/-- A press changes the waiting characters, the capital lock and shift. -/
theorem Typed.press_fields (a : Typed) (key : Key) :
    (a.press key).shift = (if key.IsFor .shift then true else a.shift) ∧
      (a.press key).got = a.got ∧
      (a.press key).caps = if key = capslock then !a.caps else a.caps := by
  unfold Typed.press Typed.enqueue
  cases key.types a.shift a.caps with
  | none => exact ⟨rfl, rfl, rfl⟩
  | some c =>
      dsimp only
      split_ifs <;> exact ⟨rfl, rfl, rfl⟩

theorem Sees.press (hs : Sees s a) (key : Key) :
    Sees ⟨⟨receive s.state.kbd (.press key),
      Function.update s.state.down key true⟩, s.got⟩ (a.press key) := by
  obtain ⟨hshift, hgot, hlock⟩ := a.press_fields key
  refine ⟨hgot.trans hs.got, ?_, ?_, receive_extStatus hs.extStatus _,
    hs.queue_press key⟩
  · have hstatus := receive_press hs.extStatus key .shift
    change (receive s.state.kbd (.press key)).shiftStatus = _ at hstatus
    rw [hshift]
    dsimp only
    rw [hstatus]
    by_cases hkey : key.IsFor .shift
    · rw [if_pos hkey, if_pos hkey]
      exact iff_of_true rfl one_ne_zero
    · rw [if_neg hkey, if_neg hkey]
      exact hs.shift
  · rw [hlock]
    dsimp only
    rw [receive_press_caps hs.extStatus]
    have hcaps := hs.caps
    by_cases hkey : key = capslock
    · rw [if_pos hkey, if_pos hkey]
      by_cases hzero : s.state.kbd.capslockStatus = 0 <;>
        cases hvalue : a.caps <;> simp_all
    · rw [if_neg hkey, if_neg hkey]
      exact hcaps

theorem Sees.release (hs : Sees s a) (key : Key) :
    Sees ⟨⟨receive s.state.kbd (.release key),
      Function.update s.state.down key false⟩, s.got⟩
      { a with shift := if key.IsFor .shift then false else a.shift } := by
  obtain ⟨hbuf, hcaps⟩ := receive_release_kbdBuf hs.extStatus key
  refine ⟨hs.got, ?_, ?_, receive_extStatus hs.extStatus _, ?_⟩
  · have hstatus := receive_release hs.extStatus key .shift
    change (receive s.state.kbd (.release key)).shiftStatus = _ at hstatus
    dsimp only
    rw [hstatus]
    by_cases hkey : key.IsFor .shift
    · rw [if_pos hkey, if_pos hkey]
      exact iff_of_false Bool.false_ne_true (not_not.mpr rfl)
    · rw [if_neg hkey, if_neg hkey]
      exact hs.shift
  · dsimp only
    rw [hcaps]
    exact hs.caps
  · dsimp only
    rw [hbuf]
    exact hs.queue

/-- A reader gets the first of the waiting characters. -/
theorem Sees.getchar (hs : Sees s a)
    (hempty : ioqEmpty s.state.kbd.kbdBuf = false) :
    ∃ c rest, a.waiting = c :: rest ∧
      Sees ⟨{ s.state with kbd := { s.state.kbd with
          kbdBuf := (ioqGetchar s.state.kbd.kbdBuf).2.1 } },
        s.got ++ [(ioqGetchar s.state.kbd.kbdBuf).1]⟩
        { a with waiting := rest, got := a.got ++ [c] } := by
  have hnone : ¬ ioqEmpty s.state.kbd.kbdBuf = true := by
    rw [hempty]
    exact Bool.false_ne_true
  have hnext : Ioq.Inv ⟨(ioqGetchar s.state.kbd.kbdBuf).2.1,
      s.got ++ a.waiting, s.got ++ [(ioqGetchar s.state.kbd.kbdBuf).1]⟩ := by
    apply hs.queue.get
    rw [Ioq.step, if_neg hnone]
  cases hwaiting : a.waiting with
  | nil =>
      have hempty_iff := hs.queue.empty_iff
      simp [hwaiting, hempty] at hempty_iff
  | cons c rest =>
      have horder := hnext.order
      rw [hwaiting, ← List.singleton_append, ← List.append_assoc] at horder
      have hsame : s.got ++ [(ioqGetchar s.state.kbd.kbdBuf).1] =
          s.got ++ [c] := by
        refine List.IsPrefix.eq_of_length ?_ (by simp)
        exact List.prefix_of_prefix_length_le horder
          (List.prefix_append _ _) (by simp)
      refine ⟨c, rest, rfl, ?_, hs.shift, hs.caps, hs.extStatus, ?_⟩
      · dsimp only
        rw [hsame, hs.got]
      · rw [hwaiting, ← List.singleton_append, ← List.append_assoc] at hnext
        dsimp only at hnext ⊢
        rwa [hsame] at hnext ⊢

/-! ## Runs -/

def Typed.initial : Typed := ⟨false, false, [], []⟩

/-- After `init_kbd`. -/
def Session.initial (buf : ℤ → Byte) : Session τ := ⟨Keyboard.initial buf, []⟩

theorem initial_sees (buf : ℤ → Byte) :
    Sees (Session.initial (τ := τ) buf) .initial := by
  refine ⟨rfl, ?_, ?_, rfl, initial_inv buf⟩
  · simp [Typed.initial, Session.initial, Keyboard.initial]
  · simp [Typed.initial, Session.initial, Keyboard.initial]

theorem Sees.step {act : Act} (hs : Sees s a) (hstep : SessionStep s act t) :
    ∃ b, TypedStep a act b ∧ Sees t b := by
  cases hstep with
  | code code u hcode =>
      cases hcode with
      | press key => exact ⟨_, .press a key, hs.press key⟩
      | release key _ => exact ⟨_, .release a key, hs.release key⟩
  | getchar hempty =>
      obtain ⟨c, rest, hwaiting, hnext⟩ := hs.getchar hempty
      exact ⟨_, .getchar a c rest hwaiting, hnext⟩

def letterA : Key := ⟨false, 0x1e, by decide, by decide⟩

end Keyboard
end OS32
