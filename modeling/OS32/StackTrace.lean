import OS32.Elf
import OS32.PrintkScreen

/-!
# `panic` and the stack trace

`panic` prints a message and then, for each stack frame that the saved values
of `ebp` lead to, the return address with the function around it.  The walk
ends where a saved value is zero.
-/

namespace OS32

open Bytes KString
open Console (Uchar Terminal Window painted putAll rcBlack rcWhite)
open Elf (ascii elfLookupSymbol)
open Ia32 (read32)
open Sprintk (Env Piece Rendered output)

namespace Debug

def panicText : List Uchar := ascii "*** System panic: %s\n"
def traceText : List Uchar := ascii "eip:[0x%x],ebp:[0x%x] %s\n"
def endText : List Uchar := ascii "***\n"

/-- The kernel with the formats of `debug.c`. -/
structure Image extends Elf.Image where
  panicFmt : Uint
  traceFmt : Uint
  endFmt : Uint
  panic_string : CString (bytesAt mem panicFmt) panicText
  trace_string : CString (bytesAt mem traceFmt) traceText
  end_string : CString (bytesAt mem endFmt) endText

section Code

variable (img : Image)

/-- What a call of `printk` with these arguments reads. -/
def env (fmt : Uint) (args : List Uint) : Env where
  mem := img.mem
  fmt := fmt
  args i := args[i]?.getD 0

/-- The loop of `print_stack_trace`, ended after `fuel` turns; `tmp` is what the
calls of `sprintk` find on the stack. -/
def printStackTraceFrom (elf : Elf) (tmp : ℕ → Buffer) :
    ℕ → Uint → Kstdio.State → Except Fault Kstdio.State
  | 0, _, _ => .error .hang
  | fuel + 1, ebp, s =>
      if ebp ≠ 0 then do
        let eip := ebp + 4
        let s ← Kstdio.printk (env img img.traceFmt
          [read32 img.mem eip, read32 img.mem ebp,
            elfLookupSymbol img.toImage (read32 img.mem eip) elf])
          (tmp fuel) s
        printStackTraceFrom elf tmp fuel (read32 img.mem ebp) s
      else .ok s

/-- `panic` up to the loop that it ends in, with the frame pointer that
`print_stack_trace` reads. -/
def panic (elf : Elf) (tmp : ℕ → Buffer) (fuel : ℕ) (msg ebp : Uint)
    (s : Kstdio.State) : Except Fault Kstdio.State := do
  let s ← Kstdio.printk (env img img.panicFmt [msg]) (tmp (fuel + 1)) s
  let s ← printStackTraceFrom img elf tmp fuel ebp s
  Kstdio.printk (env img img.endFmt []) (tmp fuel) s

end Code

/-! ## Frames -/

/-- A return address and the frame pointer saved below it. -/
structure Frame where
  eip : Uint
  ebp : Uint

/-- The saved frame pointers lead from `ebp` through these frames to zero. -/
inductive Frames (mem : Memory) : Uint → List Frame → Prop
  | nil : Frames mem 0 []
  | cons {ebp : Uint} {frames : List Frame} : ebp ≠ 0 →
      Frames mem (read32 mem ebp) frames →
      Frames mem ebp (⟨read32 mem (ebp + 4), read32 mem ebp⟩ :: frames)

/-- The line for a frame: both words in hexadecimal and the name of the
function around the return address. -/
def Line (img : Image) (elf : Elf) (f : Frame) (line : List Uchar) : Prop :=
  ∃ eip ebp name, Numeral.IsNumeral 16 eip f.eip.toNat ∧
    Numeral.IsNumeral 16 ebp f.ebp.toNat ∧
    CString (bytesAt img.mem (elfLookupSymbol img.toImage f.eip elf)) name ∧
    line = ascii "eip:[0x" ++ eip ++ ascii "],ebp:[0x" ++ ebp ++
      ascii "] " ++ name ++ ascii "\n"

/-- Names leave room in `buf` for the rest of a line. -/
def ShortNames (img : Image) (elf : Elf) : Prop :=
  ∀ addr, ∃ name, name.length < 980 ∧
    CString (bytesAt img.mem (elfLookupSymbol img.toImage addr elf)) name

variable {img : Image} {elf : Elf}

/-! ## The texts of the calls -/

theorem rendered_literal {e : Env} {l f : List Uchar} {ap ap' : ℕ}
    {ps : List Piece} (hl : (0x25 : Uchar) ∉ l)
    (hf : Rendered e f ap ps ap') :
    Rendered e (l ++ f) ap (l.map .chr ++ ps) ap' := by
  induction l with
  | nil => exact hf
  | cons c l ih =>
      obtain ⟨hc, hl⟩ := List.ne_and_not_mem_of_not_mem_cons hl
      exact .literal (Ne.symm hc) (ih hl)

@[simp] theorem output_literal (l : List Uchar) : output (l.map .chr) = l := by
  induction l with
  | nil => rfl
  | cons c l ih =>
      rw [List.map_cons, Sprintk.output_chr, ih]

/-- A rendering without `'\0'` is the whole text. -/
theorem text_of_rendered {e : Env} {f : List Uchar} {ps : List Piece} {ap : ℕ}
    (hf : CString e.fmtAt f) (hr : Rendered e f 0 ps ap)
    (hnonzero : (0 : Uchar) ∉ output ps) (htotal : (output ps).length < 1024) :
    Kstdio.Text e (output ps) := by
  refine ⟨f, ps, ap, hf, hr, htotal, (List.takeWhile_eq_self_iff.mpr ?_).symm⟩
  intro c hc
  simpa using fun hzero : c = 0 => hnonzero (hzero ▸ hc)

theorem numeral_nonzero {base n : ℕ} {t : List Uchar}
    (ht : Numeral.IsNumeral base t n) : (0 : Uchar) ∉ t :=
  fun hzero => (ht.digits 0 hzero).ne_zero rfl

theorem exists_hex (x : Uint) : ∃ t, Numeral.Text Numeral.toHex x t ∧
    t.length ≤ 8 ∧ Numeral.IsNumeral 16 t x.toNat := by
  obtain ⟨l, _, hlength, ht, hnumeral⟩ := Numeral.toHex_digits x
  exact ⟨_, ht, by rwa [List.length_reverse], hnumeral⟩

theorem traceText_split : traceText =
    ascii "eip:[0x" ++ 0x25 :: 0x78 :: (ascii "],ebp:[0x" ++
      0x25 :: 0x78 :: (ascii "] " ++ 0x25 :: 0x73 :: (ascii "\n" ++ []))) := by
  decide

/-- Each turn prints the line of its frame. -/
theorem trace_text (hshort : ShortNames img elf) (f : Frame) :
    ∃ line, Line img elf f line ∧ Kstdio.Text (env img img.traceFmt
      [f.eip, f.ebp, elfLookupSymbol img.toImage f.eip elf]) line := by
  obtain ⟨eip, heip, heiplen, heipnum⟩ := exists_hex f.eip
  obtain ⟨ebp, hebp, hebplen, hebpnum⟩ := exists_hex f.ebp
  obtain ⟨name, hnamelen, hname⟩ := hshort f.eip
  have hr : Rendered (env img img.traceFmt
      [f.eip, f.ebp, elfLookupSymbol img.toImage f.eip elf]) traceText 0
      ((ascii "eip:[0x").map .chr ++ ([.text eip] ++
        ((ascii "],ebp:[0x").map .chr ++ ([.text ebp] ++
          ((ascii "] ").map .chr ++ ([.text name] ++
            ((ascii "\n").map .chr ++ []))))))) 3 := by
    rw [traceText_split]
    exact rendered_literal (by decide) (.conversion (.x heip)
      (rendered_literal (by decide) (.conversion (.x hebp)
        (rendered_literal (by decide) (.conversion (.s hname)
          (rendered_literal (by decide) .nil))))))
  have houtput : output ((ascii "eip:[0x").map .chr ++ ([.text eip] ++
        ((ascii "],ebp:[0x").map .chr ++ ([.text ebp] ++
          ((ascii "] ").map .chr ++ ([.text name] ++
            ((ascii "\n").map .chr ++ []))))))) =
      ascii "eip:[0x" ++ eip ++ ascii "],ebp:[0x" ++ ebp ++
        ascii "] " ++ name ++ ascii "\n" := by
    simp
  refine ⟨_, ⟨eip, ebp, name, heipnum, hebpnum, hname, rfl⟩, ?_⟩
  rw [← houtput]
  refine text_of_rendered img.trace_string hr ?_ ?_
  · rw [houtput]
    simp only [List.mem_append, not_or]
    exact ⟨⟨⟨⟨⟨⟨by decide, numeral_nonzero heipnum⟩, by decide⟩,
      numeral_nonzero hebpnum⟩, by decide⟩, hname.nonzero⟩, by decide⟩
  · have hlits : (ascii "eip:[0x").length = 7 ∧
        (ascii "],ebp:[0x").length = 9 ∧ (ascii "] ").length = 2 ∧
        (ascii "\n").length = 1 := by decide
    rw [houtput]
    simp only [List.length_append]
    omega

theorem panic_text {msg : Uint} {text : List Uchar}
    (hmsg : CString (bytesAt img.mem msg) text) (hshort : text.length < 1000) :
    Kstdio.Text (env img img.panicFmt [msg])
      (ascii "*** System panic: " ++ text ++ ascii "\n") := by
  have hr : Rendered (env img img.panicFmt [msg]) panicText 0
      ((ascii "*** System panic: ").map .chr ++ ([.text text] ++
        ((ascii "\n").map .chr ++ []))) 1 := by
    have hsplit : panicText = ascii "*** System panic: " ++
        0x25 :: 0x73 :: (ascii "\n" ++ []) := by decide
    rw [hsplit]
    exact rendered_literal (by decide) (.conversion (.s hmsg)
      (rendered_literal (by decide) .nil))
  have houtput : output ((ascii "*** System panic: ").map .chr ++
      ([.text text] ++ ((ascii "\n").map .chr ++ []))) =
      ascii "*** System panic: " ++ text ++ ascii "\n" := by
    simp
  rw [← houtput]
  refine text_of_rendered img.panic_string hr ?_ ?_
  · rw [houtput]
    simp only [List.mem_append, not_or]
    exact ⟨⟨by decide, hmsg.nonzero⟩, by decide⟩
  · have hlits : (ascii "*** System panic: ").length = 18 ∧
        (ascii "\n").length = 1 := by decide
    rw [houtput]
    simp only [List.length_append]
    omega

theorem end_text : Kstdio.Text (env img img.endFmt []) endText := by
  have hr : Rendered (env img img.endFmt []) (endText ++ []) 0
      (endText.map .chr ++ []) 0 := rendered_literal (by decide) .nil
  rw [List.append_nil, List.append_nil] at hr
  have htext := text_of_rendered (e := env img img.endFmt [])
    img.end_string hr
  rw [output_literal] at htext
  exact htext (by decide) (by decide)

/-! ## The walk -/

/-- The walk prints a line for each frame, in order. -/
theorem Frames.trace (hshort : ShortNames img elf) {ebp : Uint}
    {frames : List Frame} (hframes : Frames img.mem ebp frames)
    (tmp : ℕ → Buffer) {fuel : ℕ} (hfuel : frames.length < fuel)
    (s : Kstdio.State) : ∃ s' lines,
      printStackTraceFrom img elf tmp fuel ebp s = .ok s' ∧
        List.Forall₂ (Line img elf) frames lines ∧
        s'.screen = putAll s.screen (painted rcWhite rcBlack lines.flatten) := by
  induction hframes generalizing fuel s with
  | nil =>
      obtain ⟨fuel, rfl⟩ := Nat.exists_eq_add_one.mpr hfuel
      exact ⟨s, [], rfl, .nil, rfl⟩
  | @cons ebp frames hebp _ ih =>
      obtain ⟨fuel, rfl⟩ := Nat.exists_eq_add_one.mpr (Nat.zero_lt_of_lt hfuel)
      obtain ⟨line, hline, htext⟩ := trace_text hshort
        ⟨read32 img.mem (ebp + 4), read32 img.mem ebp⟩
      obtain ⟨next, hnext, hscreen⟩ := htext.printkColor rcWhite rcBlack
        (tmp fuel) s
      obtain ⟨s', lines, hrest, hlines, hshown⟩ :=
        ih (Nat.lt_of_succ_lt_succ hfuel) next
      refine ⟨s', line :: lines, ?_, .cons hline hlines, ?_⟩
      · unfold printStackTraceFrom
        rw [if_pos hebp]
        change (Kstdio.printkColor rcWhite rcBlack _ _ s).bind _ = _
        rw [hnext]
        exact hrest
      · rw [hshown, hscreen, List.flatten_cons]
        simp [putAll, painted, List.foldl_append]

/-- A walk that returns has come to zero. -/
theorem frames_of_trace {tmp : ℕ → Buffer} {fuel : ℕ} {ebp : Uint}
    {s s' : Kstdio.State}
    (hrun : printStackTraceFrom img elf tmp fuel ebp s = .ok s') :
    ∃ frames, Frames img.mem ebp frames := by
  induction fuel generalizing ebp s with
  | zero => cases hrun
  | succ fuel ih =>
      unfold printStackTraceFrom at hrun
      by_cases hebp : ebp = 0
      · subst hebp
        exact ⟨[], .nil⟩
      · rw [if_pos hebp] at hrun
        obtain ⟨next, _, hrest⟩ := bind_ok_iff.mp hrun
        obtain ⟨frames, hframes⟩ := ih hrest
        exact ⟨_, .cons hebp hframes⟩

/-! ## `panic` -/

/-- The bytes of the small symbol table, followed by the formats, a message and
two frames; the return address of the first one, `0x1004`, is in a function. -/
def tracedBytes : List Uchar :=
  Elf.tinyBytes ++ panicText ++ [0] ++ traceText ++ [0] ++ endText ++ [0] ++
    ascii "no memory" ++ [0] ++
    [229, 0, 0, 0, 4, 16, 0, 0, 0, 0, 0, 0, 0, 32, 0, 0]

def tracedImage : Image where
  mem a := tracedBytes[a.toNat % 2 ^ 30]?.getD 0
  strtabName := 124
  symtabName := 132
  strtab_string := ⟨by decide, by decide, by decide⟩
  symtab_string := ⟨by decide, by decide, by decide⟩
  panicFmt := 158
  traceFmt := 180
  endFmt := 206
  panic_string := ⟨by decide, by decide, by decide⟩
  trace_string := ⟨by decide, by decide, by decide⟩
  end_string := ⟨by decide, by decide, by decide⟩

theorem tracedImage_describes : Elf.Describes tracedImage.toImage 0
    [⟨Elf.strtabText, 124, 18⟩, ⟨Elf.symtabText, 142, 16⟩] := by
  refine ⟨by decide, fun i hi => ?_, by decide, by decide⟩
  match i, hi with
  | 0, _ =>
      change CString (bytesAt tracedImage.mem (124 + PAGE_OFFSET)) Elf.strtabText
      exact ⟨by decide, by decide, by decide⟩
  | 1, _ =>
      change CString (bytesAt tracedImage.mem (132 + PAGE_OFFSET)) Elf.symtabText
      exact ⟨by decide, by decide, by decide⟩

/-- NULL points to an empty string here. -/
theorem tracedImage_names : ShortNames tracedImage (Elf.located
    [⟨Elf.strtabText, 124, 18⟩, ⟨Elf.symtabText, 142, 16⟩] ⟨0, 0, 0, 0⟩) := by
  intro addr
  by_cases hcovers : Elf.Covers tracedImage.toImage (Elf.located
      [⟨Elf.strtabText, 124, 18⟩, ⟨Elf.symtabText, 142, 16⟩] ⟨0, 0, 0, 0⟩) addr 0
  · refine ⟨[0x66], by decide, ?_⟩
    rw [Elf.elfLookupSymbol_of_first ⟨by decide, hcovers, by simp⟩]
    exact ⟨by decide, by decide, by decide⟩
  · refine ⟨[], by decide, ?_⟩
    rw [Elf.elfLookupSymbol_of_none]
    · exact ⟨by decide, by decide, by decide⟩
    · intro i hi
      obtain rfl : i = 0 := Nat.lt_one_iff.mp hi
      exact hcovers

end Debug

end OS32
