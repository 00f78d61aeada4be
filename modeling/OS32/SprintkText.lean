import OS32.SprintkTurns

/-!
# The text that `sprintk` leaves

For a format in which every `'%'` has a character after it, the pieces are the
literal characters and the renderings of the conversions, in order.
-/

namespace OS32

open Bytes KString Numeral
open Console (Uchar)

namespace Sprintk

variable {env : Env} {ap ap' : ℕ} {ps : List Piece}

/-! ## The format as a list -/

/-- The format has no `'%'` without a character after it. -/
inductive Matched : List Uchar → Prop
  | nil : Matched []
  | literal {c : Uchar} {f : List Uchar} : c ≠ 0x25 → Matched f →
      Matched (c :: f)
  | conversion {c : Uchar} {f : List Uchar} : Matched f →
      Matched (0x25 :: c :: f)

/-- The pieces for a format: its literal characters and the renderings of its
conversions, in order. -/
inductive Rendered (env : Env) : List Uchar → ℕ → List Piece → ℕ → Prop
  | nil {ap : ℕ} : Rendered env [] ap [] ap
  | literal {c : Uchar} {f : List Uchar} {ap ap' : ℕ} {ps : List Piece} :
      c ≠ 0x25 → Rendered env f ap ps ap' →
      Rendered env (c :: f) ap (.chr c :: ps) ap'
  | conversion {c : Uchar} {f : List Uchar} {ap ap₁ ap' : ℕ}
      {ps qs : List Piece} : Renders env c ap ps ap₁ →
      Rendered env f ap₁ qs ap' →
      Rendered env (0x25 :: c :: f) ap (ps ++ qs) ap'

theorem exists_rendered {f : List Uchar} {z : Uint} (hz : env.mem z = 0)
    (hf : Matched f) (ap : ℕ) : ∃ ps ap', Rendered env f ap ps ap' := by
  induction hf generalizing ap with
  | nil => exact ⟨_, _, .nil⟩
  | literal hc _ ih =>
      obtain ⟨ps, ap', hrest⟩ := ih ap
      exact ⟨_, _, .literal hc hrest⟩
  | @conversion c _ _ ih =>
      obtain ⟨ps, ap₁, hfirst⟩ := exists_renders hz c ap
      obtain ⟨qs, ap', hrest⟩ := ih ap₁
      exact ⟨_, _, .conversion hfirst hrest⟩

theorem Rendered.scans {f : List Uchar} {p : ℕ} (h : Rendered env f ap ps ap')
    (hnonzero : (0 : Uchar) ∉ f)
    (hf : ∀ i (hi : i < f.length), env.fmtAt (p + i) = f[i]) :
    ∃ k ≤ f.length, Scans env k p ap ps (p + f.length) ap' := by
  induction h generalizing p with
  | nil => exact ⟨0, le_rfl, .refl⟩
  | @literal c f ap ap' ps hc _ ih =>
      obtain ⟨hzero, hnonzero⟩ := List.ne_and_not_mem_of_not_mem_cons hnonzero
      have hhead : env.fmtAt p = c := hf 0 (Nat.succ_pos _)
      obtain ⟨k, hk, hscan⟩ := ih (p := p + 1) hnonzero fun i hi => by
        have hnext := hf (i + 1) (Nat.succ_lt_succ hi)
        rwa [← Nat.add_assoc, Nat.add_right_comm] at hnext
      refine ⟨k + 1, Nat.succ_le_succ hk, ?_⟩
      rw [List.length_cons, ← Nat.add_assoc, Nat.add_right_comm]
      have hstep := Scans.literal (hhead ▸ Ne.symm hzero) (hhead ▸ hc) hscan
      rwa [hhead] at hstep
  | @conversion c f ap ap₁ ap' ps qs hrenders _ ih =>
      have hpercent : env.fmtAt p = 0x25 := hf 0 (Nat.succ_pos _)
      have hchar : env.fmtAt (p + 1) = c := hf 1 (by simp)
      obtain ⟨k, hk, hscan⟩ := ih (p := p + 2)
        (fun hmem => hnonzero (.tail _ (.tail _ hmem))) fun i hi => by
          have hnext := hf (i + 2) (by simpa using hi)
          rwa [← Nat.add_assoc, Nat.add_right_comm] at hnext
      refine ⟨k + 1, ?_, ?_⟩
      · simp only [List.length_cons]
        omega
      · have hend : p + 2 + f.length =
            p + ((0x25 : Uchar) :: c :: f).length := by
          simp only [List.length_cons]
          omega
        rw [← hend]
        exact .conversion hpercent (hchar.symm ▸ hrenders) hscan

/-! ## The text -/

/-- A text shorter than the buffer is left there, and nothing behind it. -/
theorem sprintk_text {f : List Uchar} (hf : CString env.fmtAt f)
    (hr : Rendered env f 0 ps ap) (hnul : .chr 0 ∉ ps)
    (htotal : (output ps).length < 1024) (old : ℕ → Uchar) (tmp : Buffer)
    {fuel : ℕ} (hfuel : f.length < fuel) :
    ∃ s, sprintk env fuel old tmp = .ok s ∧
      CString s.buf.bytes (output ps) ∧
      ∀ i, (output ps).length ≤ i → i < 1024 → s.buf.bytes i = 0 := by
  obtain ⟨k, hk, hscan⟩ := hr.scans (p := 0) hf.nonzero fun i hi => by
    rw [Nat.zero_add]
    exact hf.chars i hi
  have hstart := start_clear old tmp
  have hfits : Fits 1024 ([] : List Uchar).length ps :=
    fits_of_lt (by simpa using htotal)
  obtain ⟨s, hturns, hp, _, hfilled⟩ :=
    Scans.turns (s := start old tmp) hscan hstart hfits
  have hend : env.fmtAt s.p = 0 := by
    rw [hp, Nat.zero_add]
    exact hf.nul
  have hbytes := hfilled.bytes
  rw [List.nil_append] at hbytes
  refine ⟨s, hturns.loop hend (by omega), ?_, ?_⟩
  · rw [hbytes]
    exact cstring_overlay (fun hzero => hnul (hscan.nonzero hzero))
      (hfilled.clear _ htotal)
  · intro i hi hlt
    rw [hbytes, overlay_of_le _ (by omega)]
    exact hfilled.clear i hlt

/-- The format `"%s=%d"` with the arguments `"x"` and `-5`. -/
def assignEnv : Env where
  mem a := [0x25, 0x73, 0x3D, 0x25, 0x64, 0, 0x78, 0][a.toNat]?.getD 0
  fmt := 0
  args i := if i = 0 then 6 else -5

theorem assignEnv_format :
    CString assignEnv.fmtAt [0x25, 0x73, 0x3D, 0x25, 0x64] :=
  ⟨by decide, by decide, by decide⟩

theorem sprintk_text_assign :
    ∃ s, sprintk assignEnv 6 (fun _ => 0x58) ⟨fun _ => 0, []⟩ = .ok s ∧
      CString s.buf.bytes [0x78, 0x3D, 0x2D, 0x35] ∧
      ∀ i, 4 ≤ i → i < 1024 → s.buf.bytes i = 0 := by
  have hname : CString (assignEnv.string 6) [0x78] :=
    ⟨by decide, by decide, by decide⟩
  have hfive : Text itoa 5 [0x35] :=
    (Digits.last (by decide)).text (by decide) (by decide)
  have hrendered : Rendered assignEnv [0x25, 0x73, 0x3D, 0x25, 0x64] 0
      ([.text [0x78]] ++ .chr 0x3D :: ([.chr 0x2D, .text [0x35]] ++ [])) 2 :=
    .conversion (.s hname) (.literal (by decide)
      (.conversion (.negative (.inl rfl) (by decide) hfive) .nil))
  exact sprintk_text assignEnv_format hrendered (by decide) (by decide) _ _ (by decide)

end Sprintk

end OS32
