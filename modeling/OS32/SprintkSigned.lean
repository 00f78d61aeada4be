import OS32.SprintkTurns

/-!
# Signed numbers in `sprintk`

`%d` and `%l` print the sign and then the negated number.  One number stays
negative when it is negated.
-/

namespace OS32

open Bytes KString Numeral
open Console (Uchar)

namespace Sprintk

variable {env : Env} {s s' : State} {t : List Uchar} {c : Uchar} {k : ℕ}
  {old : ℕ → Uchar} {tmp : Buffer}

/-- `t` is the decimal numeral of `x`, with a `'-'` in front if `x` is
negative. -/
def IsDecimal (x : Uint) (t : List Uchar) : Prop :=
  (∃ n : ℕ, x.toInt = n ∧ IsNumeral 10 t n) ∨
    ∃ (n : ℕ) (u : List Uchar), t = 0x2D :: u ∧ x.toInt = -n ∧ 0 < n ∧
      IsNumeral 10 u n

/-- The number of characters of that numeral. -/
def decimalLength (x : Uint) : ℕ :=
  Nat.log 10 x.toInt.natAbs + if x.toInt < 0 then 2 else 1

/-- The turn puts the decimal numeral of its argument into the buffer. -/
def PrintsDecimal (env : Env) (s : State) : Prop :=
  ∃ s' t, turn env s = .ok (some s') ∧ s'.loc = s.loc + t.length ∧
    CString (fun i => s'.buf.bytes (s.loc + i)) t ∧
    IsDecimal (env.args s.ap) t

theorem toInt_of_neg {x : Uint} (hx : x.toInt < 0) :
    x.toInt = -((-x).toNat : ℤ) ∧ 0 < (-x).toNat := by
  have hbound := x.isLt
  rw [BitVec.toNat_neg]
  rw [BitVec.toInt_eq_toNat_cond] at hx ⊢
  split at hx
  next => omega
  next hle =>
    rw [if_neg hle, Nat.mod_eq_of_lt (by omega)]
    omega

theorem minText_not_numeral (n : ℕ) : ¬ IsNumeral 10 minText n := fun hnum =>
  absurd (hnum.digits 0x2E (by decide)) (by decide)

theorem sign_not_numeral (u : List Uchar) (n : ℕ) :
    ¬ IsNumeral 10 (0x2D :: u) n := fun hnum =>
  absurd (hnum.digits 0x2D List.mem_cons_self) (by decide)

theorem minText_not_decimal (x : Uint) : ¬ IsDecimal x (0x2D :: minText) := by
  rintro (⟨n, _, hnum⟩ | ⟨n, u, hu, _, _, hnum⟩)
  · exact sign_not_numeral _ n hnum
  · obtain rfl := (List.cons.inj hu).2
    exact minText_not_numeral n hnum

theorem decimal_of_nonneg {x : Uint} (hsign : 0 ≤ x.toInt)
    (ht : Text itoa x t) : t.length = decimalLength x ∧ IsDecimal x t := by
  have hlt := toNat_of_nonneg hsign
  have hvalue : x.toInt = x.toNat := by
    rw [BitVec.toInt_eq_toNat_of_msb]
    rw [BitVec.msb_eq_false_iff_two_mul_lt]
    omega
  obtain ⟨u, hu, _, hlength, hnum⟩ := itoa_text hlt
  obtain rfl := ht.unique hu
  refine ⟨?_, .inl ⟨_, hvalue, hnum⟩⟩
  unfold decimalLength
  rw [if_neg (not_lt.mpr hsign), hvalue, Int.natAbs_natCast, hlength]

theorem decimal_of_neg {x : Uint} (hsign : x.toInt < 0)
    (hmin : x ≠ 0x80000000) (ht : Text itoa (-x) t) :
    t.length + 1 = decimalLength x ∧ IsDecimal x (0x2D :: t) := by
  have hlt : (-x).toNat < 2 ^ 31 := by
    refine lt_of_le_of_ne (toNat_neg_of_neg hsign) fun heq => hmin ?_
    have hneg : -x = 0x80000000 := BitVec.toNat_inj.mp heq
    rw [← BitVec.neg_neg (x := x), hneg]
    rfl
  obtain ⟨hvalue, hpos⟩ := toInt_of_neg hsign
  obtain ⟨u, hu, _, hlength, hnum⟩ := itoa_text hlt
  obtain rfl := ht.unique hu
  refine ⟨?_, .inr ⟨_, t, rfl, hvalue, hpos, hnum⟩⟩
  unfold decimalLength
  rw [if_pos hsign, hvalue, Int.natAbs_neg, Int.natAbs_natCast, hlength]

/-- The text of a signed conversion is a numeral but for the one number. -/
theorem Renders.decimal_iff {ap ap' : ℕ} {ps : List Piece}
    (hc : c = 0x64 ∨ c = 0x6C) (h : Renders env c ap ps ap') :
    (output ps).length = decimalLength (env.args ap) ∧
      (0 : Uchar) ∉ output ps ∧
      (IsDecimal (env.args ap) (output ps) ↔ env.args ap ≠ 0x80000000) := by
  cases h with
  | u | x | s | c => exact absurd hc (by decide)
  | other htakes =>
      refine absurd (takesArg_iff.mpr ?_) htakes
      rcases hc with rfl | rfl <;> simp
  | signed _ hsign ht =>
      obtain ⟨hlength, hdec⟩ := decimal_of_nonneg hsign ht
      rw [output_text, output_nil, List.append_nil]
      refine ⟨hlength, ht.nonzero, iff_of_true hdec fun hmin => ?_⟩
      rw [hmin] at hsign
      exact absurd hsign (by decide)
  | @negative _ _ t _ hsign ht =>
      have houtput : output [.chr 0x2D, .text t] = 0x2D :: t := by simp
      have hnonzero : (0 : Uchar) ∉ (0x2D :: t) := by
        rw [List.mem_cons, not_or]
        exact ⟨by decide, ht.nonzero⟩
      rw [houtput]
      by_cases hmin : env.args ap = 0x80000000
      · rw [hmin] at ht ⊢
        obtain rfl := ht.unique itoa_min
        exact ⟨by decide, hnonzero,
          iff_of_false (minText_not_decimal _) (not_not.mpr rfl)⟩
      · obtain ⟨hlength, hdec⟩ := decimal_of_neg hsign hmin ht
        exact ⟨hlength, hnonzero, iff_of_true hdec hmin⟩

theorem Filled.cstring {n : ℕ} {base : ℕ → Uchar} {b : Buffer} {loc : ℕ}
    {done : List Uchar} (hb : Filled n base b loc (done ++ t))
    (hnonzero : (0 : Uchar) ∉ t) (hroom : done.length + t.length < n) :
    CString (fun i => b.bytes (done.length + i)) t := by
  refine ⟨fun i hi => ?_, hnonzero, ?_⟩
  · have hi' : done.length + i < (done ++ t).length := by
      rw [List.length_append]
      omega
    have hget := overlay_get base 0 hi'
    rw [Nat.zero_add, ← hb.bytes, List.getElem_append_right (by omega)] at hget
    simpa using hget
  · change b.bytes (done.length + t.length) = 0
    rw [hb.bytes, overlay_of_le base (by rw [List.length_append]; omega)]
    exact hb.clear _ hroom

/-- A signed conversion that there is room for, in any call. -/
theorem signed_turn {ap' : ℕ} {ps : List Piece}
    (hturns : Turns env k (start old tmp) s) (hpercent : env.fmtAt s.p = 0x25)
    (hc : env.fmtAt (s.p + 1) = 0x64 ∨ env.fmtAt (s.p + 1) = 0x6C)
    (hps : Renders env (env.fmtAt (s.p + 1)) s.ap ps ap')
    (hroom : s.loc + decimalLength (env.args s.ap) < 1024) :
    ∃ u, turn env s = .ok (some u) ∧ u.loc = s.loc + (output ps).length ∧
      CString (fun i => u.buf.bytes (s.loc + i)) (output ps) ∧
      (PrintsDecimal env s ↔ IsDecimal (env.args s.ap) (output ps)) := by
  obtain ⟨qs, hscan, hcount, _, _⟩ := hturns.scans
  have hbefore : Fits 1024 ([] : List Uchar).length qs :=
    fits_of_lt (hcount.symm.trans_lt (by omega))
  have hs := hturns.filled (start_clear old tmp) hscan hbefore
  obtain ⟨hlength, hnonzero, _⟩ := hps.decimal_iff hc
  have hloc := hs.length
  obtain ⟨u, hrun, _, _, hu⟩ :=
    Renders.runs (s := { s with p := s.p + 1 }) hps hs (fits_of_lt (by omega))
  have hturn : turn env s = .ok (some { u with p := u.p + 1 }) := by
    rw [turn_conversion hpercent, hrun]
    rfl
  have hend : u.loc = s.loc + (output ps).length := by
    rw [hu.length, List.length_append, hloc]
  have htext := hu.cstring hnonzero (by omega)
  rw [← hloc] at htext
  refine ⟨_, hturn, hend, htext, ?_,
    fun hdec => ⟨_, _, hturn, hend, htext, hdec⟩⟩
  rintro ⟨s', t, hturn', _, ht, hdec⟩
  obtain rfl := Option.some.inj (Except.ok.inj (hturn'.symm.trans hturn))
  obtain rfl := ht.unique htext
  exact hdec

theorem printsDecimal_iff (hturns : Turns env k (start old tmp) s)
    (hpercent : env.fmtAt s.p = 0x25)
    (hc : env.fmtAt (s.p + 1) = 0x64 ∨ env.fmtAt (s.p + 1) = 0x6C)
    (hroom : s.loc + decimalLength (env.args s.ap) < 1024) :
    PrintsDecimal env s ↔ env.args s.ap ≠ 0x80000000 := by
  have hexists : ∃ ps, Renders env (env.fmtAt (s.p + 1)) s.ap ps (s.ap + 1) :=
    exists_signed hc s.ap
  obtain ⟨ps, hps⟩ := hexists
  obtain ⟨u, _, _, _, hprints⟩ := signed_turn hturns hpercent hc hps hroom
  exact hprints.trans (hps.decimal_iff hc).2.2

/-- The format `"%d"`. -/
def decimalEnv (x : Uint) : Env where
  mem a := [0x25, 0x64, 0].getD a.toNat 0
  fmt := 0
  args _ := x

theorem printsDecimal_seven :
    PrintsDecimal (decimalEnv (-7)) (start (fun _ => 0) ⟨fun _ => 0, []⟩) :=
  (printsDecimal_iff .refl (by decide) (.inl (by decide)) (by decide)).mpr
    (by decide)

/-- `0x80000000` comes out as `"-./,),(-*,("`. -/
theorem min_prints_no_digits :
    (∃ s, turn (decimalEnv 0x80000000) (start (fun _ => 0) ⟨fun _ => 0, []⟩) =
        .ok (some s) ∧ CString s.buf.bytes (0x2D :: minText)) ∧
      ¬ PrintsDecimal (decimalEnv 0x80000000)
        (start (fun _ => 0) ⟨fun _ => 0, []⟩) := by
  have hrenders : Renders (decimalEnv 0x80000000) 0x64 0
      [.chr 0x2D, .text minText] 1 :=
    .negative (.inl rfl) (by decide) itoa_min
  have hstart : Turns (decimalEnv 0x80000000) 0
      (start (fun _ => 0) ⟨fun _ => 0, []⟩)
      (start (fun _ => 0) ⟨fun _ => 0, []⟩) := .refl
  obtain ⟨s, hturn, _, htext, hprints⟩ :=
    signed_turn hstart (by decide) (.inl (by decide)) hrenders (by decide)
  refine ⟨⟨s, hturn, ?_⟩, fun hdec => minText_not_decimal _ (hprints.mp hdec)⟩
  simpa [start] using htext

end Sprintk

end OS32
