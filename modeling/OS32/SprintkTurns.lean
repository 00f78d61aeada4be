import OS32.Sprintk

/-!
# Turns of the loop in `sprintk`

A call turns the format into pieces, one list of them for each turn of the loop.
As long as the pieces fit, everything from `loc` on stays zero, so that `strcat`
appends exactly there.
-/

namespace OS32

open Bytes KString Numeral
open Console (Uchar)

namespace Sprintk

variable {env : Env} {n : ℕ} {base : ℕ → Uchar} {s s' : State}
  {done t : List Uchar} {c : Uchar} {ap ap' : ℕ} {ps qs : List Piece}

/-! ## One conversion -/

theorem toNat_of_nonneg {x : Uint} (hx : 0 ≤ x.toInt) : x.toNat < 2 ^ 31 := by
  rw [BitVec.toInt_eq_toNat_cond] at hx
  split at hx <;> omega

theorem toNat_neg_of_neg {x : Uint} (hx : x.toInt < 0) :
    (-x).toNat ≤ 2 ^ 31 := by
  rw [BitVec.toInt_eq_toNat_cond] at hx
  rw [BitVec.toNat_neg]
  split at hx <;> omega

/-- Addresses come round again, so a string is shorter than the memory. -/
theorem string_length {ptr : Uint} (ht : CString (env.string ptr) t) :
    t.length < walkBound := by
  by_contra hlong
  obtain ⟨i, hi⟩ := Nat.exists_eq_add_of_le (not_lt.mp hlong)
  have hround : env.string ptr t.length = env.string ptr i := by
    unfold Env.string
    congr 2
    rw [← BitVec.toNat_inj, BitVec.toNat_ofNat, BitVec.toNat_ofNat, hi]
    exact Nat.add_mod_left ..
  refine ht.ne_zero (i := i) ?_ (hround ▸ ht.nul)
  rw [hi]
  exact Nat.lt_add_of_pos_left (by decide)

theorem Renders.short (h : Renders env c ap ps ap') (ht : .text t ∈ ps) :
    t.length < walkBound := by
  cases h with
  | u htext =>
      obtain rfl := Piece.text.inj (List.mem_singleton.mp ht)
      exact htext.short (exists_utoa _)
  | signed _ hsign htext =>
      obtain rfl := Piece.text.inj (List.mem_singleton.mp ht)
      exact htext.short (exists_itoa (toNat_of_nonneg hsign).le)
  | negative _ hsign htext =>
      obtain rfl : t = _ := by simpa using ht
      exact htext.short (exists_itoa (toNat_neg_of_neg hsign))
  | c => exact absurd ht (by simp)
  | x htext =>
      obtain rfl := Piece.text.inj (List.mem_singleton.mp ht)
      exact htext.short (exists_toHex _)
  | s htext =>
      obtain rfl := Piece.text.inj (List.mem_singleton.mp ht)
      exact string_length htext
  | other => exact absurd ht (by simp)

theorem Renders.ap_eq (h : Renders env c ap ps ap') :
    ap' = if TakesArg c then ap + 1 else ap := by
  cases h with
  | u | c | x | s => rfl
  | signed hc | negative hc => rcases hc with rfl | rfl <;> rfl
  | other hc => rw [if_neg hc]

theorem exists_signed (hc : c = 0x64 ∨ c = 0x6C) (ap : ℕ) :
    ∃ ps, Renders env c ap ps (ap + 1) := by
  rcases lt_or_ge (env.args ap).toInt 0 with hsign | hsign
  · obtain ⟨t, ht, _⟩ := exists_itoa (toNat_neg_of_neg hsign)
    exact ⟨_, .negative hc hsign ht⟩
  · obtain ⟨t, ht, _⟩ := exists_itoa (toNat_of_nonneg hsign).le
    exact ⟨_, .signed hc hsign ht⟩

/-- Where there is a zero in memory every conversion has a rendering. -/
theorem exists_renders {z : Uint} (hz : env.mem z = 0) (c : Uchar) (ap : ℕ) :
    ∃ ps ap', Renders env c ap ps ap' := by
  have hsigned : c = 0x64 ∨ c = 0x6C → ∃ ps ap', Renders env c ap ps ap' := by
    intro hc
    obtain ⟨ps, hps⟩ := exists_signed hc ap
    exact ⟨ps, _, hps⟩
  by_cases htakes : TakesArg c
  · rcases takesArg_iff.mp htakes with rfl | rfl | rfl | rfl | rfl | rfl
    · obtain ⟨t, ht, _⟩ := exists_utoa (env.args ap)
      exact ⟨_, _, .u ht⟩
    · exact hsigned (.inl rfl)
    · exact ⟨_, _, .c⟩
    · exact hsigned (.inr rfl)
    · obtain ⟨t, ht, _⟩ := exists_toHex (env.args ap)
      exact ⟨_, _, .x ht⟩
    · have hnul : ∃ i, env.string (env.args ap) i = 0 := by
        refine ⟨(z - env.args ap).toNat, ?_⟩
        unfold Env.string
        rw [BitVec.ofNat_toNat, BitVec.setWidth_eq, BitVec.add_comm,
          BitVec.sub_add_cancel]
        exact hz
      classical
      have hfirst := cstring_of_first (fun i hi => Nat.find_min hnul hi)
        (Nat.find_spec hnul)
      exact ⟨_, _, .s hfirst⟩
  · exact ⟨_, _, .other htakes⟩

/-- A conversion whose pieces fit adds their characters. -/
theorem Renders.runs (h : Renders env c s.ap ps ap')
    (hs : Filled n base s.buf s.loc done) (hfits : Fits n done.length ps) :
    ∃ s', conversion env s c = .ok s' ∧ s'.p = s.p ∧ s'.ap = ap' ∧
      Filled n base s'.buf s'.loc (done ++ output ps) := by
  have hshort := fun t => h.short (t := t)
  cases h with
  | u ht | x ht =>
      rw [output_text, output_nil, List.append_nil]
      exact Filled.number (s := s.fetched) hs ht (hshort _ (by simp)) hfits.1
  | signed hc hsign ht =>
      have hrun : conversion env s c =
          s.fetched.number itoa (env.args s.ap) := by
        rcases hc with rfl | rfl <;> exact if_neg (not_lt.mpr hsign)
      rw [hrun, output_text, output_nil, List.append_nil]
      exact Filled.number (s := s.fetched) hs ht (hshort _ (by simp)) hfits.1
  | @negative _ _ t hc hsign ht =>
      have hrun : conversion env s c =
          (s.fetched.put 0x2D).number itoa (-env.args s.ap) := by
        rcases hc with rfl | rfl <;> exact if_pos hsign
      have hput := Filled.put (s := s.fetched) hs hfits.1 0x2D
      have hroom : (done ++ [(0x2D : Uchar)]).length + t.length < n := by
        simpa using hfits.2.1
      have hjoin : done ++ output [.chr 0x2D, .text t] =
          done ++ [0x2D] ++ t := by simp
      rw [hrun, hjoin]
      exact hput.number ht (hshort _ (by simp)) hroom
  | c =>
      exact ⟨_, rfl, rfl, rfl, Filled.put (s := s.fetched) hs hfits.1 _⟩
  | s ht =>
      rw [output_text, output_nil, List.append_nil]
      exact Filled.append (s := s.fetched) hs ht (hshort _ (by simp)) hfits.1
  | other hc =>
      have hrun : conversion env s c = .ok (caseDefault s c) := by
        simp only [takesArg_iff, not_or] at hc
        obtain ⟨hu, hd, hchar, hl, hx, hstring⟩ := hc
        unfold conversion
        rw [if_neg hu, if_neg hd, if_neg hchar, if_neg hl, if_neg hx,
          if_neg hstring]
      exact ⟨_, hrun, rfl, rfl, Filled.put hs hfits.1 c⟩

theorem Renders.nonzero (h : Renders env c ap ps ap') :
    (0 : Uchar) ∈ output ps → .chr 0 ∈ ps := by
  intro hzero
  cases h with
  | u ht | signed _ _ ht | negative _ _ ht | x ht | s ht =>
      have hnot := ht.nonzero
      simp_all
  | c | other => simpa using hzero

/-! ## What a conversion did -/

/-- The step from `s` to `s'` stands for the pieces `ps`, and has written all of
them. -/
structure Wrote (env : Env) (c : Uchar) (s s' : State) (ps : List Piece) :
    Prop where
  renders : Renders env c s.ap ps s'.ap
  p_eq : s'.p = s.p
  loc_eq : s'.loc = s.loc + (output ps).length
  kept : s.buf.writes ⊆ s'.buf.writes
  fits : ∀ n, (∀ i ∈ s'.buf.writes, i < n) → Fits n s.loc ps

theorem wrote_number {f : Uint → Buffer → Except Fault Buffer} {val : Uint}
    (hrenders : Renders env c s.ap [.text t] (s.ap + 1)) (ht : Text f val t)
    (hrun : s.fetched.number f val = .ok s') : Wrote env c s s' [.text t] := by
  obtain ⟨hp, hap, hloc, hsub, i, hi, hend⟩ := number_cases ht hrun
  refine ⟨?_, hp, ?_, hsub, fun n hn => ⟨hend.trans_lt (hn i hi), trivial⟩⟩
  · rw [hap]
    exact hrenders
  · rw [output_text, output_nil, List.append_nil]
    exact hloc

theorem signedCase_cases (hc : c = 0x64 ∨ c = 0x6C)
    (hrun : signedCase env s = .ok s') : ∃ ps, Wrote env c s s' ps := by
  unfold signedCase at hrun
  by_cases hsign : (env.args s.ap).toInt < 0
  · obtain ⟨t, ht, _⟩ := exists_itoa (toNat_neg_of_neg hsign)
    rw [if_pos hsign] at hrun
    obtain ⟨hp, hap, hloc, hsub, i, hi, hend⟩ := number_cases ht hrun
    obtain ⟨hput, hsign'⟩ := put_writes s.fetched 0x2D
    refine ⟨[.chr 0x2D, .text t], ?_, hp, ?_, List.Subset.trans hput hsub, ?_⟩
    · rw [hap]
      exact .negative hc hsign ht
    · have hlength : (output [.chr 0x2D, .text t]).length = 1 + t.length := by
        simp [Nat.add_comm]
      rw [hloc, hlength, ← Nat.add_assoc]
      rfl
    · intro n hn
      exact ⟨hn _ (hsub hsign'), hend.trans_lt (hn i hi), trivial⟩
  · obtain ⟨t, ht, _⟩ := exists_itoa (toNat_of_nonneg (not_lt.mp hsign)).le
    rw [if_neg hsign] at hrun
    exact ⟨_, wrote_number (.signed hc (not_lt.mp hsign) ht) ht hrun⟩

theorem conversion_cases (hrun : conversion env s c = .ok s') :
    ∃ ps, Wrote env c s s' ps := by
  unfold conversion at hrun
  split at hrun
  next hu =>
    subst hu
    obtain ⟨t, ht, _⟩ := exists_utoa (env.args s.ap)
    exact ⟨_, wrote_number (.u ht) ht hrun⟩
  next hu =>
  split at hrun
  next hd => exact signedCase_cases (.inl hd) hrun
  next hd =>
  split at hrun
  next hchar =>
    subst hchar
    obtain rfl := Except.ok.inj hrun
    obtain ⟨hsub, hloc⟩ := put_writes s.fetched ((env.args s.ap).setWidth 8)
    exact ⟨_, .c, rfl, rfl, hsub, fun n hn => ⟨hn _ hloc, trivial⟩⟩
  next hchar =>
  split at hrun
  next hl => exact signedCase_cases (.inr hl) hrun
  next hl =>
  split at hrun
  next hx =>
    subst hx
    obtain ⟨t, ht, _⟩ := exists_toHex (env.args s.ap)
    exact ⟨_, wrote_number (.x ht) ht hrun⟩
  next hx =>
  split at hrun
  next hstring =>
    subst hstring
    obtain ⟨t, ht, hp, hap, hloc, hsub, i, hi, hend⟩ := append_cases hrun
    refine ⟨[.text t], ?_, hp, ?_, hsub,
      fun n hn => ⟨hend.trans_lt (hn i hi), trivial⟩⟩
    · rw [hap]
      exact .s ht
    · rw [output_text, output_nil, List.append_nil]
      exact hloc
  next hstring =>
    obtain rfl := Except.ok.inj hrun
    obtain ⟨hsub, hloc⟩ := put_writes s c
    refine ⟨_, .other ?_, rfl, rfl, hsub, fun n hn => ⟨hn _ hloc, trivial⟩⟩
    simp only [takesArg_iff, not_or]
    exact ⟨hu, hd, hchar, hl, hx, hstring⟩

/-! ## Turns of the loop -/

theorem fits_append {loc : ℕ} : Fits n loc (ps ++ qs) ↔
    Fits n loc ps ∧ Fits n (loc + (output ps).length) qs := by
  induction ps generalizing loc with
  | nil => simp [Fits]
  | cons piece ps ih =>
      cases piece with
      | chr c =>
          simp only [List.cons_append, Fits, ih, output_chr, List.length_cons,
            and_assoc]
          rw [Nat.add_assoc, Nat.add_comm 1]
      | text t =>
          simp only [List.cons_append, Fits, ih, output_text,
            List.length_append, and_assoc, Nat.add_assoc]

theorem fits_of_lt {loc : ℕ} (htotal : loc + (output ps).length < n) :
    Fits n loc ps := by
  induction ps generalizing loc with
  | nil => trivial
  | cons piece ps ih =>
      cases piece with
      | chr c =>
          rw [output_chr, List.length_cons] at htotal
          exact ⟨by omega, ih (by omega)⟩
      | text t =>
          rw [output_text, List.length_append] at htotal
          exact ⟨by omega, ih (by omega)⟩

/-- `k` turns of the loop, none of them its end. -/
inductive Turns (env : Env) : ℕ → State → State → Prop
  | refl {s : State} : Turns env 0 s s
  | head {k : ℕ} {s u t : State} : turn env s = .ok (some u) →
      Turns env k u t → Turns env (k + 1) s t

/-- `k` turns take the format pointer and the arguments from `p` and `ap` to `q`
and `ap'`, and stand for the pieces. -/
inductive Scans (env : Env) : ℕ → ℕ → ℕ → List Piece → ℕ → ℕ → Prop
  | refl {p ap : ℕ} : Scans env 0 p ap [] p ap
  | literal {k p ap q ap' : ℕ} {ps : List Piece} : env.fmtAt p ≠ 0 →
      env.fmtAt p ≠ 0x25 → Scans env k (p + 1) ap ps q ap' →
      Scans env (k + 1) p ap (.chr (env.fmtAt p) :: ps) q ap'
  | conversion {k p ap ap₁ q ap' : ℕ} {ps qs : List Piece} :
      env.fmtAt p = 0x25 → Renders env (env.fmtAt (p + 1)) ap ps ap₁ →
      Scans env k (p + 2) ap₁ qs q ap' →
      Scans env (k + 1) p ap (ps ++ qs) q ap'

theorem Turns.loop {k fuel : ℕ} (h : Turns env k s s')
    (hend : env.fmtAt s'.p = 0) (hfuel : k < fuel) :
    loopFrom env fuel s = .ok s' := by
  obtain ⟨fuel, rfl⟩ := Nat.exists_eq_succ_of_ne_zero (Nat.ne_zero_of_lt hfuel)
  induction h generalizing fuel with
  | refl =>
      have hturn : turn env _ = .ok none := if_pos hend
      unfold loopFrom
      rw [hturn]
      rfl
  | head hturn _ ih =>
      obtain ⟨fuel, rfl⟩ := Nat.exists_eq_succ_of_ne_zero
        (show fuel ≠ 0 by omega)
      unfold loopFrom
      rw [hturn]
      exact ih hend fuel (by omega)

theorem turn_literal (hzero : env.fmtAt s.p ≠ 0) (hlit : env.fmtAt s.p ≠ 0x25) :
    turn env s = .ok (some { s.put (env.fmtAt s.p) with p := s.p + 1 }) := by
  unfold turn
  rw [if_neg hzero, if_pos hlit]

theorem turn_conversion (hpercent : env.fmtAt s.p = 0x25) :
    turn env s =
      (conversion env { s with p := s.p + 1 } (env.fmtAt (s.p + 1))).map
        fun s => some { s with p := s.p + 1 } := by
  have hzero : env.fmtAt s.p ≠ 0 := by
    rw [hpercent]
    decide
  unfold turn
  rw [if_neg hzero, if_neg (not_not.mpr hpercent)]
  rfl

/-- Pieces that fit are added to the output in order. -/
theorem Scans.turns {k q : ℕ} (h : Scans env k s.p s.ap ps q ap')
    (hs : Filled n base s.buf s.loc done) (hfits : Fits n done.length ps) :
    ∃ t, Turns env k s t ∧ t.p = q ∧ t.ap = ap' ∧
      Filled n base t.buf t.loc (done ++ output ps) := by
  generalize hp : s.p = p at h
  generalize hap : s.ap = ap at h
  induction h generalizing s done with
  | refl => exact ⟨s, .refl, hp, hap, by simpa using hs⟩
  | @literal k p ap q ap' ps hzero hlit _ ih =>
      subst hp
      have hlength : (done ++ [env.fmtAt s.p]).length = done.length + 1 := by simp
      obtain ⟨t, hturns, ht, htap, hfilled⟩ :=
        ih (s := { s.put (env.fmtAt s.p) with p := s.p + 1 })
          (hs.put hfits.1 _) (hlength ▸ hfits.2) rfl hap
      refine ⟨t, .head (turn_literal hzero hlit) hturns, ht, htap, ?_⟩
      simpa using hfilled
  | @conversion k p ap ap₁ q ap' ps qs hpercent hrenders _ ih =>
      subst hp hap
      obtain ⟨hfirst, hrest⟩ := fits_append.mp hfits
      obtain ⟨u, hrun, hup, huap, hu⟩ :=
        Renders.runs (s := { s with p := s.p + 1 }) hrenders hs hfirst
      have hturn : turn env s = .ok (some { u with p := u.p + 1 }) := by
        rw [turn_conversion hpercent, hrun]
        rfl
      have hnext : u.p + 1 = s.p + 2 := by rw [hup]
      rw [← List.length_append] at hrest
      obtain ⟨t, hturns, ht, htap, hfilled⟩ :=
        ih (s := { u with p := u.p + 1 }) hu hrest hnext huap
      refine ⟨t, .head hturn hturns, ht, htap, ?_⟩
      simpa using hfilled

/-- The buffer after `memset`. -/
theorem start_filled (old : ℕ → Uchar) (tmp : Buffer) (hn : 1024 ≤ n)
    (hold : ∀ i < n, 1024 ≤ i → old i = 0) :
    Filled n (overlay old 0 (List.replicate 1024 0)) (start old tmp).buf
      (start old tmp).loc [] := by
  have hmemset := memset_eq ⟨old, []⟩ 0 1024
  have hlength : (List.replicate 1024 (0 : Uchar)).length = 1024 :=
    List.length_replicate
  refine ⟨fun i hi => ?_, ?_, rfl, ?_⟩
  · rcases Nat.lt_or_ge i 1024 with hlt | hge
    · have hget := overlay_get old 0 (hlength.symm ▸ hlt)
      rwa [Nat.zero_add, List.getElem_replicate] at hget
    · have hbehind : 0 + (List.replicate 1024 (0 : Uchar)).length ≤ i := by
        rw [hlength]
        omega
      rw [overlay_of_le old hbehind]
      exact hold i hi hge
  · change (memset ⟨old, []⟩ 0 1024).bytes = _
    rw [hmemset, overlay_nil]
  · intro i hi
    have hwrites : (start old tmp).buf.writes = List.range 1024 := by
      change (memset ⟨old, []⟩ 0 1024).writes = _
      rw [hmemset]
      exact List.nil_append _
    rw [hwrites, List.mem_range] at hi
    omega

theorem start_clear (old : ℕ → Uchar) (tmp : Buffer) :
    Filled 1024 (overlay old 0 (List.replicate 1024 0)) (start old tmp).buf
      (start old tmp).loc [] :=
  start_filled old tmp le_rfl fun _ hlt hle => absurd hle (not_le.mpr hlt)

theorem turn_cases {o : Option State} (hturn : turn env s = .ok o) :
    (env.fmtAt s.p = 0 ∧ o = none) ∨
    (env.fmtAt s.p ≠ 0 ∧ env.fmtAt s.p ≠ 0x25 ∧
      o = some { s.put (env.fmtAt s.p) with p := s.p + 1 }) ∨
    (env.fmtAt s.p = 0x25 ∧ ∃ u ps,
      conversion env { s with p := s.p + 1 } (env.fmtAt (s.p + 1)) = .ok u ∧
      Wrote env (env.fmtAt (s.p + 1)) { s with p := s.p + 1 } u ps ∧
      o = some { u with p := s.p + 2 }) := by
  by_cases hzero : env.fmtAt s.p = 0
  · have hend : turn env s = .ok none := if_pos hzero
    exact .inl ⟨hzero, (Except.ok.inj (hend.symm.trans hturn)).symm⟩
  · by_cases hpercent : env.fmtAt s.p = 0x25
    · rw [turn_conversion hpercent] at hturn
      obtain ⟨u, hrun, rfl⟩ := map_ok_iff.mp hturn
      obtain ⟨ps, hwrote⟩ := conversion_cases hrun
      refine .inr (.inr ⟨hpercent, u, ps, hrun, hwrote, ?_⟩)
      rw [hwrote.p_eq]
    · rw [turn_literal hzero hpercent] at hturn
      exact .inr (.inl ⟨hzero, hpercent, (Except.ok.inj hturn).symm⟩)

theorem Scans.nonzero {k p q : ℕ} (h : Scans env k p ap ps q ap') :
    (0 : Uchar) ∈ output ps → .chr 0 ∈ ps := by
  induction h with
  | refl => exact fun hzero => nomatch hzero
  | literal hne _ _ ih =>
      intro hzero
      rcases List.mem_cons.mp hzero with heq | hrest
      · exact absurd heq.symm hne
      · exact List.mem_cons_of_mem _ (ih hrest)
  | conversion _ hfirst _ ih =>
      intro hzero
      rw [output_append] at hzero
      rcases List.mem_append.mp hzero with hhead | hrest
      · exact List.mem_append_left _ (hfirst.nonzero hhead)
      · exact List.mem_append_right _ (ih hrest)

theorem Turns.unique {k : ℕ} {u : State} (h : Turns env k s s')
    (hu : Turns env k s u) : s' = u := by
  induction h with
  | refl =>
      cases hu
      rfl
  | head hturn _ ih =>
      cases hu with
      | head hturn' hu =>
          obtain rfl := Option.some.inj (Except.ok.inj (hturn.symm.trans hturn'))
          exact ih hu

theorem Turns.snoc {k : ℕ} {u : State} (h : Turns env k s s')
    (hturn : turn env s' = .ok (some u)) : Turns env (k + 1) s u := by
  induction h with
  | refl => exact .head hturn .refl
  | head hfirst _ ih => exact .head hfirst (ih hturn)

/-- Turns that were taken stand for pieces; `loc` counts their characters, and
all of them have been written. -/
theorem Turns.scans {k : ℕ} (h : Turns env k s s') :
    ∃ ps, Scans env k s.p s.ap ps s'.p s'.ap ∧
      s'.loc = s.loc + (output ps).length ∧
      s.buf.writes ⊆ s'.buf.writes ∧
      ∀ n, (∀ i ∈ s'.buf.writes, i < n) → Fits n s.loc ps := by
  induction h with
  | refl => exact ⟨[], .refl, rfl, List.Subset.refl _, fun _ _ => trivial⟩
  | @head k s u s' hturn _ ih =>
      obtain ⟨qs, hscan, hloc, hkept, hfits⟩ := ih
      rcases turn_cases hturn with
        ⟨_, hnone⟩ | ⟨hzero, hlit, hsome⟩ | ⟨hpercent, v, ps, _, hwrote, hsome⟩
      · cases hnone
      · obtain rfl := Option.some.inj hsome
        obtain ⟨hput, hchar⟩ := put_writes s (env.fmtAt s.p)
        refine ⟨_, .literal hzero hlit hscan, ?_, List.Subset.trans hput hkept,
          fun n hn => ⟨hn _ (hkept hchar), hfits n hn⟩⟩
        rw [hloc, output_chr, List.length_cons, ← Nat.add_assoc,
          Nat.add_right_comm]
        rfl
      · obtain rfl := Option.some.inj hsome
        have hfirst : v.loc = s.loc + (output ps).length := hwrote.loc_eq
        refine ⟨_, .conversion hpercent hwrote.renders hscan, ?_,
          List.Subset.trans hwrote.kept hkept, ?_⟩
        · rw [hloc, output_append, List.length_append, ← Nat.add_assoc,
            ← hfirst]
        · intro n hn
          have hrest := hfits n hn
          rw [hfirst] at hrest
          exact fits_append.mpr
            ⟨hwrote.fits n fun i hi => hn i (hkept hi), hrest⟩

/-- A state whose output so far fits holds just that. -/
theorem Turns.filled {k : ℕ} (h : Turns env k s s')
    (hs : Filled n base s.buf s.loc done)
    (hscan : Scans env k s.p s.ap ps s'.p s'.ap)
    (hfits : Fits n done.length ps) :
    Filled n base s'.buf s'.loc (done ++ output ps) := by
  obtain ⟨t, hturns, _, _, hfilled⟩ := hscan.turns hs hfits
  obtain rfl := h.unique hturns
  exact hfilled

/-- A call that returns has taken turns up to a zero of the format. -/
theorem loop_turns {fuel : ℕ} (hrun : loopFrom env fuel s = .ok s') :
    ∃ k < fuel, Turns env k s s' ∧ env.fmtAt s'.p = 0 := by
  induction fuel generalizing s with
  | zero => cases hrun
  | succ fuel ih =>
      obtain ⟨o, hturn, hrest⟩ := bind_ok_iff.mp hrun
      cases o with
      | none =>
          cases hrest
          rcases turn_cases hturn with
            ⟨hend, _⟩ | ⟨_, _, hsome⟩ | ⟨_, _, _, _, _, hsome⟩
          · exact ⟨0, Nat.succ_pos _, .refl, hend⟩
          · cases hsome
          · cases hsome
      | some u =>
          obtain ⟨k, hk, hturns, hend⟩ := ih hrest
          exact ⟨k + 1, Nat.succ_lt_succ hk, .head hturn hturns, hend⟩

theorem Turns.end_unique {k l : ℕ} {u : State} (h : Turns env k s s')
    (hend : env.fmtAt s'.p = 0) (hu : Turns env l s u)
    (huend : env.fmtAt u.p = 0) : s' = u := by
  have hs' : loopFrom env (k + l + 1) s = .ok s' := h.loop hend (by omega)
  have hu' : loopFrom env (k + l + 1) s = .ok u := hu.loop huend (by omega)
  exact Except.ok.inj (hs'.symm.trans hu')

end Sprintk

end OS32
