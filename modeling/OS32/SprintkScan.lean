import OS32.SprintkText

/-!
# Where the scan of the format ends

A `'%'` takes the next character with it, and that may be the terminator.
-/

namespace OS32

open Bytes KString
open Console (Uchar)

namespace Sprintk

variable {env : Env} {s t : State} {f g h : List Uchar} {c : Uchar} {k : ℕ}

/-! ## Formats -/

/-- The conversions in a format that take an argument. -/
def conversions : List Uchar → ℕ
  | c :: d :: f =>
      if c = 0x25 then (if TakesArg d then 1 else 0) + conversions f
      else conversions (d :: f)
  | _ => 0

theorem conversions_literal (hc : c ≠ 0x25) :
    conversions (c :: f) = conversions f := by
  cases f with
  | nil => rfl
  | cons d f => exact if_neg hc

/-- A format that is not matched has one `'%'` too many, at its end. -/
theorem matched_or (f : List Uchar) :
    Matched f ∨ ∃ g, Matched g ∧ f = g ++ [0x25] := by
  induction hn : f.length using Nat.strong_induction_on generalizing f with
  | _ n ih =>
      cases f with
      | nil => exact .inl .nil
      | cons c f =>
          by_cases hc : c = 0x25
          · subst hc
            cases f with
            | nil => exact .inr ⟨[], .nil, rfl⟩
            | cons d f =>
                rcases ih f.length (by simp at hn; omega) f rfl with
                  hf | ⟨g, hg, rfl⟩
                · exact .inl (.conversion hf)
                · exact .inr ⟨_, .conversion hg, rfl⟩
          · rcases ih f.length (by simp at hn; omega) f rfl with
              hf | ⟨g, hg, rfl⟩
            · exact .inl (.literal hc hf)
            · exact .inr ⟨_, .literal hc hg, rfl⟩

/-! ## What a turn reads -/

/-- The offsets of `fmt` that a turn reads. -/
def reads (env : Env) (s : State) : List ℕ :=
  if env.fmtAt s.p = 0x25 then [s.p, s.p + 1] else [s.p]

/-- No turn reads behind the terminator of `f`.  `fetches` is about the calls that
return only: such a call has taken an argument for each conversion. -/
structure ScanEnds (env : Env) (f : List Uchar) (old : ℕ → Uchar)
    (tmp : Buffer) : Prop where
  reads : ∀ k s, Turns env k (start old tmp) s → ∀ i ∈ reads env s, i ≤ f.length
  fetches : ∀ fuel s, sprintk env fuel old tmp = .ok s → s.ap = conversions f

/-- The pointer stands in front of `h`, and `h` is matched. -/
structure Before (f : List Uchar) (s : State) (h : List Uchar) : Prop where
  split : ∃ g, f = g ++ h ∧ s.p = g.length
  matched : Matched h

theorem Before.fmtAt (hf : CString env.fmtAt f) (hs : Before f s h) (i : ℕ)
    (hi : i < h.length) : env.fmtAt (s.p + i) = h[i] := by
  obtain ⟨g, rfl, hp⟩ := hs.split
  rw [hp, hf.chars _ (by rw [List.length_append]; omega)]
  rw [List.getElem_append_right (by omega)]
  simp

theorem Before.nul (hf : CString env.fmtAt f) (hs : Before f s []) :
    env.fmtAt s.p = 0 := by
  obtain ⟨g, rfl, hp⟩ := hs.split
  have hnul := hf.nul
  rwa [List.append_nil, ← hp] at hnul

theorem Before.ne_zero (hf : CString env.fmtAt f) (hs : Before f s (c :: h)) :
    env.fmtAt s.p = c ∧ c ≠ 0 := by
  have hhead : env.fmtAt s.p = c := hs.fmtAt hf 0 (Nat.succ_pos _)
  obtain ⟨g, rfl, hp⟩ := hs.split
  refine ⟨hhead, ?_⟩
  rintro rfl
  exact hf.nonzero (by simp)

theorem Before.reads (hf : CString env.fmtAt f) (hs : Before f s h) :
    ∀ i ∈ reads env s, i ≤ f.length := by
  obtain ⟨g, hsplit, hp⟩ := hs.split
  have hlength : f.length = s.p + h.length := by
    rw [hsplit, List.length_append, hp]
  intro i hi
  unfold Sprintk.reads at hi
  cases hs.matched with
  | nil =>
      rw [if_neg (by rw [hs.nul hf]; decide), List.mem_singleton] at hi
      omega
  | literal hc _ =>
      rw [if_neg (by rw [(hs.ne_zero hf).1]; exact hc),
        List.mem_singleton] at hi
      omega
  | conversion _ =>
      rw [List.length_cons, List.length_cons] at hlength
      rw [if_pos (hs.ne_zero hf).1] at hi
      rcases List.mem_cons.mp hi with rfl | hi
      · omega
      · obtain rfl := List.mem_singleton.mp hi
        omega

/-- One turn. -/
theorem Before.turn (hf : CString env.fmtAt f) (hs : Before f s h)
    (hturn : turn env s = .ok (some t)) :
    ∃ h', Before f t h' ∧ t.ap + conversions h' = s.ap + conversions h := by
  obtain ⟨g, hsplit, hp⟩ := hs.split
  rcases turn_cases hturn with
    ⟨_, hnone⟩ | ⟨hzero, hlit, hsome⟩ | ⟨hpercent, u, ps, _, hwrote, hsome⟩
  · cases hnone
  · obtain rfl := Option.some.inj hsome
    cases hs.matched with
    | nil => exact absurd (hs.nul hf) hzero
    | @literal c h hc hh =>
        refine ⟨h, ⟨⟨g ++ [c], by simp [hsplit], by simp [hp]⟩, hh⟩, ?_⟩
        rw [conversions_literal hc]
        rfl
    | conversion _ => exact absurd (hs.ne_zero hf).1 hlit
  · obtain rfl := Option.some.inj hsome
    cases hs.matched with
    | nil =>
        rw [hs.nul hf] at hpercent
        exact absurd hpercent (by decide)
    | literal hc _ =>
        rw [(hs.ne_zero hf).1] at hpercent
        exact absurd hpercent hc
    | @conversion c h hh =>
        refine ⟨h, ⟨⟨g ++ [0x25, c], by simp [hsplit], by simp [hp]⟩, hh⟩, ?_⟩
        have hchar : env.fmtAt (s.p + 1) = c := hs.fmtAt hf 1 (by simp)
        have hap := hwrote.renders.ap_eq
        rw [hchar] at hap
        change u.ap + conversions h = s.ap +
          ((if TakesArg c then 1 else 0) + conversions h)
        rw [hap]
        split <;> simp [Nat.add_assoc]

theorem Before.turns (hf : CString env.fmtAt f) (hturns : Turns env k s t)
    (hs : Before f s h) :
    ∃ h', Before f t h' ∧ t.ap + conversions h' = s.ap + conversions h := by
  induction hturns generalizing h with
  | refl => exact ⟨h, hs, rfl⟩
  | head hturn _ ih =>
      obtain ⟨h₁, hu, hap₁⟩ := hs.turn hf hturn
      obtain ⟨h₂, ht, hap₂⟩ := ih hu
      exact ⟨h₂, ht, hap₂.trans hap₁⟩

theorem Matched.scanEnds (hf : CString env.fmtAt f) (hm : Matched f)
    (old : ℕ → Uchar) (tmp : Buffer) : ScanEnds env f old tmp := by
  have hstart : Before f (start old tmp) f := ⟨⟨[], rfl, rfl⟩, hm⟩
  constructor
  · intro k s hturns
    obtain ⟨h, hs, _⟩ := hstart.turns hf hturns
    exact hs.reads hf
  · intro fuel s hrun
    obtain ⟨k, _, hturns, hend⟩ := loop_turns hrun
    obtain ⟨h, hs, hap⟩ := hstart.turns hf hturns
    cases h with
    | nil => simpa [conversions, start] using hap
    | cons c h =>
        obtain ⟨hhead, hc⟩ := hs.ne_zero hf
        exact absurd (hhead.symm.trans hend) hc

/-- After an unmatched `'%'` the pointer is behind the terminator. -/
theorem scan_behind (hf : CString env.fmtAt (g ++ [0x25])) (hg : Matched g) :
    ∃ k s, Turns env k (start (fun _ => 0) ⟨fun _ => 0, []⟩) s ∧
      s.p = g.length + 2 := by
  have hchars : ∀ i (hi : i < g.length), env.fmtAt (0 + i) = g[i] := by
    intro i hi
    rw [Nat.zero_add, hf.chars i (by rw [List.length_append]; omega),
      List.getElem_append_left hi]
  have hnonzero : (0 : Uchar) ∉ g := fun hmem =>
    hf.nonzero (List.mem_append_left _ hmem)
  have hexists : ∃ ps ap, Rendered env g 0 ps ap :=
    exists_rendered hf.nul hg 0
  obtain ⟨ps, ap, hr⟩ := hexists
  obtain ⟨k, _, hscan⟩ := hr.scans hnonzero hchars
  have hroom : Fits (1024 + (output ps).length + 1) ([] : List Uchar).length ps :=
    fits_of_lt (by rw [List.length_nil]; omega)
  obtain ⟨s, hturns, hp, _, hfilled⟩ :=
    Scans.turns (s := start (fun _ => 0) ⟨fun _ => 0, []⟩) hscan
      (start_filled _ _ (by omega) fun _ _ _ => rfl) hroom
  rw [Nat.zero_add] at hp
  have hpercent : env.fmtAt s.p = 0x25 := by
    rw [hp, hf.chars _ (by simp)]
    simp
  have hnul : env.fmtAt (s.p + 1) = 0 := by
    have hend := hf.nul
    rwa [List.length_append, List.length_singleton, ← hp] at hend
  have hturn : turn env s =
      .ok (some { caseDefault { s with p := s.p + 1 } 0 with p := s.p + 2 }) := by
    rw [turn_conversion hpercent, hnul]
    rfl
  exact ⟨k + 1, _, hturns.snoc hturn, by rw [hp]⟩

/-- Whatever is in the buffers, the scan ends at the terminator just if no `'%'`
takes the terminator with it. -/
theorem scanEnds_iff (hf : CString env.fmtAt f) :
    (∀ old tmp, ScanEnds env f old tmp) ↔ Matched f := by
  constructor
  · intro hall
    rcases matched_or f with hm | ⟨g, hg, rfl⟩
    · exact hm
    · obtain ⟨k, s, hturns, hp⟩ := scan_behind hf hg
      have hread : s.p ∈ reads env s := by
        unfold reads
        split <;> simp
      have hle := (hall _ _).reads k s hturns s.p hread
      rw [hp, List.length_append, List.length_singleton] at hle
      omega
  · intro hm old tmp
    exact hm.scanEnds hf old tmp

theorem scanEnds_assign :
    ScanEnds assignEnv [0x25, 0x73, 0x3D, 0x25, 0x64] (fun _ => 0x58)
      ⟨fun _ => 0, []⟩ :=
  (scanEnds_iff assignEnv_format).mpr
    (.conversion (.literal (by decide) (.conversion .nil))) _ _

/-- The format `"%"`; the string behind it is `"%u"`. -/
def percentEnv : Env where
  mem a := [0x25, 0, 0x25, 0x75, 0].getD a.toNat 0
  fmt := 0
  args _ := 0

theorem percent_reads_behind : CString percentEnv.fmtAt [0x25] ∧
    ¬ ScanEnds percentEnv [0x25] (fun _ => 0) ⟨fun _ => 0, []⟩ := by
  refine ⟨⟨by decide, by decide, by decide⟩, fun hends => ?_⟩
  have hread := hends.reads 1 _ (.head rfl .refl) 2 (by decide)
  exact absurd hread (by decide)

end Sprintk

end OS32
