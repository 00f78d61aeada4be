import OS32.SprintkTurns

/-!
# When `sprintk` stays inside its buffer

Nothing in `sprintk` compares `loc` with the size of `buf`.  A call stays inside
exactly if its pieces fit, and what was written stays on record in `writes`.
-/

namespace OS32

open Bytes KString
open Console (Uchar)

namespace Sprintk

variable {env : Env} {n : ℕ} {base : ℕ → Uchar} {s s' : State}
  {done : List Uchar} {ps : List Piece}

/-- A call that returns has scanned the format up to a zero, and if it stayed
below `n` its pieces fit. -/
theorem loop_cases {fuel : ℕ} (hrun : loopFrom env fuel s = .ok s')
    (hs : Filled n base s.buf s.loc done)
    (hwrites : ∀ i ∈ s'.buf.writes, i < n) :
    ∃ k ps, Scans env k s.p s.ap ps s'.p s'.ap ∧ env.fmtAt s'.p = 0 ∧
      Fits n done.length ps ∧
      Filled n base s'.buf s'.loc (done ++ output ps) := by
  obtain ⟨k, _, hturns, hend⟩ := loop_turns hrun
  obtain ⟨ps, hscan, _, _, hfits⟩ := hturns.scans
  have hroom : Fits n done.length ps := hs.length ▸ hfits n hwrites
  exact ⟨k, ps, hscan, hend, hroom, hturns.filled hs hscan hroom⟩

/-! ## The exact condition -/

/-- Room for the last terminator is needed only after a string. -/
theorem fits_iff {loc : ℕ} (hloc : loc < n) : Fits n loc ps ↔
    loc + (output ps).length < n ∨
      loc + (output ps).length = n ∧ ∃ c, ps.getLast? = some (.chr c) := by
  rcases List.eq_nil_or_concat' ps with rfl | ⟨init, last, rfl⟩
  · simpa [Fits] using hloc
  · rw [fits_append, List.getLast?_concat, output_append, List.length_append]
    cases last with
    | chr c =>
        simp only [Fits, and_true, output_chr, output_nil, List.length_singleton]
        constructor
        · rintro ⟨_, hroom⟩
          rcases Nat.lt_or_eq_of_le (Nat.succ_le_of_lt hroom) with hlt | heq
          · exact .inl (by omega)
          · exact .inr ⟨by omega, c, rfl⟩
        · intro hcases
          have hroom : loc + (output init).length < n := by
            rcases hcases with hlt | ⟨heq, _⟩ <;> omega
          exact ⟨fits_of_lt hroom, hroom⟩
    | text t =>
        simp only [Fits, and_true, output_text, output_nil, List.append_nil]
        constructor
        · rintro ⟨_, hroom⟩
          exact .inl (by omega)
        · rintro (hlt | ⟨_, c, hc⟩)
          · exact ⟨fits_of_lt (by omega), by omega⟩
          · exact absurd (Option.some.inj hc) (by simp)

/-- The call returns, has written to `buf[0..1023]` only, and leaves a zero
there. -/
def StaysInside (env : Env) (old : ℕ → Uchar) (tmp : Buffer) : Prop :=
  ∃ fuel s, sprintk env fuel old tmp = .ok s ∧
    (∀ i ∈ s.buf.writes, i < 1024) ∧ ∃ i < 1024, s.buf.bytes i = 0

/-- A call stays inside just if its scan ends and the output leaves room for a
terminator, or fills the buffer without a string at the end and with a zero in
it. -/
theorem staysInside_iff (env : Env) (old : ℕ → Uchar) (tmp : Buffer) :
    StaysInside env old tmp ↔
      ∃ k ps p ap, Scans env k 0 0 ps p ap ∧ env.fmtAt p = 0 ∧
        ((output ps).length < 1024 ∨
          (output ps).length = 1024 ∧ (∃ c, ps.getLast? = some (.chr c)) ∧
            .chr 0 ∈ ps) := by
  have hstart := start_clear old tmp
  have hfits : ∀ ps, Fits 1024 ([] : List Uchar).length ps ↔
      (output ps).length < 1024 ∨ (output ps).length = 1024 ∧
        ∃ c, ps.getLast? = some (.chr c) := by
    intro ps
    rw [fits_iff (by decide), List.length_nil, Nat.zero_add]
  constructor
  · rintro ⟨fuel, s, hrun, hwrites, i, hi, hnul⟩
    obtain ⟨k, ps, hscan, hend, hroom, hfilled⟩ :=
      loop_cases hrun hstart hwrites
    refine ⟨k, ps, s.p, s.ap, hscan, hend, ?_⟩
    rcases (hfits ps).mp hroom with hlt | ⟨heq, hlast⟩
    · exact .inl hlt
    · refine .inr ⟨heq, hlast, hscan.nonzero ?_⟩
      have hget := overlay_get (overlay old 0 (List.replicate 1024 0)) 0
        (heq.symm ▸ hi)
      have hbytes := hfilled.bytes
      rw [List.nil_append] at hbytes
      rw [Nat.zero_add, ← hbytes, hnul] at hget
      exact hget ▸ List.getElem_mem _
  · rintro ⟨k, ps, p, ap, hscan, hend, hcases⟩
    have hroom : Fits 1024 ([] : List Uchar).length ps := by
      rw [hfits]
      rcases hcases with hlt | ⟨heq, hlast, _⟩
      · exact .inl hlt
      · exact .inr ⟨heq, hlast⟩
    obtain ⟨s, hturns, hp, _, hfilled⟩ :=
      Scans.turns (s := start old tmp) hscan hstart hroom
    have hbytes := hfilled.bytes
    rw [List.nil_append] at hbytes
    refine ⟨k + 1, s, hturns.loop (hp ▸ hend) (Nat.lt_succ_self k),
      hfilled.writes, ?_⟩
    rcases hcases with hlt | ⟨heq, _, hzero⟩
    · refine ⟨_, hlt, ?_⟩
      rw [hbytes, overlay_of_le _ (by omega)]
      exact hfilled.clear _ hlt
    · have hmem : (0 : Uchar) ∈ output ps :=
        List.mem_flatMap.mpr ⟨_, hzero, List.mem_singleton_self _⟩
      obtain ⟨i, hi, hget⟩ := List.mem_iff_getElem.mp hmem
      have hbyte := overlay_get (overlay old 0 (List.replicate 1024 0)) 0 hi
      rw [Nat.zero_add, ← hbytes, hget] at hbyte
      exact ⟨i, heq ▸ hi, hbyte⟩

/-- The format `"%s"` and a string of 1025 characters. -/
def longEnv : Env where
  mem a :=
    if a.toNat < 3 then [0x25, 0x73, 0].getD a.toNat 0
    else if a.toNat < 1028 then 0x41 else 0
  fmt := 0
  args _ := 3

theorem longEnv_string :
    CString (longEnv.string 3) (List.replicate 1025 0x41) := by
  have hmem : ∀ i ≤ 1025,
      longEnv.string 3 i = if i < 1025 then 0x41 else 0 := by
    intro i hi
    have haddr : ((3 : Uint) + BitVec.ofNat 32 i).toNat = 3 + i := by
      rw [BitVec.toNat_add, BitVec.toNat_ofNat]
      change (3 + i % 2 ^ 32) % 2 ^ 32 = 3 + i
      omega
    unfold Env.string longEnv
    simp only [haddr]
    rw [if_neg (by omega)]
    refine if_congr ?_ rfl rfl
    omega
  have hlength : (List.replicate 1025 (0x41 : Uchar)).length = 1025 :=
    List.length_replicate
  refine ⟨fun i hi => ?_, ?_, ?_⟩
  · rw [hlength] at hi
    rw [hmem i hi.le, if_pos hi, List.getElem_replicate]
  · intro hzero
    exact absurd (List.eq_of_mem_replicate hzero) (by decide)
  · rw [hlength, hmem 1025 le_rfl, if_neg (lt_irrefl _)]

theorem long_string_overruns :
    ¬ StaysInside longEnv (fun _ => 0) ⟨fun _ => 0, []⟩ := by
  rintro ⟨fuel, s, hrun, hwrites, _⟩
  obtain ⟨k, hk, hturns, hend⟩ := loop_turns hrun
  obtain ⟨_, ps, _, _, hfits, hfilled⟩ := loop_cases hrun
    (start_clear _ _) hwrites
  have hshort : s.loc ≤ 1024 := by
    rw [hfilled.length, List.nil_append]
    rcases (fits_iff (by decide)).mp hfits with hlt | ⟨heq, _⟩
    · rw [List.length_nil] at hlt
      omega
    · rw [List.length_nil] at heq
      omega
  have hscan : Scans longEnv (0 + 1) 0 0
      ([.text (List.replicate 1025 0x41)] ++ []) 2 1 :=
    .conversion (by decide) (.s longEnv_string) .refl
  have hlength : (List.replicate 1025 (0x41 : Uchar)).length = 1025 :=
    List.length_replicate
  have hroom : Fits 2048 ([] : List Uchar).length
      ([.text (List.replicate 1025 0x41)] ++ []) := by
    refine ⟨?_, trivial⟩
    rw [List.length_nil, hlength]
    decide
  obtain ⟨t, hturns', hp, _, hlong⟩ :=
    Scans.turns (s := start (fun _ => 0) ⟨fun _ => 0, []⟩) hscan
      (start_filled _ _ (by decide) fun _ _ _ => rfl) hroom
  have hend' : longEnv.fmtAt t.p = 0 := by
    rw [hp]
    decide
  obtain rfl := hturns.end_unique hend hturns' hend'
  have hloc := hlong.length
  rw [List.append_nil, output_text, output_nil, List.append_nil,
    List.nil_append, hlength] at hloc
  omega

end Sprintk

end OS32
