import OS32.KString

/-!
# `strcpy` and `strcmp`

Both strings lie in one memory here, and pointers are addresses.  `strcpy`
copies the characters and not the terminator, and it refuses to copy if the two
addresses are too close, or just half of the address space apart.
-/

namespace OS32

open Bytes
open Console (Uchar)

namespace KString

abbrev Memory := Uint → Uchar

/-- What the pointer `p` points to. -/
def bytesAt (mem : Memory) (p : Uint) (i : ℕ) : Uchar :=
  mem (p + BitVec.ofNat 32 i)

/-- `*dst++ = src[i];`, `n` times. -/
def copyLoop (mem : Memory) (dst src : Uint) (n : ℕ) : Memory :=
  (List.range n).foldl (fun mem i =>
    Function.update mem (dst + BitVec.ofNat 32 i) (bytesAt mem src i)) mem

/-- `strcpy`: what it returns, with 0 for NULL, and the memory. -/
def strcpy (mem : Memory) (dst src : Uint) : Except Fault (Uint × Memory) := do
  let len ← strlen (bytesAt mem src)
  let addrDis := if (dst - src).toInt < 0 then src - dst else dst - src
  if addrDis.toInt < len then return (0, mem)
  else return (dst, copyLoop mem dst src len)

/-- The loop of `strcmp`, ended after `fuel` turns. -/
def strcmpFrom (mem : Memory) : ℕ → Uint → Uint → Except Fault ℕ
  | 0, _, _ => .error .hang
  | fuel + 1, p1, p2 =>
      if mem p1 ≠ 0 ∧ mem p2 ≠ 0 then
        if mem p1 ≠ mem p2 then .ok 1
        else strcmpFrom mem fuel (p1 + 1) (p2 + 1)
      else if mem p1 = 0 ∧ mem p2 = 0 then .ok 0 else .ok 1

def strcmp (mem : Memory) (str1 str2 : Uint) : Except Fault ℕ :=
  strcmpFrom mem walkBound str1 str2

variable {mem mem' : Memory} {dst src p q : Uint} {t : List Uchar} {n : ℕ}

/-- The `n + 1` bytes at `dst` and those at `src` do not overlap. -/
def Apart (dst src : Uint) (n : ℕ) : Prop :=
  ∀ i ≤ n, ∀ j ≤ n, dst + BitVec.ofNat 32 i ≠ src + BitVec.ofNat 32 j

/-- `mem'` is `mem` with a copy at `dst` of the string `t` at `src`. -/
structure Copied (mem mem' : Memory) (dst src : Uint) (t : List Uchar) :
    Prop where
  string : CString (bytesAt mem' dst) t
  same : strcmp mem' dst src = .ok 0 ∧ strcmp mem' src dst = .ok 0
  source : ∀ i ≤ t.length, bytesAt mem' src i = bytesAt mem src i
  frame : ∀ a, (∀ i ≤ t.length, a ≠ dst + BitVec.ofNat 32 i) → mem' a = mem a

/-- `strcpy` makes a copy, and changes nothing where it returns NULL. -/
def Copies (mem : Memory) (dst src : Uint) (t : List Uchar) : Prop :=
  ∃ res mem', strcpy mem dst src = .ok (res, mem') ∧
    Copied mem mem' dst src t ∧ (res = 0 → mem' = mem)

/-! ## `strcmp` -/

theorem strcmpFrom_eq {fuel i : ℕ} (hp : CString (bytesAt mem p) t)
    (hq : CString (bytesAt mem q) t) (hi : i ≤ t.length)
    (hfuel : t.length < i + fuel) :
    strcmpFrom mem fuel (p + BitVec.ofNat 32 i) (q + BitVec.ofNat 32 i) =
      .ok 0 := by
  induction fuel generalizing i with
  | zero => omega
  | succ fuel ih =>
      unfold strcmpFrom
      rcases Nat.eq_or_lt_of_le hi with rfl | hlt
      · have hpnul : mem (p + BitVec.ofNat 32 t.length) = 0 := hp.nul
        have hqnul : mem (q + BitVec.ofNat 32 t.length) = 0 := hq.nul
        rw [if_neg (fun h => h.1 hpnul), if_pos ⟨hpnul, hqnul⟩]
      · have hsame : mem (p + BitVec.ofNat 32 i) = mem (q + BitVec.ofNat 32 i) :=
          (hp.chars i hlt).trans (hq.chars i hlt).symm
        have hstep : ∀ a : Uint, a + BitVec.ofNat 32 i + 1 =
            a + BitVec.ofNat 32 (i + 1) := by
          intro a
          rw [BitVec.ofNat_add, BitVec.add_assoc]
          rfl
        rw [if_pos ⟨hp.ne_zero hlt, hq.ne_zero hlt⟩, if_neg (not_not.mpr hsame),
          hstep, hstep]
        exact ih hlt (by omega)

theorem strcmp_eq (hp : CString (bytesAt mem p) t)
    (hq : CString (bytesAt mem q) t) (hlength : t.length < walkBound) :
    strcmp mem p q = .ok 0 := by
  have hrun := strcmpFrom_eq hp hq (Nat.zero_le _)
    (show t.length < 0 + walkBound by omega)
  rwa [BitVec.add_zero, BitVec.add_zero] at hrun

/-- `strcmp` decides whether two strings are the same. -/
theorem strcmpFrom_strings {u : List Uchar} {fuel i : ℕ}
    (hp : CString (bytesAt mem p) t) (hq : CString (bytesAt mem q) u)
    (hit : i ≤ t.length) (hiu : i ≤ u.length) (hsame : t.take i = u.take i)
    (hfuel : t.length < i + fuel) :
    strcmpFrom mem fuel (p + BitVec.ofNat 32 i) (q + BitVec.ofNat 32 i) =
      .ok (if t = u then 0 else 1) := by
  induction fuel generalizing i with
  | zero => omega
  | succ fuel ih =>
      unfold strcmpFrom
      rcases Nat.eq_or_lt_of_le hit with rfl | ht
      · have hpnul : mem (p + BitVec.ofNat 32 t.length) = 0 := hp.nul
        rw [if_neg (fun h => h.1 hpnul)]
        rw [List.take_length] at hsame
        rcases Nat.eq_or_lt_of_le hiu with hend | hmore
        · have hqnul : mem (q + BitVec.ofNat 32 t.length) = 0 :=
            hend.symm ▸ hq.nul
          rw [hend, List.take_length] at hsame
          rw [if_pos ⟨hpnul, hqnul⟩, if_pos hsame]
        · rw [if_neg (fun h => hq.ne_zero hmore h.2),
            if_neg (fun heq => absurd hmore (by rw [heq]; exact lt_irrefl _))]
      · rcases Nat.eq_or_lt_of_le hiu with rfl | hu
        · have hqnul : mem (q + BitVec.ofNat 32 u.length) = 0 := hq.nul
          rw [if_neg (fun h => h.2 hqnul),
            if_neg (fun h => hp.ne_zero ht h.1),
            if_neg (fun heq => absurd ht (by rw [heq]; exact lt_irrefl _))]
        · have hstep : ∀ a : Uint, a + BitVec.ofNat 32 i + 1 =
              a + BitVec.ofNat 32 (i + 1) := by
            intro a
            rw [BitVec.ofNat_add, BitVec.add_assoc]
            rfl
          have hleft : mem (p + BitVec.ofNat 32 i) = t[i] := hp.chars i ht
          have hright : mem (q + BitVec.ofNat 32 i) = u[i] := hq.chars i hu
          rw [if_pos ⟨hp.ne_zero ht, hq.ne_zero hu⟩, hleft, hright]
          by_cases hchar : t[i] = u[i]
          · rw [if_neg (not_not.mpr hchar), hstep, hstep]
            refine ih ht hu ?_ (by omega)
            rw [List.take_succ_eq_append_getElem ht,
              List.take_succ_eq_append_getElem hu, hsame, hchar]
          · rw [if_pos hchar, if_neg (fun heq => hchar (by simp only [heq]))]

theorem strcmp_strings {u : List Uchar} (hp : CString (bytesAt mem p) t)
    (hq : CString (bytesAt mem q) u) (hlength : t.length < walkBound) :
    strcmp mem p q = .ok (if t = u then 0 else 1) := by
  have hrun := strcmpFrom_strings hp hq (Nat.zero_le _) (Nat.zero_le _) rfl
    (show t.length < 0 + walkBound by omega)
  rwa [BitVec.add_zero, BitVec.add_zero] at hrun

/-! ## The copy -/

theorem add_toNat_sub (p q : Uint) : p + BitVec.ofNat 32 (q - p).toNat = q := by
  rw [BitVec.ofNat_toNat, BitVec.setWidth_eq, BitVec.add_comm,
    BitVec.sub_add_cancel]

theorem toNat_add_sub (p : Uint) {i : ℕ} (hi : i < 2 ^ 32) :
    (p + BitVec.ofNat 32 i - p).toNat = i := by
  rw [BitVec.add_comm, BitVec.add_sub_cancel, BitVec.toNat_ofNat]
  exact Nat.mod_eq_of_lt hi

theorem Apart.distance (hapart : Apart dst src n) :
    n < (dst - src).toNat ∧ (dst - src).toNat + n < 2 ^ 32 := by
  have hahead : n < (dst - src).toNat := by
    by_contra hclose
    have hmeet := hapart 0 (Nat.zero_le n) (dst - src).toNat (by omega)
    rw [add_toNat_sub] at hmeet
    exact hmeet (BitVec.add_zero dst)
  have hbehind : n < (src - dst).toNat := by
    by_contra hclose
    have hmeet := hapart (src - dst).toNat (by omega) 0 (Nat.zero_le n)
    rw [add_toNat_sub] at hmeet
    exact hmeet (BitVec.add_zero src).symm
  refine ⟨hahead, ?_⟩
  have hneg : (src - dst).toNat = 2 ^ 32 - (dst - src).toNat := by bv_omega
  omega

/-- The loop reads every character before anything is written over it. -/
theorem copyLoop_eq {m : ℕ} (hapart : Apart dst src n) (hm : m ≤ n) (a : Uint) :
    copyLoop mem dst src m a =
      if (a - dst).toNat < m then mem (src + (a - dst)) else mem a := by
  have hdistance := hapart.distance
  induction m generalizing a with
  | zero => rfl
  | succ m ih =>
      have ih := ih (by omega)
      have hstep : copyLoop mem dst src (m + 1) =
          Function.update (copyLoop mem dst src m) (dst + BitVec.ofNat 32 m)
            (bytesAt (copyLoop mem dst src m) src m) := by
        unfold copyLoop
        rw [List.range_succ, List.foldl_append]
        rfl
      have hread : bytesAt (copyLoop mem dst src m) src m = bytesAt mem src m := by
        unfold bytesAt
        rw [ih, if_neg]
        intro hwritten
        have hmeet := hapart (src + BitVec.ofNat 32 m - dst).toNat (by omega) m
          (by omega)
        rw [add_toNat_sub] at hmeet
        exact hmeet rfl
      rw [hstep, hread]
      by_cases ha : a = dst + BitVec.ofNat 32 m
      · subst ha
        have hoffset : dst + BitVec.ofNat 32 m - dst = BitVec.ofNat 32 m := by
          rw [BitVec.add_comm, BitVec.add_sub_cancel]
        rw [Function.update_self, if_pos, hoffset]
        · rfl
        · rw [toNat_add_sub dst (by omega)]
          exact m.lt_succ_self
      · have hne : (a - dst).toNat ≠ m := by
          rintro rfl
          exact ha (add_toNat_sub dst a).symm
        rw [Function.update_of_ne ha, ih]
        exact if_congr (by omega) rfl rfl

/-- At half of the address space the negated distance is negative as well. -/
theorem addrDis_lt_iff {d : Uint} (hahead : n < d.toNat)
    (hbehind : d.toNat + n < 2 ^ 32) :
    (if d.toInt < 0 then -d else d).toInt < (n : ℤ) ↔ d = 0x80000000 := by
  have hhalf : d = 0x80000000 ↔ d.toNat = 2 ^ 31 := BitVec.toNat_inj.symm
  have hneg : (-d).toNat = 2 ^ 32 - d.toNat := by
    rw [BitVec.toNat_neg]
    exact Nat.mod_eq_of_lt (by omega)
  rw [hhalf]
  split
  next hsign =>
    rw [BitVec.toInt_eq_toNat_cond] at hsign
    rw [BitVec.toInt_eq_toNat_cond, hneg]
    split_ifs at hsign ⊢ <;> omega
  next hsign =>
    rw [BitVec.toInt_eq_toNat_cond] at hsign ⊢
    split_ifs at hsign ⊢ <;> omega

/-- What `strcpy` does with a destination apart from the source. -/
theorem strcpy_eq (ht : CString (bytesAt mem src) t)
    (hapart : Apart dst src t.length) :
    strcpy mem dst src = .ok (if dst - src = 0x80000000 then (0, mem)
      else (dst, copyLoop mem dst src t.length)) := by
  obtain ⟨hahead, hbehind⟩ := hapart.distance
  have hlength : t.length < walkBound := by
    change t.length < 2 ^ 32
    omega
  have hneg : src - dst = -(dst - src) := by bv_omega
  unfold strcpy
  rw [strlen_eq ht hlength]
  change (if (if (dst - src).toInt < 0 then src - dst
      else dst - src).toInt < (t.length : ℤ) then Except.ok (0, mem)
    else Except.ok (dst, copyLoop mem dst src t.length)) = _
  rw [hneg, if_congr (addrDis_lt_iff hahead hbehind) rfl rfl]
  exact (apply_ite Except.ok _ _ _).symm

/-- Of strings that are too close nothing is copied. -/
theorem strcpy_close (ht : CString (bytesAt mem src) t)
    (hlength : t.length < 2 ^ 31)
    (hclose : (dst - src).toNat < t.length ∨ (src - dst).toNat < t.length) :
    strcpy mem dst src = .ok (0, mem) := by
  have hneg : src - dst = -(dst - src) := by bv_omega
  have hdis : (if (dst - src).toInt < 0 then src - dst
      else dst - src).toInt < (t.length : ℤ) := by
    rw [hneg] at hclose ⊢
    generalize dst - src = d at hclose ⊢
    rw [BitVec.toNat_neg] at hclose
    split
    next hsign =>
      rw [BitVec.toInt_eq_toNat_cond] at hsign
      rw [BitVec.toInt_eq_toNat_cond, BitVec.toNat_neg]
      split_ifs at hsign ⊢ <;> omega
    next hsign =>
      rw [BitVec.toInt_eq_toNat_cond] at hsign ⊢
      split_ifs at hsign ⊢ <;> omega
  unfold strcpy
  rw [strlen_eq ht (hlength.trans (by decide))]
  exact if_pos hdis

/-- NULL says that nothing was copied, but for a copy at address 0. -/
theorem strcpy_null (hdst : dst ≠ 0)
    (hrun : strcpy mem dst src = .ok (0, mem')) : mem' = mem := by
  obtain ⟨len, _, hret⟩ := bind_ok_iff.mp hrun
  by_cases hclose : (if (dst - src).toInt < 0 then src - dst
      else dst - src).toInt < (len : ℤ)
  · have hnull := (if_pos hclose).symm.trans hret
    exact (Prod.mk.inj (Except.ok.inj hnull)).2.symm
  · have hcopy := (if_neg hclose).symm.trans hret
    exact absurd (Prod.mk.inj (Except.ok.inj hcopy)).1 hdst

/-! ## When the copy is a string -/

theorem Apart.copyLoop_dst (hapart : Apart dst src n) (mem : Memory) {i : ℕ}
    (hi : i < n) :
    bytesAt (copyLoop mem dst src n) dst i = bytesAt mem src i := by
  have hdistance := hapart.distance
  have hoffset : dst + BitVec.ofNat 32 i - dst = BitVec.ofNat 32 i := by
    rw [BitVec.add_comm, BitVec.add_sub_cancel]
  unfold bytesAt
  rw [copyLoop_eq hapart le_rfl, toNat_add_sub dst (by omega), if_pos hi, hoffset]

theorem Apart.copyLoop_frame (hapart : Apart dst src n) {a : Uint}
    (ha : ∀ i < n, a ≠ dst + BitVec.ofNat 32 i) :
    copyLoop mem dst src n a = mem a := by
  rw [copyLoop_eq hapart le_rfl, if_neg]
  intro hwritten
  exact ha _ hwritten (add_toNat_sub dst a).symm

/-- The terminator is the byte that was behind the copy before. -/
theorem Apart.copyLoop_string (hapart : Apart dst src t.length)
    (ht : CString (bytesAt mem src) t) :
    CString (bytesAt (copyLoop mem dst src t.length) dst) t ↔
      mem (dst + BitVec.ofNat 32 t.length) = 0 := by
  have hdistance := hapart.distance
  have hend : bytesAt (copyLoop mem dst src t.length) dst t.length =
      mem (dst + BitVec.ofNat 32 t.length) := by
    unfold bytesAt
    rw [copyLoop_eq hapart le_rfl, toNat_add_sub dst (by omega),
      if_neg (lt_irrefl _)]
  rw [← hend]
  constructor
  · exact CString.nul
  · intro hnul
    refine ⟨fun i hi => ?_, ht.nonzero, hnul⟩
    rw [hapart.copyLoop_dst mem hi]
    exact ht.chars i hi

theorem Copied.of_string (ht : CString (bytesAt mem src) t)
    (hapart : Apart dst src t.length)
    (hstring : CString (bytesAt mem' dst) t)
    (hframe : ∀ a, (∀ i ≤ t.length, a ≠ dst + BitVec.ofNat 32 i) →
      mem' a = mem a) : Copied mem mem' dst src t := by
  have hdistance := hapart.distance
  have hlength : t.length < walkBound := by
    change t.length < 2 ^ 32
    omega
  have hsource : ∀ i ≤ t.length, bytesAt mem' src i = bytesAt mem src i :=
    fun i hi => hframe _ fun j hj => (hapart j hj i hi).symm
  have hkept : CString (bytesAt mem' src) t := by
    refine ⟨fun i hi => ?_, ht.nonzero, ?_⟩
    · rw [hsource i hi.le]
      exact ht.chars i hi
    · rw [hsource _ le_rfl]
      exact ht.nul
  exact ⟨hstring, ⟨strcmp_eq hstring hkept hlength,
    strcmp_eq hkept hstring hlength⟩, hsource, hframe⟩

/-- `strcpy` makes a copy if a zero is where the terminator belongs, and if it
returns a pointer or the string has been there already. -/
theorem copies_iff (ht : CString (bytesAt mem src) t)
    (hapart : Apart dst src t.length) :
    Copies mem dst src t ↔ mem (dst + BitVec.ofNat 32 t.length) = 0 ∧
      (dst - src = 0x80000000 ∨ dst = 0 → CString (bytesAt mem dst) t) := by
  have hrun := strcpy_eq ht hapart
  by_cases hhalf : dst - src = 0x80000000
  · -- nothing is copied
    rw [if_pos hhalf] at hrun
    constructor
    · rintro ⟨res, mem', hrun', hcopied, _⟩
      cases hrun.symm.trans hrun'
      exact ⟨hcopied.string.nul, fun _ => hcopied.string⟩
    · rintro ⟨_, hthere⟩
      exact ⟨0, mem, hrun, .of_string ht hapart (hthere (.inl hhalf))
        fun _ _ => rfl, fun _ => rfl⟩
  · rw [if_neg hhalf] at hrun
    constructor
    · rintro ⟨res, mem', hrun', hcopied, hnull⟩
      cases hrun.symm.trans hrun'
      refine ⟨(hapart.copyLoop_string ht).mp hcopied.string, ?_⟩
      rintro (hhalf' | hzero)
      · exact absurd hhalf' hhalf
      · have hstring := hcopied.string
        rwa [hnull hzero] at hstring
    · rintro ⟨hnul, hthere⟩
      refine ⟨dst, _, hrun, .of_string ht hapart
        ((hapart.copyLoop_string ht).mpr hnul) ?_, ?_⟩
      · exact fun a ha => hapart.copyLoop_frame fun i hi => ha i hi.le
      · intro hzero
        have hstring := hthere (.inr hzero)
        funext a
        by_cases ha : (a - dst).toNat < t.length
        · have hold := hstring.chars _ ha
          have hnew := (hapart.copyLoop_dst mem ha).trans (ht.chars _ ha)
          unfold bytesAt at hold hnew
          rw [add_toNat_sub] at hold hnew
          exact hnew.trans hold.symm
        · rw [copyLoop_eq hapart le_rfl, if_neg ha]

/-- The string `"A"` at 0x1000, and the byte `old` at 0x2001. -/
def oneLetter (old : Uchar) : Memory := fun a =>
  if a = 0x1000 then 0x41 else if a = 0x2001 then old else 0

theorem oneLetter_string (old : Uchar) :
    CString (bytesAt (oneLetter old) 0x1000) [0x41] := by
  refine ⟨fun i hi => ?_, by decide, rfl⟩
  obtain rfl : i = 0 := by simpa using hi
  rfl

theorem oneLetter_apart : Apart 0x2000 0x1000 [(0x41 : Uchar)].length := by
  unfold Apart
  decide

theorem copies_to_zeros : Copies (oneLetter 0) 0x2000 0x1000 [0x41] :=
  (copies_iff (oneLetter_string 0) oneLetter_apart).mpr
    ⟨rfl, fun h => absurd h (by decide)⟩

/-- What follows the copy becomes part of the string. -/
theorem copy_not_terminated :
    ¬ ∀ (mem : Memory) (dst src : Uint) (t : List Uchar),
      CString (bytesAt mem src) t → Apart dst src t.length →
      Copies mem dst src t := by
  intro hall
  obtain ⟨res, mem', hrun, hcopied, _⟩ :=
    hall _ _ _ _ (oneLetter_string 0x42) oneLetter_apart
  have hloop := strcpy_eq (oneLetter_string 0x42) oneLetter_apart
  rw [if_neg (by decide)] at hloop
  cases hloop.symm.trans hrun
  have hnul := (oneLetter_apart.copyLoop_string (oneLetter_string 0x42)).mp
    hcopied.string
  exact absurd hnul (by decide)

end KString
end OS32
