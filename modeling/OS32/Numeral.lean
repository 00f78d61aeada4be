import Mathlib.Data.Nat.Log
import OS32.KString

/-!
# Numerals: `itoa`, `utoa` and `ToHex`

The three functions write the digits of a number, the least significant one
first, and then reverse the string in place.  They differ in the arithmetic
which takes a digit off.
-/

namespace OS32

open Bytes KString
open Console (Uchar)

namespace Numeral

/-! ## The functions -/

section Convert

variable (digit : Uint → Uchar) (rest : Uint → Uint)

/-- The loop over the digits, ended after `fuel` turns; `digit v` is the
character and `rest v` the new value of `v`. -/
def digitLoop : ℕ → Uint → ℕ → Buffer → Except Fault (ℕ × Buffer)
  | 0, _, _, _ => .error .hang
  | fuel + 1, v, cnt, buf =>
      let buf := buf.write cnt (digit v)
      let cnt := cnt + 1
      let v := rest v
      if v ≠ 0 then digitLoop fuel v cnt buf else .ok (cnt, buf)

/-- One turn of the loop that reverses the string. -/
def swapEnds (cnt : ℕ) (buf : Buffer) (i : ℕ) : Buffer :=
  let tmp := buf.bytes i
  let buf := buf.write i (buf.bytes (cnt - i - 1))
  buf.write (cnt - i - 1) tmp

/-- What the three functions have in common. -/
def convert (x : Uint) (buf : Buffer) : Except Fault Buffer := do
  let (cnt, buf) ← digitLoop digit rest walkBound x 0 buf
  let buf := buf.write cnt 0
  return (List.range (cnt / 2)).foldl (swapEnds cnt) buf

end Convert

/-- `(char)(v % 10 + 0x30)` for an `int` -/
def itoaDigit (v : Uint) : Uchar := (v.srem 10 + 0x30).setWidth 8
def utoaDigit (v : Uint) : Uchar := (v % 10 + 0x30).setWidth 8
def toHexDigit (v : Uint) : Uchar :=
  if v % 16 < 10 then (v % 16 + 0x30).setWidth 8
  else (v % 16 - 10 + 0x41).setWidth 8

def itoa : Uint → Buffer → Except Fault Buffer :=
  convert itoaDigit fun v => v.sdiv 10
def utoa : Uint → Buffer → Except Fault Buffer :=
  convert utoaDigit fun v => v / 10
def toHex : Uint → Buffer → Except Fault Buffer :=
  convert toHexDigit fun v => v / 16

/-- In any buffer the function leaves the string `t` for `x`. -/
def Text (f : Uint → Buffer → Except Fault Buffer) (x : Uint)
    (t : List Uchar) : Prop :=
  ∀ buf, ∃ buf', f x buf = .ok buf' ∧ CString buf'.bytes t

theorem Text.unique {f : Uint → Buffer → Except Fault Buffer} {x : Uint}
    {t u : List Uchar} (ht : Text f x t) (hu : Text f x u) : t = u := by
  obtain ⟨b, hb, hbt⟩ := ht ⟨fun _ => 0, []⟩
  obtain ⟨b', hb', hbu⟩ := hu ⟨fun _ => 0, []⟩
  obtain rfl := Except.ok.inj (hb.symm.trans hb')
  exact hbt.unique hbu

theorem Text.nonzero {f : Uint → Buffer → Except Fault Buffer} {x : Uint}
    {t : List Uchar} (ht : Text f x t) : (0 : Uchar) ∉ t := by
  obtain ⟨_, _, hstring⟩ := ht ⟨fun _ => 0, []⟩
  exact hstring.nonzero

theorem Text.short {f : Uint → Buffer → Except Fault Buffer} {x : Uint}
    {t : List Uchar} (ht : Text f x t)
    (hexists : ∃ u, Text f x u ∧ u.length ≤ 10) : t.length < walkBound := by
  obtain ⟨u, hu, hlength⟩ := hexists
  obtain rfl := ht.unique hu
  exact hlength.trans_lt (by decide)

/-! ## The digits in the order of the loop -/

/-- The characters for `v`, the least significant first. -/
inductive Digits (digit : Uint → Uchar) (rest : Uint → Uint) :
    Uint → List Uchar → Prop
  | last {v : Uint} : rest v = 0 → Digits digit rest v [digit v]
  | more {v : Uint} {l : List Uchar} : rest v ≠ 0 →
      Digits digit rest (rest v) l → Digits digit rest v (digit v :: l)

section Digits

variable {digit : Uint → Uchar} {rest : Uint → Uint} {v : Uint}
  {l : List Uchar}

theorem Digits.ne_nil (hl : Digits digit rest v l) : l ≠ [] := by
  cases hl <;> exact List.cons_ne_nil _ _

theorem Digits.loop (hl : Digits digit rest v l) {fuel cnt : ℕ} {buf : Buffer}
    (hfuel : l.length ≤ fuel) :
    digitLoop digit rest fuel v cnt buf = .ok (cnt + l.length,
      ⟨overlay buf.bytes cnt l,
        buf.writes ++ (List.range' cnt l.length)⟩) := by
  induction hl generalizing fuel cnt buf with
  | last hzero =>
      obtain ⟨fuel, rfl⟩ := Nat.exists_eq_succ_of_ne_zero
        (show fuel ≠ 0 by rintro rfl; simp at hfuel)
      unfold digitLoop
      rw [if_neg (not_not.mpr hzero), overlay_singleton]
      rfl
  | @more v l hne _ ih =>
      obtain ⟨fuel, rfl⟩ := Nat.exists_eq_succ_of_ne_zero
        (show fuel ≠ 0 by rintro rfl; simp at hfuel)
      unfold digitLoop
      rw [if_pos hne, ih (Nat.le_of_succ_le_succ hfuel)]
      have hjoin : overlay buf.bytes cnt (digit v :: l) =
          overlay (overlay buf.bytes cnt [digit v]) (cnt + 1) l :=
        (overlay_append buf.bytes cnt [digit v] l).symm
      rw [hjoin, overlay_singleton, List.length_cons, List.range'_succ,
        ← Nat.add_assoc, Nat.add_right_comm]
      simp [Buffer.write]

/-- The string after `n` turns of the loop that reverses it. -/
theorem swapEnds_bytes (buf : Buffer) {cnt n : ℕ} (hn : n ≤ cnt / 2) (j : ℕ) :
    ((List.range n).foldl (swapEnds cnt) buf).bytes j =
      if j < n ∨ cnt - n ≤ j ∧ j < cnt then buf.bytes (cnt - 1 - j)
      else buf.bytes j := by
  induction n generalizing j with
  | zero =>
      have hout : ¬ (j < 0 ∨ cnt - 0 ≤ j ∧ j < cnt) := by omega
      rw [if_neg hout]
      rfl
  | succ n ih =>
      have ih := ih (by omega)
      rw [List.range_succ, List.foldl_append]
      simp only [List.foldl_cons, List.foldl_nil, swapEnds, Buffer.write]
      by_cases hlast : j = cnt - n - 1
      · subst hlast
        rw [Function.update_self, ih, if_neg (by omega), if_pos (by omega)]
        congr 1
        omega
      · rw [Function.update_of_ne hlast]
        by_cases hfirst : j = n
        · subst hfirst
          rw [Function.update_self, ih, if_neg (by omega), if_pos (by omega)]
          congr 1
          omega
        · rw [Function.update_of_ne hfirst, ih]
          refine if_congr ?_ rfl rfl
          omega

theorem swapEnds_writes (buf : Buffer) {cnt n : ℕ} (hn : n ≤ cnt / 2) :
    ∃ more, ((List.range n).foldl (swapEnds cnt) buf).writes =
        buf.writes ++ more ∧ ∀ i ∈ more, i < cnt := by
  induction n with
  | zero => exact ⟨[], (List.append_nil _).symm, fun i hi => nomatch hi⟩
  | succ n ih =>
      obtain ⟨more, hmore, hbound⟩ := ih (by omega)
      refine ⟨more ++ [n, cnt - n - 1], ?_, ?_⟩
      · rw [List.range_succ, List.foldl_append]
        simp [swapEnds, Buffer.write, hmore]
      · intro i hi
        rcases List.mem_append.mp hi with hi | hi
        · exact hbound i hi
        · simp only [List.mem_cons, List.not_mem_nil, or_false] at hi
          omega

/-- Only the characters of the string and its terminator are written. -/
theorem Digits.writes (hl : Digits digit rest v l)
    (hlength : l.length ≤ walkBound) {buf buf' : Buffer}
    (hrun : convert digit rest v buf = .ok buf') :
    ∃ more, buf'.writes = buf.writes ++ more ∧ ∀ i ∈ more, i ≤ l.length := by
  unfold convert at hrun
  rw [hl.loop hlength, Nat.zero_add] at hrun
  obtain rfl := Except.ok.inj hrun
  obtain ⟨more, hmore, hbound⟩ := swapEnds_writes
    (Buffer.write ⟨overlay buf.bytes 0 l,
      buf.writes ++ List.range' 0 l.length⟩ l.length 0)
    (le_refl (l.length / 2))
  refine ⟨List.range' 0 l.length ++ [l.length] ++ more, ?_, ?_⟩
  · rw [hmore]
    simp [Buffer.write]
  · intro i hi
    rcases List.mem_append.mp hi with hi | hi
    · simp only [List.mem_append, List.mem_range'_1, List.mem_singleton] at hi
      omega
    · exact (hbound i hi).le

/-- The string is the digits, the most significant first. -/
theorem Digits.text (hl : Digits digit rest v l) (hnonzero : (0 : Uchar) ∉ l)
    (hlength : l.length ≤ walkBound) : Text (convert digit rest) v l.reverse := by
  intro buf
  unfold convert
  rw [hl.loop hlength]
  refine ⟨_, rfl, ?_, by simpa using hnonzero, ?_⟩
  · intro i hi
    rw [List.length_reverse] at hi
    rw [Nat.zero_add, swapEnds_bytes _ le_rfl, List.getElem_reverse]
    simp only [Buffer.write]
    have hget : ∀ j (hj : j < l.length),
        Function.update (overlay buf.bytes 0 l) l.length 0 j = l[j] := by
      intro j hj
      rw [Function.update_of_ne hj.ne]
      have hoverlay := overlay_get buf.bytes 0 hj
      rwa [Nat.zero_add] at hoverlay
    split
    next => exact hget _ (by omega)
    next hmiddle =>
      -- only the middle one of an odd number of digits stays
      rw [hget i hi]
      congr 1
      omega
  · rw [Nat.zero_add, List.length_reverse, swapEnds_bytes _ le_rfl,
      if_neg (by omega)]
    exact Function.update_self ..

theorem Digits.length_le {base k : ℕ}
    (hrest : ∀ v, (rest v).toNat = v.toNat / base)
    (hl : Digits digit rest v l) (hv : v.toNat < base ^ (k + 1)) :
    l.length ≤ k + 1 := by
  induction hl generalizing k with
  | last => simp
  | @more v l hne _ ih =>
      cases k with
      | zero =>
          rw [Nat.zero_add, pow_one] at hv
          have hzero : (rest v).toNat = 0 := by
            rw [hrest]
            exact Nat.div_eq_of_lt hv
          exact absurd (BitVec.toNat_inj.mp hzero) hne
      | succ k =>
          refine Nat.succ_le_succ (ih ?_)
          rw [hrest]
          exact Nat.div_lt_of_lt_mul (by rwa [← pow_succ'])

theorem exists_digits {base : ℕ} (hbase : 1 < base)
    (hrest : ∀ v, (rest v).toNat = v.toNat / base) (v : Uint) :
    ∃ l, Digits digit rest v l := by
  generalize hn : v.toNat = n
  induction n using Nat.strong_induction_on generalizing v with
  | _ n ih =>
      by_cases hzero : rest v = 0
      · exact ⟨_, .last hzero⟩
      · have hpos : 0 < n := by
          rw [Nat.pos_iff_ne_zero]
          rintro rfl
          apply hzero
          rw [← BitVec.toNat_inj, hrest, hn]
          exact Nat.zero_div base
        have hlt : (rest v).toNat < n := by
          rw [hrest, hn]
          exact Nat.div_lt_self hpos hbase
        obtain ⟨l, hl⟩ := ih _ hlt (rest v) rfl
        exact ⟨_, .more hzero hl⟩

end Digits

/-! ## What the strings mean -/

/-- `'0'` to `'9'` and `'A'` to `'F'`. -/
def digitValue (c : Uchar) : ℕ :=
  if c ≤ 0x39 then c.toNat - 0x30 else c.toNat - 0x37

def IsDigit (base : ℕ) (c : Uchar) : Prop :=
  (0x30 ≤ c ∧ c ≤ 0x39 ∨ 0x41 ≤ c ∧ c ≤ 0x46) ∧ digitValue c < base

instance (base : ℕ) (c : Uchar) : Decidable (IsDigit base c) :=
  inferInstanceAs (Decidable (_ ∧ _))

/-- The number that a string of digits denotes. -/
def parse (base : ℕ) (t : List Uchar) : ℕ :=
  t.foldl (fun n c => base * n + digitValue c) 0

/-- `t` is the numeral of `n`: digits, and no leading zero but for `"0"`. -/
structure IsNumeral (base : ℕ) (t : List Uchar) (n : ℕ) : Prop where
  ne_nil : t ≠ []
  digits : ∀ c ∈ t, IsDigit base c
  leading : t.head? = some 0x30 → t = [0x30]
  value : parse base t = n

theorem IsDigit.ne_zero {base : ℕ} {c : Uchar} (hc : IsDigit base c) :
    c ≠ 0 := by
  rintro rfl
  rcases hc.1 with ⟨hlow, _⟩ | ⟨hlow, _⟩ <;> exact absurd hlow (by decide)

section Meaning

variable {digit : Uint → Uchar} {rest : Uint → Uint} {v : Uint}
  {l : List Uchar} {base : ℕ}

theorem Digits.isDigit (hdigit : ∀ v, IsDigit base (digit v))
    (hl : Digits digit rest v l) : ∀ c ∈ l, IsDigit base c := by
  induction hl with
  | last => simpa using hdigit _
  | more _ _ ih => exact List.forall_mem_cons.mpr ⟨hdigit _, ih⟩

theorem Digits.parse_eq (hrest : ∀ v, (rest v).toNat = v.toNat / base)
    (hvalue : ∀ v, digitValue (digit v) = v.toNat % base)
    (hl : Digits digit rest v l) : parse base l.reverse = v.toNat := by
  unfold parse
  rw [List.foldl_reverse]
  induction hl with
  | @last v hzero =>
      have hquot : v.toNat / base = 0 := by
        rw [← hrest, hzero]
        rfl
      have hdiv := Nat.div_add_mod v.toNat base
      rw [hquot] at hdiv
      simpa [hvalue] using hdiv
  | @more v l _ _ ih =>
      rw [List.foldr_cons, ih, hrest, hvalue]
      exact Nat.div_add_mod v.toNat base

theorem Digits.isNumeral (hrest : ∀ v, (rest v).toNat = v.toNat / base)
    (hdigit : ∀ v, IsDigit base (digit v))
    (hvalue : ∀ v, digitValue (digit v) = v.toNat % base)
    (hl : Digits digit rest v l) : IsNumeral base l.reverse v.toNat := by
  refine ⟨by simpa using hl.ne_nil, ?_, ?_, hl.parse_eq hrest hvalue⟩
  · intro c hc
    exact hl.isDigit hdigit c (List.mem_reverse.mp hc)
  · rw [List.head?_reverse]
    induction hl with
    | last => simp
    | @more v l hne hl ih =>
        intro hzero
        obtain ⟨c, l', rfl⟩ := List.exists_cons_of_ne_nil hl.ne_nil
        rw [List.getLast?_cons_cons] at hzero
        have hparse := hl.parse_eq hrest hvalue
        rw [ih hzero] at hparse
        have hv : (rest v).toNat = 0 := hparse.symm
        exact absurd (BitVec.toNat_inj.mp hv) hne

theorem Digits.length_eq (hbase : 1 < base)
    (hrest : ∀ v, (rest v).toNat = v.toNat / base)
    (hl : Digits digit rest v l) : l.length = Nat.log base v.toNat + 1 := by
  induction hl with
  | @last v hzero =>
      have hquot : v.toNat / base = 0 := by
        rw [← hrest, hzero]
        rfl
      have hlt := (Nat.div_eq_zero_iff_lt (by omega)).mp hquot
      rw [Nat.log_of_lt hlt, List.length_singleton]
  | @more v l hne _ ih =>
      have hquot : v.toNat / base ≠ 0 := fun hzero =>
        hne (BitVec.toNat_inj.mp ((hrest v).trans hzero))
      have hle : base ≤ v.toNat := by
        by_contra hlt
        exact hquot (Nat.div_eq_of_lt (not_le.mp hlt))
      rw [List.length_cons, ih, hrest, Nat.log_of_one_lt_of_le hbase hle]

/-- A function that takes the digits off by division. -/
theorem text_of_division {k : ℕ} (hbase : 1 < base)
    (hbound : 2 ^ 32 ≤ base ^ (k + 1)) (hk : k + 1 ≤ walkBound)
    (hrest : ∀ v, (rest v).toNat = v.toNat / base)
    (hdigit : ∀ v, IsDigit base (digit v))
    (hvalue : ∀ v, digitValue (digit v) = v.toNat % base) (x : Uint) :
    ∃ l, Digits digit rest x l ∧ l.length ≤ k + 1 ∧
      Text (convert digit rest) x l.reverse ∧
      IsNumeral base l.reverse x.toNat := by
  have hexists : ∃ l, Digits digit rest x l := exists_digits hbase hrest x
  obtain ⟨l, hl⟩ := hexists
  have hlength := hl.length_le hrest (x.isLt.trans_le hbound)
  have hnonzero : (0 : Uchar) ∉ l := fun hmem =>
    (hl.isDigit hdigit 0 hmem).ne_zero rfl
  exact ⟨l, hl, hlength, hl.text hnonzero (hlength.trans hk),
    hl.isNumeral hrest hdigit hvalue⟩

end Meaning

/-! ## The three functions -/

theorem utoaDigit_value (v : Uint) :
    IsDigit 10 (utoaDigit v) ∧ digitValue (utoaDigit v) = v.toNat % 10 := by
  have hall : ∀ d < 10, IsDigit 10 (((BitVec.ofNat 32 d) + 0x30).setWidth 8) ∧
      digitValue (((BitVec.ofNat 32 d) + 0x30).setWidth 8) = d := by decide
  have hmod : v % 10 = BitVec.ofNat 32 (v.toNat % 10) := by
    rw [← BitVec.toNat_inj, BitVec.toNat_umod, BitVec.toNat_ofNat]
    change v.toNat % 10 = v.toNat % 10 % 2 ^ 32
    omega
  unfold utoaDigit
  rw [hmod]
  exact hall _ (Nat.mod_lt _ (by norm_num))

theorem toHexDigit_value (v : Uint) :
    IsDigit 16 (toHexDigit v) ∧ digitValue (toHexDigit v) = v.toNat % 16 := by
  have hall : ∀ d < 16, IsDigit 16 (if BitVec.ofNat 32 d < 10 then
      ((BitVec.ofNat 32 d) + 0x30).setWidth 8
      else ((BitVec.ofNat 32 d) - 10 + 0x41).setWidth 8) ∧
      digitValue (if BitVec.ofNat 32 d < 10 then
        ((BitVec.ofNat 32 d) + 0x30).setWidth 8
        else ((BitVec.ofNat 32 d) - 10 + 0x41).setWidth 8) = d := by decide
  have hmod : v % 16 = BitVec.ofNat 32 (v.toNat % 16) := by
    rw [← BitVec.toNat_inj, BitVec.toNat_umod, BitVec.toNat_ofNat]
    change v.toNat % 16 = v.toNat % 16 % 2 ^ 32
    omega
  unfold toHexDigit
  rw [hmod]
  exact hall _ (Nat.mod_lt _ (by norm_num))

theorem utoa_digits (x : Uint) :
    ∃ l, Digits utoaDigit (fun v => v / 10) x l ∧ l.length ≤ 10 ∧
      Text utoa x l.reverse ∧ IsNumeral 10 l.reverse x.toNat := by
  have hrest : ∀ v : Uint, (v / 10).toNat = v.toNat / 10 :=
    fun v => BitVec.toNat_udiv
  exact text_of_division (k := 9) (by norm_num) (by norm_num) (by decide) hrest
    (fun v => (utoaDigit_value v).1) (fun v => (utoaDigit_value v).2) x

theorem toHex_digits (x : Uint) :
    ∃ l, Digits toHexDigit (fun v => v / 16) x l ∧ l.length ≤ 8 ∧
      Text toHex x l.reverse ∧ IsNumeral 16 l.reverse x.toNat := by
  have hrest : ∀ v : Uint, (v / 16).toNat = v.toNat / 16 :=
    fun v => BitVec.toNat_udiv
  exact text_of_division (k := 7) (by norm_num) (by norm_num) (by decide) hrest
    (fun v => (toHexDigit_value v).1) (fun v => (toHexDigit_value v).2) x

/-- Signed division is unsigned division where there is no sign. -/
theorem itoa_of_utoa {v : Uint} {l : List Uchar} (hv : v.toNat < 2 ^ 31)
    (hl : Digits utoaDigit (fun v => v / 10) v l) :
    Digits itoaDigit (fun v => v.sdiv 10) v l := by
  have hmsb : ∀ w : Uint, w.toNat < 2 ^ 31 → w.msb = false := by
    intro w hw
    rw [BitVec.msb_eq_false_iff_two_mul_lt]
    omega
  have hdiv : ∀ w : Uint, w.toNat < 2 ^ 31 → w.sdiv 10 = w / 10 := by
    intro w hw
    rw [BitVec.sdiv_eq, hmsb w hw]
    rfl
  have hdigit : ∀ w : Uint, w.toNat < 2 ^ 31 → itoaDigit w = utoaDigit w := by
    intro w hw
    unfold itoaDigit utoaDigit
    rw [BitVec.srem_eq, hmsb w hw]
    rfl
  induction hl with
  | @last v hzero =>
      rw [← hdigit v hv]
      exact .last (by rw [hdiv v hv, hzero])
  | @more v l hne hl ih =>
      rw [← hdigit v hv]
      have hlt : (v / 10).toNat < 2 ^ 31 := by
        rw [BitVec.toNat_udiv]
        exact (Nat.div_le_self _ _).trans_lt hv
      rw [← hdiv v hv] at hne ih
      exact .more hne (ih (by rwa [hdiv v hv]))

theorem itoa_text {x : Uint} (hx : x.toNat < 2 ^ 31) :
    ∃ t, Text itoa x t ∧ t.length ≤ 10 ∧ t.length = Nat.log 10 x.toNat + 1 ∧
      IsNumeral 10 t x.toNat := by
  obtain ⟨l, hl, hlength, _, hnumeral⟩ := utoa_digits x
  have hnonzero : (0 : Uchar) ∉ l := fun hmem =>
    (hl.isDigit (fun v => (utoaDigit_value v).1) 0 hmem).ne_zero rfl
  have hbound : l.length ≤ walkBound := hlength.trans (by decide)
  have hwidth : l.length = Nat.log 10 x.toNat + 1 :=
    hl.length_eq (by norm_num) fun v => BitVec.toNat_udiv
  exact ⟨l.reverse, (itoa_of_utoa hx hl).text hnonzero hbound, by simpa,
    by simpa, hnumeral⟩

/-- The digits of `0x80000000`, which stays negative when it is negated, come
out as the characters in front of `'0'`. -/
def minText : List Uchar :=
  [0x2E, 0x2F, 0x2C, 0x29, 0x2C, 0x28, 0x2D, 0x2A, 0x2C, 0x28]

theorem itoa_min : Text itoa 0x80000000 minText := by
  have hdigits : Digits itoaDigit (fun v => v.sdiv 10) 0x80000000
      minText.reverse :=
    .more (by decide) (.more (by decide) (.more (by decide) (.more (by decide)
      (.more (by decide) (.more (by decide) (.more (by decide)
        (.more (by decide) (.more (by decide) (.last (by decide))))))))))
  exact hdigits.text (by decide) (by decide)

theorem exists_utoa (x : Uint) : ∃ t, Text utoa x t ∧ t.length ≤ 10 := by
  obtain ⟨l, _, hlength, ht, _⟩ := utoa_digits x
  exact ⟨_, ht, by rwa [List.length_reverse]⟩

theorem exists_toHex (x : Uint) : ∃ t, Text toHex x t ∧ t.length ≤ 10 := by
  obtain ⟨l, _, hlength, ht, _⟩ := toHex_digits x
  exact ⟨_, ht, by rw [List.length_reverse]; omega⟩

theorem exists_itoa {x : Uint} (hx : x.toNat ≤ 2 ^ 31) :
    ∃ t, Text itoa x t ∧ t.length ≤ 10 := by
  rcases Nat.lt_or_eq_of_le hx with hlt | heq
  · obtain ⟨t, ht, hlength, _⟩ := itoa_text hlt
    exact ⟨t, ht, hlength⟩
  · obtain rfl : x = 0x80000000 := BitVec.toNat_inj.mp heq
    exact ⟨minText, itoa_min, le_rfl⟩

/-! ## The round trip -/

/-- The function leaves the numeral of `x` in the base, and writes to the first
11 bytes of the buffer only. -/
def Prints (f : Uint → Buffer → Except Fault Buffer) (base : ℕ) (x : Uint)
    (buf : Buffer) : Prop :=
  ∃ buf' t more, f x buf = .ok buf' ∧ CString buf'.bytes t ∧
    IsNumeral base t x.toNat ∧ buf'.writes = buf.writes ++ more ∧
    ∀ i ∈ more, i < 11

theorem Digits.prints {digit : Uint → Uchar} {rest : Uint → Uint} {x : Uint}
    {l : List Uchar} {base : ℕ} (hl : Digits digit rest x l)
    (hlength : l.length ≤ 10) (htext : Text (convert digit rest) x l.reverse)
    (hnumeral : IsNumeral base l.reverse x.toNat) (buf : Buffer) :
    Prints (convert digit rest) base x buf := by
  obtain ⟨buf', hrun, hstring⟩ := htext buf
  have hbound : l.length ≤ walkBound := hlength.trans (by decide)
  obtain ⟨more, hmore, hwrites⟩ := hl.writes hbound hrun
  exact ⟨buf', _, more, hrun, hstring, hnumeral, hmore,
    fun i hi => by have hle := hwrites i hi; omega⟩

/-- `utoa` and `ToHex` print every unsigned number in at most 11 bytes, and the
number can be read back. -/
theorem unsigned_prints (x : Uint) (buf : Buffer) :
    Prints utoa 10 x buf ∧ Prints toHex 16 x buf := by
  obtain ⟨l, hl, hlength, htext, hnumeral⟩ := utoa_digits x
  obtain ⟨m, hm, hmlength, hmtext, hmnumeral⟩ := toHex_digits x
  exact ⟨hl.prints hlength htext hnumeral buf,
    hm.prints (hmlength.trans (by decide)) hmtext hmnumeral buf⟩

end Numeral

end OS32
