import Mathlib.Data.BitVec
import OS32.Bytes
import OS32.Console

/-!
# `kstring.c`

A pointer to characters is the memory from there on.  A buffer that is written
to records where.  Lengths and indices are natural numbers; an `int` holds them
up to `2 ^ 31`.
-/

namespace OS32

open Bytes
open Console (Uchar)

namespace KString

/-- An array of characters and what lies behind it, and the indices written so
far. -/
structure Buffer where
  bytes : ℕ → Uchar
  writes : List ℕ

namespace Buffer

/-- `b[i] = c;` -/
def write (b : Buffer) (i : ℕ) (c : Uchar) : Buffer where
  bytes := Function.update b.bytes i c
  writes := b.writes ++ [i]

end Buffer

/-- The loop of `strlen` from `i` on, ended after `fuel` turns. -/
def strlenFrom (src : ℕ → Uchar) : ℕ → ℕ → Except Fault ℕ
  | 0, _ => .error .hang
  | fuel + 1, i => if src i ≠ 0 then strlenFrom src fuel (i + 1) else .ok i

def strlen (src : ℕ → Uchar) : Except Fault ℕ := strlenFrom src walkBound 0

/-- `memset(b, val, len)` -/
def memset (b : Buffer) (val : Uchar) (len : ℕ) : Buffer :=
  (List.range len).foldl (fun b i => b.write i val) b

/-- `strcat(b + dst, src)` -/
def strcat (b : Buffer) (dst : ℕ) (src : ℕ → Uchar) : Except Fault Buffer := do
  let srcLen ← strlen src
  let dstLen ← strlen fun i => b.bytes (dst + i)
  let b := (List.range srcLen).foldl
    (fun b i => b.write (dst + dstLen + i) (src i)) b
  return b.write (dst + dstLen + srcLen) 0

/-! ## What they do -/

variable {b : Buffer} {src : ℕ → Uchar} {t : List Uchar} {n : ℕ}

theorem strlenFrom_eq {fuel i : ℕ} (ht : CString src t) (hi : i ≤ t.length)
    (hfuel : t.length < i + fuel) :
    strlenFrom src fuel i = .ok t.length := by
  induction fuel generalizing i with
  | zero => omega
  | succ fuel ih =>
      unfold strlenFrom
      rcases Nat.eq_or_lt_of_le hi with rfl | hlt
      · rw [if_neg (not_not.mpr ht.nul)]
      · rw [if_pos (ht.ne_zero hlt)]
        exact ih hlt (by omega)

theorem strlen_eq (ht : CString src t) (hlength : t.length < walkBound) :
    strlen src = .ok t.length :=
  strlenFrom_eq ht (Nat.zero_le _) (by omega)

theorem strlenFrom_cases {fuel i : ℕ} (hrun : strlenFrom src fuel i = .ok n)
    (hbefore : ∀ j < i, src j ≠ 0) : (∀ j < n, src j ≠ 0) ∧ src n = 0 := by
  induction fuel generalizing i with
  | zero => cases hrun
  | succ fuel ih =>
      unfold strlenFrom at hrun
      by_cases hzero : src i = 0
      · rw [if_neg (not_not.mpr hzero)] at hrun
        obtain rfl := Except.ok.inj hrun
        exact ⟨hbefore, hzero⟩
      · rw [if_pos hzero] at hrun
        refine ih hrun fun j hj => ?_
        rcases Nat.lt_succ_iff_lt_or_eq.mp hj with hlt | rfl
        · exact hbefore j hlt
        · exact hzero

/-- Where `strlen` returns there is a string. -/
theorem strlen_cases (hrun : strlen src = .ok n) :
    ∃ t, CString src t ∧ t.length = n := by
  obtain ⟨hnonzero, hnul⟩ := strlenFrom_cases hrun fun j hj => nomatch hj
  exact ⟨_, cstring_of_first hnonzero hnul, by simp⟩

/-- A loop that fills the buffer from `loc` on. -/
theorem foldl_write (b : Buffer) (loc : ℕ) (f : ℕ → Uchar) (n : ℕ) :
    (List.range n).foldl (fun b i => b.write (loc + i) (f i)) b =
      ⟨overlay b.bytes loc ((List.range n).map f),
        b.writes ++ (List.range n).map (loc + ·)⟩ := by
  induction n with
  | zero => simp
  | succ n ih =>
      have hlength : ((List.range n).map f).length = n := by simp
      rw [List.range_succ, List.foldl_append, ih, List.map_append,
        List.map_append, ← overlay_append, hlength]
      simp [Buffer.write, overlay_singleton]

theorem memset_eq (b : Buffer) (val : Uchar) (len : ℕ) :
    memset b val len = ⟨overlay b.bytes 0 (List.replicate len val),
      b.writes ++ List.range len⟩ := by
  have hfold := foldl_write b 0 (fun _ => val) len
  simp only [Nat.zero_add, List.map_id', List.map_const',
    List.length_range] at hfold
  exact hfold

/-- `strcat` at a place where the buffer holds the empty string. -/
theorem strcat_eq {dst : ℕ} (ht : CString src t)
    (hlength : t.length < walkBound) (hempty : b.bytes dst = 0) :
    strcat b dst src = .ok
      ⟨overlay b.bytes dst (t ++ [0]),
        b.writes ++ (List.range (t.length + 1)).map (dst + ·)⟩ := by
  have hdst : CString (fun i => b.bytes (dst + i)) [] :=
    ⟨fun i hi => absurd hi (Nat.not_lt_zero i), List.not_mem_nil, hempty⟩
  have htext : (List.range t.length).map src = t := by
    refine List.ext_getElem (by simp) fun i hi hi' => ?_
    simpa using ht.chars i hi'
  unfold strcat
  rw [strlen_eq ht hlength, strlen_eq hdst (by decide)]
  change Except.ok (Buffer.write ((List.range t.length).foldl _ b) _ 0) = _
  rw [List.length_nil, Nat.add_zero, foldl_write, htext, ← overlay_append,
    overlay_singleton, List.range_succ, List.map_append, ← List.append_assoc]
  rfl

/-- A call of `strcat` that returns has written the terminator of the longer
string. -/
theorem strcat_cases {dst : ℕ} {b' : Buffer} (hrun : strcat b dst src = .ok b') :
    ∃ t, CString src t ∧ (∃ i ∈ b'.writes, dst + t.length ≤ i) ∧
      ∃ more, b'.writes = b.writes ++ more := by
  obtain ⟨srcLen, hsrc, hrest⟩ := bind_ok_iff.mp hrun
  obtain ⟨dstLen, _, hret⟩ := bind_ok_iff.mp hrest
  obtain ⟨t, ht, rfl⟩ := strlen_cases hsrc
  cases hret
  refine ⟨t, ht, ⟨dst + dstLen + t.length, by simp [Buffer.write], by omega⟩, ?_⟩
  rw [foldl_write]
  exact ⟨_, List.append_assoc ..⟩

end KString

end OS32
