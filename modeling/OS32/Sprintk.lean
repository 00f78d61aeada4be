import OS32.Numeral

/-!
# `sprintk`

The loop of `sprintk` over the format, and what one turn of it does to the
buffer.  The strings a call reads are those of a memory that its own writes
leave alone: `buf` is not visible outside of `kstdio.c`.
-/

namespace OS32

open Bytes KString Numeral
open Console (Uchar)

namespace Sprintk

/-- The memory, the address of the format and the words that `va_arg` takes one
after another. -/
structure Env where
  mem : Uint → Uchar
  fmt : Uint
  args : ℕ → Uint

namespace Env

/-- The characters that a pointer points to. -/
def string (env : Env) (ptr : Uint) (i : ℕ) : Uchar :=
  env.mem (ptr + BitVec.ofNat 32 i)

def fmtAt (env : Env) : ℕ → Uchar := env.string env.fmt

end Env

/-- The buffers and the local variables; `p` is the offset of the pointer `p`
from `fmt`, and `ap` the number of arguments taken. -/
structure State where
  buf : Buffer
  tmp : Buffer
  p : ℕ
  ap : ℕ
  cnt : ℕ
  loc : ℕ

namespace State

/-- `buf[loc++] = c;` -/
def put (s : State) (c : Uchar) : State :=
  { s with buf := s.buf.write s.loc c, loc := s.loc + 1 }

/-- `va_arg` moves on. -/
def fetched (s : State) : State := { s with ap := s.ap + 1 }

/-- `strcat(buf + loc, src); cnt += strlen(src); loc += strlen(src);` -/
def append (s : State) (src : ℕ → Uchar) : Except Fault State := do
  let buf ← strcat s.buf s.loc src
  let length ← strlen src
  return { s with buf := buf, cnt := s.cnt + length, loc := s.loc + length }

/-- `f(val,tmp);` and `tmp` appended. -/
def number (f : Uint → Buffer → Except Fault Buffer) (val : Uint)
    (s : State) : Except Fault State := do
  let tmp ← f val s.tmp
  append { s with tmp := tmp } tmp.bytes

end State

section Cases

variable (env : Env) (s : State)

def signedCase : Except Fault State :=
  let val := env.args s.ap
  if val.toInt < 0 then (s.fetched.put 0x2D).number itoa (-val)
  else s.fetched.number itoa val

def caseU : Except Fault State := s.fetched.number utoa (env.args s.ap)
def caseD : Except Fault State := signedCase env s
def caseC : State :=
  let s' := s.fetched.put ((env.args s.ap).setWidth 8)
  { s' with cnt := s'.cnt + 1 }
def caseL : Except Fault State := signedCase env s
def caseX : Except Fault State := s.fetched.number toHex (env.args s.ap)
def caseS : Except Fault State :=
  s.fetched.append (env.string (env.args s.ap))
def caseDefault (c : Uchar) : State :=
  let s' := s.put c
  { s' with cnt := s'.cnt + 1 }

/-- `switch(c)`; the characters are `u`, `d`, `c`, `l`, `x` and `s`. -/
def conversion (c : Uchar) : Except Fault State :=
  if c = 0x75 then caseU env s
  else if c = 0x64 then caseD env s
  else if c = 0x63 then .ok (caseC env s)
  else if c = 0x6C then caseL env s
  else if c = 0x78 then caseX env s
  else if c = 0x73 then caseS env s
  else .ok (caseDefault s c)

/-- One turn of the loop over the format, `none` at its end. -/
def turn : Except Fault (Option State) :=
  let c := env.fmtAt s.p
  if c = 0 then .ok none
  else if c ≠ 0x25 then .ok (some { s.put c with p := s.p + 1 })
  else do
    let s := { s with p := s.p + 1 }
    let s ← conversion env s (env.fmtAt s.p)
    return some { s with p := s.p + 1 }

end Cases

/-- The loop, ended after `fuel` turns. -/
def loopFrom (env : Env) : ℕ → State → Except Fault State
  | 0, _ => .error .hang
  | fuel + 1, s => do
      match ← turn env s with
      | none => return s
      | some s => loopFrom env fuel s

/-- The state in front of the loop, in a call that finds `old` in `buf` and
`tmp` on the stack. -/
def start (old : ℕ → Uchar) (tmp : Buffer) : State where
  buf := memset ⟨old, []⟩ 0 1024
  tmp := tmp
  p := 0
  ap := 0
  cnt := 0
  loc := 0

def sprintk (env : Env) (fuel : ℕ) (old : ℕ → Uchar) (tmp : Buffer) :
    Except Fault State :=
  loopFrom env fuel (start old tmp)

/-! ## What a conversion stands for -/

/-- What goes to the buffer at once: a character that is stored, or a string
that `strcat` appends. -/
inductive Piece where
  | chr (c : Uchar)
  | text (t : List Uchar)
  deriving DecidableEq

def Piece.chars : Piece → List Uchar
  | .chr c => [c]
  | .text t => t

/-- The characters of the pieces, in order. -/
def output (ps : List Piece) : List Uchar := ps.flatMap Piece.chars

@[simp] theorem output_nil : output [] = [] := rfl

@[simp] theorem output_chr (c : Uchar) (ps : List Piece) :
    output (.chr c :: ps) = c :: output ps := rfl

@[simp] theorem output_text (t : List Uchar) (ps : List Piece) :
    output (.text t :: ps) = t ++ output ps := rfl

@[simp] theorem output_append (ps qs : List Piece) :
    output (ps ++ qs) = output ps ++ output qs := List.flatMap_append

/-- The characters after which an argument is taken. -/
def TakesArg (c : Uchar) : Prop := c ∈ [0x75, 0x64, 0x63, 0x6C, 0x78, 0x73]

instance (c : Uchar) : Decidable (TakesArg c) :=
  inferInstanceAs (Decidable (c ∈ [0x75, 0x64, 0x63, 0x6C, 0x78, 0x73]))

theorem takesArg_iff {c : Uchar} : TakesArg c ↔ c = 0x75 ∨ c = 0x64 ∨
    c = 0x63 ∨ c = 0x6C ∨ c = 0x78 ∨ c = 0x73 := by
  simp only [TakesArg, List.mem_cons, List.not_mem_nil, or_false]

/-- What the character after `'%'` stands for when `ap` arguments are taken, and
how many are then. -/
inductive Renders (env : Env) : Uchar → ℕ → List Piece → ℕ → Prop
  | u {ap : ℕ} {t : List Uchar} : Text utoa (env.args ap) t →
      Renders env 0x75 ap [.text t] (ap + 1)
  | signed {c : Uchar} {ap : ℕ} {t : List Uchar} : c = 0x64 ∨ c = 0x6C →
      0 ≤ (env.args ap).toInt → Text itoa (env.args ap) t →
      Renders env c ap [.text t] (ap + 1)
  | negative {c : Uchar} {ap : ℕ} {t : List Uchar} : c = 0x64 ∨ c = 0x6C →
      (env.args ap).toInt < 0 → Text itoa (-env.args ap) t →
      Renders env c ap [.chr 0x2D, .text t] (ap + 1)
  | c {ap : ℕ} :
      Renders env 0x63 ap [.chr ((env.args ap).setWidth 8)] (ap + 1)
  | x {ap : ℕ} {t : List Uchar} : Text toHex (env.args ap) t →
      Renders env 0x78 ap [.text t] (ap + 1)
  | s {ap : ℕ} {t : List Uchar} : CString (env.string (env.args ap)) t →
      Renders env 0x73 ap [.text t] (ap + 1)
  | other {c : Uchar} {ap : ℕ} : ¬ TakesArg c → Renders env c ap [.chr c] ap

/-- The pieces fit below `n` one after the other when `loc` characters are
there; `strcat` needs room for a terminator. -/
def Fits (n : ℕ) : ℕ → List Piece → Prop
  | _, [] => True
  | loc, .chr _ :: ps => loc < n ∧ Fits n (loc + 1) ps
  | loc, .text t :: ps => loc + t.length < n ∧ Fits n (loc + t.length) ps

/-- The characters `done` have been written to a buffer that was clear below
`n`, and nothing beyond `n`. -/
structure Filled (n : ℕ) (base : ℕ → Uchar) (b : Buffer) (loc : ℕ)
    (done : List Uchar) : Prop where
  clear : ∀ i < n, base i = 0
  bytes : b.bytes = overlay base 0 done
  length : loc = done.length
  writes : ∀ i ∈ b.writes, i < n

section Steps

variable {env : Env} {n : ℕ} {base : ℕ → Uchar} {s : State}
  {done t : List Uchar}

theorem Filled.put (hs : Filled n base s.buf s.loc done)
    (hroom : done.length < n) (c : Uchar) :
    Filled n base (s.put c).buf (s.put c).loc (done ++ [c]) := by
  refine ⟨hs.clear, ?_, ?_, ?_⟩
  · rw [← overlay_append, overlay_singleton, Nat.zero_add, ← hs.length,
      ← hs.bytes]
    rfl
  · rw [List.length_append, ← hs.length]
    rfl
  · intro i hi
    rcases List.mem_append.mp hi with hold | hnew
    · exact hs.writes i hold
    · obtain rfl := List.mem_singleton.mp hnew
      exact hs.length ▸ hroom

/-- Where the output fits, `strcat` finds the end at once. -/
theorem Filled.append {src : ℕ → Uchar} (hs : Filled n base s.buf s.loc done)
    (ht : CString src t) (hlength : t.length < walkBound)
    (hroom : done.length + t.length < n) :
    ∃ s', s.append src = .ok s' ∧ s'.p = s.p ∧ s'.ap = s.ap ∧
      Filled n base s'.buf s'.loc (done ++ t) := by
  have hempty : s.buf.bytes s.loc = 0 := by
    rw [hs.bytes, hs.length, overlay_of_le base (by omega)]
    exact hs.clear _ (by omega)
  have hnul : base (0 + (done ++ t).length) = 0 :=
    hs.clear _ (by rw [List.length_append]; omega)
  have hrun : s.append src = .ok { s with
      buf := ⟨overlay s.buf.bytes s.loc (t ++ [0]),
        s.buf.writes ++ (List.range (t.length + 1)).map (s.loc + ·)⟩
      cnt := s.cnt + t.length
      loc := s.loc + t.length } := by
    unfold State.append
    rw [strcat_eq ht hlength hempty, strlen_eq ht hlength]
    rfl
  refine ⟨_, hrun, rfl, rfl, hs.clear, ?_, ?_, ?_⟩
  · have hjoin : overlay s.buf.bytes s.loc (t ++ [0]) =
        overlay base 0 (done ++ t ++ [0]) := by
      rw [hs.bytes, hs.length, List.append_assoc, ← overlay_append base 0 done,
        Nat.zero_add]
    rw [hjoin, ← overlay_append, overlay_singleton]
    refine Function.update_eq_self_iff.mpr ?_
    rw [overlay_of_le base le_rfl, hnul]
  · simp [hs.length]
  · intro i hi
    rcases List.mem_append.mp hi with hold | hnew
    · exact hs.writes i hold
    · obtain ⟨j, hj, rfl⟩ := List.mem_map.mp hnew
      have hlt := List.mem_range.mp hj
      have hloc := hs.length
      omega

theorem Filled.number {f : Uint → Buffer → Except Fault Buffer} {val : Uint}
    (hs : Filled n base s.buf s.loc done) (ht : Text f val t)
    (hlength : t.length < walkBound) (hroom : done.length + t.length < n) :
    ∃ s', s.number f val = .ok s' ∧ s'.p = s.p ∧ s'.ap = s.ap ∧
      Filled n base s'.buf s'.loc (done ++ t) := by
  obtain ⟨tmp, hrun, htmp⟩ := ht s.tmp
  unfold State.number
  rw [hrun]
  exact Filled.append (s := { s with tmp := tmp }) hs htmp hlength hroom

/-! ## What a step does, wherever it writes -/

variable {s' : State}

theorem put_writes (s : State) (c : Uchar) :
    s.buf.writes ⊆ (s.put c).buf.writes ∧ s.loc ∈ (s.put c).buf.writes :=
  ⟨List.subset_append_left _ _, List.mem_append_right _ (List.mem_singleton_self _)⟩

theorem append_cases {src : ℕ → Uchar} (hrun : s.append src = .ok s') :
    ∃ t, CString src t ∧ s'.p = s.p ∧ s'.ap = s.ap ∧
      s'.loc = s.loc + t.length ∧ s.buf.writes ⊆ s'.buf.writes ∧
      ∃ i ∈ s'.buf.writes, s.loc + t.length ≤ i := by
  obtain ⟨b, hcat, hrest⟩ := bind_ok_iff.mp hrun
  obtain ⟨length, hlength, hret⟩ := bind_ok_iff.mp hrest
  obtain ⟨t, ht, hend, more, hmore⟩ := strcat_cases hcat
  obtain ⟨u, hu, rfl⟩ := strlen_cases hlength
  obtain rfl := hu.unique ht
  cases hret
  exact ⟨_, ht, rfl, rfl, rfl, hmore ▸ List.subset_append_left _ _, hend⟩

theorem number_cases {f : Uint → Buffer → Except Fault Buffer} {val : Uint}
    (ht : Text f val t) (hrun : s.number f val = .ok s') :
    s'.p = s.p ∧ s'.ap = s.ap ∧ s'.loc = s.loc + t.length ∧
      s.buf.writes ⊆ s'.buf.writes ∧
      ∃ i ∈ s'.buf.writes, s.loc + t.length ≤ i := by
  obtain ⟨tmp, htmp, happend⟩ := bind_ok_iff.mp hrun
  obtain ⟨tmp', htmp', hstring⟩ := ht s.tmp
  obtain rfl := Except.ok.inj (htmp.symm.trans htmp')
  obtain ⟨u, hu, happended⟩ := append_cases happend
  obtain rfl := hu.unique hstring
  exact happended

end Steps

end Sprintk

end OS32
