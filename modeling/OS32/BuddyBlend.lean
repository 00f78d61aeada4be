import OS32.BuddyContiguity

/-!
# The order of merged buddies

`BlendBlk` looks at an address bit to see which of two buddies is the lower one.
`free_buddy` has gone on to the next order by then, so the bit is the one above
that in which the two differ.
-/

namespace OS32

open NullList BuddyTable BuddySession

namespace Pmm

variable {s t : Pmm} {k : ℕ} {buddy blk : List ℕ}

/-- The frames `l` go up page by page from the first one, below 4 GiB. -/
structure Ascending (s : Pmm) (l : List ℕ) : Prop where
  contig : ContigFrom s (s.startAddr l.head?) l
  top : (s.startAddr l.head?).toNat + 4096 * l.length ≤ 2 ^ 32

/-- Two blocks of `2 ^ k` ascending frames, linked by themselves, the start
addresses of which differ in bit `12 + k` only. -/
structure Buddies (s : Pmm) (k : ℕ) (buddy blk : List ℕ) : Prop where
  order : k < 17
  buddy_length : buddy.length = 2 ^ k
  blk_length : blk.length = 2 ^ k
  buddy_chain : s.links.Chain none buddy.head? buddy
  blk_chain : s.links.Chain none blk.head? blk
  buddy_ascending : Ascending s buddy
  blk_ascending : Ascending s blk
  bound : ∀ a ∈ buddy ++ blk, a < MAX_PG_NUM
  differ : s.startAddr buddy.head? ^^^ s.startAddr blk.head? = 1 <<< (12 + k)

/-- `BlendBlk`, as `free_buddy` calls it, returns all frames of the two blocks in
ascending order. -/
def BlendsInOrder (s : Pmm) (k : ℕ) (buddy blk : List ℕ) : Prop :=
  ∃ res t l, s.blendBlk buddy.head? blk.head? (k + 1) = .ok (res, t) ∧
    t.startAddr = s.startAddr ∧ t.links.Chain none res l ∧
    l.Perm (buddy ++ blk) ∧ Ascending t l ∧
    (s.startAddr res).toNat = min (s.startAddr buddy.head?).toNat
      (s.startAddr blk.head?).toNat

/-! ## One bit -/

theorem one_shiftLeft (n : ℕ) : ((1 <<< n : ℕ) : Uint) = BitVec.twoPow 32 n := by
  rw [← BitVec.toNat_inj, BitVec.toNat_twoPow, Nat.one_shiftLeft]
  exact BitVec.toNat_ofNat ..

theorem and_bit_eq_zero_iff {a : Uint} {n : ℕ} (hn : n < 32) :
    a &&& (1 <<< n) = 0 ↔ a.getLsbD n = false := by
  have hbit : BitVec.twoPow 32 n ≠ 0 := by
    rw [ne_eq, ← BitVec.toNat_inj, BitVec.toNat_twoPow_of_lt hn]
    exact (Nat.two_pow_pos n).ne'
  rw [one_shiftLeft, BitVec.and_twoPow]
  cases a.getLsbD n with
  | true => simpa using hbit
  | false => simp

/-- Of two numbers that differ in one bit, the one with the bit is greater. -/
theorem toNat_of_xor_bit {a b : Uint} {n : ℕ} (hn : n < 32)
    (hxor : a ^^^ b = 1 <<< n) (hbit : a.getLsbD n = false) :
    b.toNat = a.toNat + 2 ^ n := by
  have hb : b = a ^^^ BitVec.twoPow 32 n := by
    rw [← one_shiftLeft, ← hxor, ← BitVec.xor_assoc, BitVec.xor_self,
      BitVec.zero_xor]
  have hand : a &&& BitVec.twoPow 32 n = 0 := by
    rw [BitVec.and_twoPow, hbit]
    rfl
  have hor : a ^^^ BitVec.twoPow 32 n = a ||| BitVec.twoPow 32 n := by
    ext i hi
    have hi' := congrArg (fun v : Uint => v[i]) hand
    simp only [BitVec.getElem_and, BitVec.getElem_xor, BitVec.getElem_or] at *
    generalize a[i] = x at *
    generalize (BitVec.twoPow 32 n)[i] = y at *
    cases x <;> cases y <;> simp_all
  rw [hb, hor, ← BitVec.add_eq_or_of_and_eq_zero _ _ hand,
    BitVec.toNat_add_of_and_eq_zero hand, BitVec.toNat_twoPow_of_lt hn]

/-! ## Two ascending blocks -/

theorem Ascending.congr {l : List ℕ} (hl : Ascending s l)
    (hstart : t.startAddr = s.startAddr) : Ascending t l := by
  refine ⟨?_, ?_⟩
  · rw [hstart]
    exact hl.contig.congr hstart
  · rw [hstart]
    exact hl.top

theorem Ascending.mem_range {l : List ℕ} (hl : Ascending s l) {a : ℕ}
    (ha : a ∈ l) :
    (s.startAddr l.head?).toNat ≤ (s.startAddr (some a)).toNat ∧
      (s.startAddr (some a)).toNat <
        (s.startAddr l.head?).toNat + 4096 * l.length := by
  have htop := hl.top
  obtain ⟨i, hi, rfl⟩ := List.getElem_of_mem ha
  have hoffset : (BitVec.ofNat 32 i * PGSIZE).toNat = 4096 * i := by
    rw [BitVec.toNat_mul, BitVec.toNat_ofNat, PGSIZE]
    change i % 4294967296 * 4096 % 4294967296 = 4096 * i
    omega
  rw [hl.contig.getElem hi, BitVec.toNat_add, hoffset]
  omega

theorem Ascending.append {l₁ l₂ : List ℕ} (h₁ : Ascending s l₁)
    (h₂ : Ascending s l₂) (hne : l₁ ≠ [])
    (hnext : (s.startAddr l₂.head?).toNat =
      (s.startAddr l₁.head?).toNat + 4096 * l₁.length) :
    Ascending s (l₁ ++ l₂) := by
  have htop := h₂.top
  have hbase : s.startAddr l₁.head? + BitVec.ofNat 32 l₁.length * PGSIZE =
      s.startAddr l₂.head? := by
    rw [← BitVec.toNat_inj, BitVec.toNat_add, BitVec.toNat_mul,
      BitVec.toNat_ofNat, hnext, PGSIZE]
    change (_ + l₁.length % 4294967296 * 4096 % 4294967296) % 4294967296 = _
    have hlt := (s.startAddr l₂.head?).isLt
    omega
  refine ⟨?_, ?_⟩
  · rw [List.head?_append_of_ne_nil _ hne, contigFrom_append, hbase]
    exact ⟨h₁.contig, h₂.contig⟩
  · rw [List.head?_append_of_ne_nil _ hne, List.length_append]
    omega

section Buddies

variable (hb : Buddies s k buddy blk)

include hb

theorem Buddies.buddy_ne_nil : buddy ≠ [] :=
  ne_nil_of_length_eq_pow hb.buddy_length

theorem Buddies.blk_ne_nil : blk ≠ [] :=
  ne_nil_of_length_eq_pow hb.blk_length

/-- One of the two blocks begins where the other one ends. -/
theorem Buddies.adjacent :
    ((s.startAddr buddy.head?).getLsbD (12 + k) = false ∧
      (s.startAddr blk.head?).toNat =
        (s.startAddr buddy.head?).toNat + 4096 * buddy.length) ∨
    ((s.startAddr buddy.head?).getLsbD (12 + k) = true ∧
      (s.startAddr buddy.head?).toNat =
        (s.startAddr blk.head?).toNat + 4096 * blk.length) := by
  have hk : 12 + k < 32 := by
    have horder := hb.order
    omega
  have hsize : 4096 * 2 ^ k = 2 ^ (12 + k) := by
    rw [pow_add]
    norm_num
  rw [hb.buddy_length, hb.blk_length, hsize]
  have hdiffer := hb.differ
  cases hbit : (s.startAddr buddy.head?).getLsbD (12 + k) with
  | false => exact .inl ⟨rfl, toNat_of_xor_bit hk hdiffer hbit⟩
  | true =>
      have hother : (s.startAddr blk.head?).getLsbD (12 + k) = false := by
        have hxor := congrArg (fun v : Uint => v.getLsbD (12 + k)) hdiffer
        simp only [one_shiftLeft, BitVec.getLsbD_xor, hbit, BitVec.getLsbD_twoPow,
          hk, decide_true, Bool.true_xor, Bool.and_self,
          Bool.not_eq_true'] at hxor
        exact hxor
      rw [BitVec.xor_comm] at hdiffer
      exact .inr ⟨rfl, toNat_of_xor_bit hk hdiffer hother⟩

theorem Buddies.disjoint : ∀ a ∈ buddy, a ∉ blk := by
  intro a hbuddy hblk
  have hlow := hb.buddy_ascending.mem_range hbuddy
  have hhigh := hb.blk_ascending.mem_range hblk
  rcases hb.adjacent with ⟨_, hnext⟩ | ⟨_, hnext⟩ <;> omega

theorem Buddies.blendBlk_ok :
    ∃ t, s.blendBlk buddy.head? blk.head? (k + 1) =
        .ok ((blend s.first k buddy blk).head?, t) ∧
      t.startAddr = s.startAddr ∧
      t.links.Chain none (blend s.first k buddy blk).head?
        (blend s.first k buddy blk) := by
  obtain ⟨t, hrun, hchain, hsame, _⟩ := blendBlk_eq (k := k) hb.buddy_ne_nil
    hb.blk_ne_nil hb.buddy_chain hb.blk_chain
    (fun a ha => hb.bound a (List.mem_append_left _ ha))
    (fun a ha => hb.bound a (List.mem_append_right _ ha)) hb.disjoint
  exact ⟨t, hrun, hsame.startAddr, hchain⟩

theorem Buddies.first_iff :
    s.first (k + 1) buddy = true ↔
      (s.startAddr buddy.head?).getLsbD (13 + k) = false := by
  have hk : 13 + k < 32 := by
    have horder := hb.order
    omega
  have hindex : k + 1 + 12 = 13 + k := by omega
  unfold first buddyIsLow
  rw [decide_eq_true_eq, hindex, and_bit_eq_zero_iff hk]

/-- The bit that `BlendBlk` looks at has to be the same as the one in which the
buddies differ. -/
theorem blendsInOrder_iff :
    BlendsInOrder s k buddy blk ↔
      (s.startAddr buddy.head?).getLsbD (12 + k) =
        (s.startAddr buddy.head?).getLsbD (13 + k) := by
  obtain ⟨t, hrun, hstart, hchain⟩ := hb.blendBlk_ok
  have hpos : 0 < 4096 * 2 ^ k := by positivity
  have hbuddy := hb.buddy_length
  have hblk := hb.blk_length
  have hresult : BlendsInOrder s k buddy blk ↔
      Ascending s (blend s.first k buddy blk) ∧
        (s.startAddr (blend s.first k buddy blk).head?).toNat =
          min (s.startAddr buddy.head?).toNat (s.startAddr blk.head?).toNat := by
    constructor
    · rintro ⟨res, t', l, hrun', hstart', hchain', _, hl, hlow⟩
      cases hrun.symm.trans hrun'
      obtain rfl := hchain'.unique hchain
      exact ⟨hl.congr hstart.symm, hlow⟩
    · rintro ⟨hl, hlow⟩
      refine ⟨_, t, _, hrun, hstart, hchain, ?_, hl.congr hstart, hlow⟩
      rw [← Multiset.coe_eq_coe, blend_coe, Multiset.coe_add]
  rw [hresult]
  have hfirst := hb.first_iff
  unfold blend
  rcases hb.adjacent with ⟨hbit, hnext⟩ | ⟨hbit, hnext⟩
  · rw [hbit]
    cases habove : (s.startAddr buddy.head?).getLsbD (13 + k) with
    | false =>
        rw [if_pos (hfirst.mpr habove),
          List.head?_append_of_ne_nil _ hb.buddy_ne_nil]
        refine iff_of_true ⟨?_, by omega⟩ rfl
        exact hb.buddy_ascending.append hb.blk_ascending hb.buddy_ne_nil hnext
    | true =>
        rw [if_neg (by rw [hfirst, habove]; simp),
          List.head?_append_of_ne_nil _ hb.blk_ne_nil]
        refine iff_of_false ?_ Bool.false_ne_true
        rintro ⟨_, hlow⟩
        omega
  · rw [hbit]
    cases habove : (s.startAddr buddy.head?).getLsbD (13 + k) with
    | false =>
        rw [if_pos (hfirst.mpr habove),
          List.head?_append_of_ne_nil _ hb.buddy_ne_nil]
        refine iff_of_false ?_ Bool.false_ne_true.symm
        rintro ⟨_, hlow⟩
        omega
    | true =>
        rw [if_neg (by rw [hfirst, habove]; simp),
          List.head?_append_of_ne_nil _ hb.blk_ne_nil]
        refine iff_of_true ⟨?_, by omega⟩ rfl
        exact hb.blk_ascending.append hb.buddy_ascending hb.blk_ne_nil hnext

end Buddies

/-- Pages 0 and 1 are the frames at `a` and `b`, each a block of its own. -/
def twoFrames (a b : Uint) : Pmm :=
  { boot zeroPage with
    startAddr := fun p => if p = some 0 then a else b
    links := ⟨fun _ => none, fun _ => none⟩ }

theorem twoFrames_buddies {a b : Uint} (ha : a.toNat + 4096 ≤ 2 ^ 32)
    (hb : b.toNat + 4096 ≤ 2 ^ 32) (hdiffer : a ^^^ b = 1 <<< 12) :
    Buddies (twoFrames a b) 0 [0] [1] where
  order := by decide
  buddy_length := rfl
  blk_length := rfl
  buddy_chain := ⟨rfl, rfl, rfl⟩
  blk_chain := ⟨rfl, rfl, rfl⟩
  buddy_ascending := ⟨⟨rfl, trivial⟩, ha⟩
  blk_ascending := ⟨⟨rfl, trivial⟩, hb⟩
  bound := by decide
  differ := hdiffer

theorem blendsInOrder_first_frames :
    BlendsInOrder (twoFrames 0x100000 0x101000) 0 [0] [1] :=
  (blendsInOrder_iff (twoFrames_buddies (by decide) (by decide)
    (by decide))).mpr (by decide)

/-- The frame at 0x103000 is put in front of the one at 0x102000. -/
theorem blend_out_of_order :
    ¬ ∀ (s : Pmm) (k : ℕ) (buddy blk : List ℕ), Buddies s k buddy blk →
      BlendsInOrder s k buddy blk := by
  intro hall
  obtain ⟨res, t, l, hrun, _, _, _, _, hlow⟩ := hall _ _ _ _
    (twoFrames_buddies (a := 0x102000) (b := 0x103000) (by decide) (by decide)
      (by decide))
  have hres : res = some 1 := by
    cases hrun
    rfl
  subst hres
  exact absurd hlow (by decide)

end Pmm
end OS32
