import OS32.BuddyModel
import OS32.BuddyTable

/-!
# What the links of `phy_pages` represent

`Pmm.Represents` reads a table of free blocks off `buddy_table` and the links of
`phy_pages`; `Pmm.SameOff` says which frames a call leaves alone.  Both
`alloc_buddy` and `free_buddy` cut the first block off a list, and what that
does to the table is settled here.
-/

namespace OS32

open NullList BuddyTable

/-! ## `log2` and `pow2` -/

@[simp] theorem pow2_eq (x : ℕ) : pow2 x = 2 ^ x := by
  induction x with
  | zero => rfl
  | succ x ih => rw [pow2, ih, pow_succ]

theorem log2Loop_eq {fuel res x : ℕ} (hle : 2 ^ res ≤ x)
    (hlt : x < 2 ^ (res + fuel + 1)) :
    log2Loop fuel (2 ^ res) res x = Nat.log 2 x := by
  induction fuel generalizing res with
  | zero =>
      rw [log2Loop, eq_comm]
      exact Nat.log_eq_of_pow_le_of_lt_pow hle (by simpa using hlt)
  | succ fuel ih =>
      rw [log2Loop]
      split
      next hdouble =>
        rw [← pow_succ] at hdouble ⊢
        exact ih hdouble (by rwa [show res + 1 + fuel + 1 =
          res + (fuel + 1) + 1 by omega])
      next hdouble =>
        rw [eq_comm]
        apply Nat.log_eq_of_pow_le_of_lt_pow hle
        rw [pow_succ]
        omega

theorem log2_eq {x : ℕ} (hlt : x < 2 ^ 32) : log2 x = Nat.log 2 x := by
  rcases Nat.eq_zero_or_pos x with rfl | hpos
  · rfl
  · have hle : 2 ^ 0 ≤ x := hpos
    exact log2Loop_eq hle (by simpa using hlt)

@[simp] theorem log2_two_pow {k : ℕ} (hk : k < 32) : log2 (2 ^ k) = k := by
  rw [log2_eq (Nat.pow_lt_pow_right (by norm_num) hk),
    Nat.log_pow (by norm_num)]

/-- The order `alloc_buddy` computes for a number of pages. -/
theorem order_eq_clog {x : ℕ} (hpos : 1 ≤ x) (hlt : x < 2 ^ 32) :
    Pmm.requestOrder x = Nat.clog 2 x := by
  simp only [Pmm.requestOrder, log2_eq hlt, pow2_eq]
  have hlog := Nat.pow_log_le_self 2 (x := x) (by omega)
  have hsucc := Nat.lt_pow_succ_log_self (b := 2) (by norm_num) x
  apply le_antisymm
  · split
    next h => exact (Nat.lt_clog_iff_pow_lt (by norm_num)).mpr h
    next h =>
      have hpow : x = 2 ^ Nat.log 2 x := by omega
      calc Nat.log 2 x = Nat.clog 2 (2 ^ Nat.log 2 x) :=
            (Nat.clog_pow 2 _ (by norm_num)).symm
        _ ≤ Nat.clog 2 x := by rw [← hpow]
  · rw [Nat.clog_le_iff_le_pow (by norm_num)]
    split <;> omega

namespace Pmm

/-! ## Representation -/

/-- `buddy_table` holds the blocks `free`: the list of each order is well
linked and has `blk_num * 2 ^ k` pages, and no frame is listed twice. -/
structure Represents (s : Pmm) (free : Table ℕ) : Prop where
  chain : ∀ k < 17, s.links.Chain none (s.pageBlkList k) (free k)
  count : ∀ k < 17, ((free k).length : ℤ) = s.blkNum k * 2 ^ k
  nodup : (frames 17 free).Nodup
  bound : ∀ a ∈ frames 17 free, a < MAX_PG_NUM

/-- Outside the frames `S` the links and flags are the same, and nobody wrote
any other member. -/
structure SameOff (S : Set ℕ) (s t : Pmm) : Prop where
  links : Links.AgreeOff S s.links t.links
  flags : ∀ a ∉ S, t.flags (some a) = s.flags (some a)
  refNum : t.refNum = s.refNum
  startAddr : t.startAddr = s.startAddr
  va : t.va = s.va
  phyPageNum : t.phyPageNum = s.phyPageNum

theorem SameOff.refl (S : Set ℕ) (s : Pmm) : SameOff S s s :=
  ⟨.refl S s.links, fun _ _ => rfl, rfl, rfl, rfl, rfl⟩

theorem SameOff.trans {S : Set ℕ} {s t u : Pmm}
    (h₁ : SameOff S s t) (h₂ : SameOff S t u) : SameOff S s u where
  links := h₁.links.trans h₂.links
  flags := fun a ha => (h₂.flags a ha).trans (h₁.flags a ha)
  refNum := h₂.refNum.trans h₁.refNum
  startAddr := h₂.startAddr.trans h₁.startAddr
  va := h₂.va.trans h₁.va
  phyPageNum := h₂.phyPageNum.trans h₁.phyPageNum

theorem SameOff.mono {S T : Set ℕ} {s t : Pmm} (hST : S ⊆ T)
    (h : SameOff S s t) : SameOff T s t where
  links := h.links.mono hST
  flags := fun a ha => h.flags a (fun haS => ha (hST haS))
  refNum := h.refNum
  startAddr := h.startAddr
  va := h.va
  phyPageNum := h.phyPageNum

/-- A write to the links alone. -/
theorem SameOff.of_links {S : Set ℕ} {s t : Pmm}
    (hlinks : Links.AgreeOff S s.links t.links)
    (hflags : t.flags = s.flags) (hrefNum : t.refNum = s.refNum)
    (hstartAddr : t.startAddr = s.startAddr) (hva : t.va = s.va)
    (hphyPageNum : t.phyPageNum = s.phyPageNum) : SameOff S s t :=
  ⟨hlinks, fun _ _ => by rw [hflags], hrefNum, hstartAddr, hva, hphyPageNum⟩

theorem length_le_of_bound {l : List ℕ} (hnodup : l.Nodup)
    (hbound : ∀ a ∈ l, a < MAX_PG_NUM) : l.length ≤ MAX_PG_NUM := by
  have hsubset : l.toFinset ⊆ Finset.range MAX_PG_NUM := by
    intro a ha
    exact Finset.mem_range.mpr (hbound a (List.mem_toFinset.mp ha))
  have hcard := Finset.card_le_card hsubset
  rwa [List.toFinset_card_of_nodup hnodup, Finset.card_range] at hcard

section Walks

variable {s : Pmm} {before p : PagePtr} {l : List ℕ}

theorem pagesFrom_eq (hchain : s.links.Chain before p l)
    (hbound : ∀ a ∈ l, a < MAX_PG_NUM) : s.pagesFrom p = .ok l := by
  have hlength := length_le_of_bound hchain.nodup hbound
  have hfuel : l.length < walkBound :=
    hlength.trans_lt (by decide)
  simp [pagesFrom, hchain.nodes_eq hfuel]

theorem countPages_eq (hchain : s.links.Chain before p l)
    (hbound : ∀ a ∈ l, a < MAX_PG_NUM) :
    s.countPages p = .ok l.length := by
  simp [countPages, pagesFrom_eq hchain hbound, Except.map]

theorem lastPage_eq (hchain : s.links.Chain before p l) (hl : l ≠ [])
    (hbound : ∀ a ∈ l, a < MAX_PG_NUM) :
    s.lastPage p = .ok (Links.lastPtr before l) := by
  have hlength := length_le_of_bound hchain.nodup hbound
  have hfuel : l.length ≤ walkBound := hlength.trans (by decide)
  simp [lastPage, hchain.tail_eq hl hfuel]

end Walks

/-! ## Cutting the first block off a list -/

/-- What taking the first block off `buddy_table[k]` leaves when `p` points
behind that block. -/
def dropFirst (s : Pmm) (k : ℕ) (p : PagePtr) : Pmm :=
  let s := if p ≠ none then s.cutBefore p else s
  (s.setPageBlkList k p).addBlkNum k (-1)

theorem takeFirst_eq (s : Pmm) (k : ℕ) :
    s.takeFirst k =
      (s.pageBlkList k,
        s.dropFirst k (s.links.advance (2 ^ k) (s.pageBlkList k))) := by
  unfold takeFirst dropFirst
  simp only [pow2_eq]
  split <;> rfl

theorem unlinkBlk_head_eq (s : Pmm) (k : ℕ) :
    s.unlinkBlk k 0 (s.pageBlkList k) =
      s.dropFirst k (s.links.advance (2 ^ k) (s.pageBlkList k)) := by
  unfold unlinkBlk dropFirst
  simp only [pow2_eq]
  by_cases hp : s.links.advance (2 ^ k) (s.pageBlkList k) = none
  · simp [hp]
  · simp only [hp, if_false, if_true, ne_eq, not_false_eq_true]

@[simp] theorem dropFirst_pageBlkList (s : Pmm) (k : ℕ) (p : PagePtr) :
    (s.dropFirst k p).pageBlkList = Function.update s.pageBlkList k p := by
  unfold dropFirst
  split <;> rfl

@[simp] theorem dropFirst_blkNum (s : Pmm) (k : ℕ) (p : PagePtr) :
    (s.dropFirst k p).blkNum =
      Function.update s.blkNum k (s.blkNum k - 1) := by
  unfold dropFirst
  split <;> rfl

theorem dropFirst_links_none (s : Pmm) (k : ℕ) :
    (s.dropFirst k none).links = s.links := rfl

theorem dropFirst_links_some (s : Pmm) (k x : ℕ) :
    (s.dropFirst k (some x)).links = s.links.cutBefore (some x) := by
  simp [dropFirst, cutBefore, setPageBlkList, addBlkNum]

theorem dropFirst_sameOff {S : Set ℕ} (s : Pmm) (k : ℕ) (p : PagePtr)
    (hlinks : Links.AgreeOff S s.links (s.dropFirst k p).links) :
    SameOff S s (s.dropFirst k p) := by
  refine .of_links hlinks ?_ ?_ ?_ ?_ ?_ <;>
  · unfold dropFirst
    split <;> rfl

section DropFirst

variable {s : Pmm} {free : Table ℕ} {k : ℕ} {blk rest : List ℕ}

theorem Represents.advance_eq (hs : s.Represents free) (hk : k < 17)
    (hfree : free k = blk ++ rest) (hlength : blk.length = 2 ^ k) :
    s.links.advance (2 ^ k) (s.pageBlkList k) = rest.head? := by
  have hchain := hs.chain k hk
  rw [hfree] at hchain
  obtain ⟨q, hfirst, hsecond⟩ := Links.chain_append.mp hchain
  rw [← hlength, hfirst.advance, hsecond.head?]

theorem Represents.blk_chain_dropFirst (hs : s.Represents free)
    (hk : k < 17) (hfree : free k = blk ++ rest)
    (hlength : blk.length = 2 ^ k) :
    (s.dropFirst k rest.head?).links.Chain none (s.pageBlkList k) blk ∧
      (s.dropFirst k rest.head?).links.Chain none rest.head? rest := by
  have hchain := hs.chain k hk
  rw [hfree] at hchain
  cases rest with
  | nil =>
      rw [List.head?_nil, dropFirst_links_none]
      exact ⟨by simpa using hchain, rfl⟩
  | cons x rest =>
      have hblk := ne_nil_of_length_eq_pow hlength
      rw [List.head?_cons, dropFirst_links_some]
      exact hchain.cutBefore hblk

theorem Represents.dropFirst_sameOff (hs : s.Represents free)
    (hk : k < 17) (hfree : free k = blk ++ rest) :
    SameOff {a | a ∈ free k} s (s.dropFirst k rest.head?) := by
  apply Pmm.dropFirst_sameOff
  have hchain := hs.chain k hk
  rw [hfree] at hchain ⊢
  cases rest with
  | nil =>
      rw [List.head?_nil, dropFirst_links_none]
      exact .refl _ _
  | cons x rest =>
      rw [List.head?_cons, dropFirst_links_some]
      exact hchain.agreeOff_cutBefore

/-- A list of another order does not see surgery on the list of order `k`. -/
theorem Represents.chain_of_sameOff (hs : s.Represents free)
    {t : Pmm} {j : ℕ} (hj : j < 17) (hk : k < 17) (hjk : j ≠ k)
    (hsame : SameOff {a | a ∈ free k} s t)
    (hlist : t.pageBlkList j = s.pageBlkList j) :
    t.links.Chain none (t.pageBlkList j) (free j) := by
  rw [hlist]
  exact hsame.links.chain
    (fun a ha => notMem_of_nodup hj hk hjk hs.nodup ha) (hs.chain j hj)

theorem Represents.dropFirst (hs : s.Represents free) (hk : k < 17)
    (hfree : free k = blk ++ rest) (hlength : blk.length = 2 ^ k) :
    (s.dropFirst k rest.head?).Represents
      (Function.update free k rest) := by
  have hframes := frames_drop hk hfree
  have hle : frames 17 (Function.update free k rest) ≤ frames 17 free := by
    rw [hframes]
    exact Multiset.le_add_left _ _
  constructor
  · intro j hj
    by_cases hjk : j = k
    · subst j
      simpa using (hs.blk_chain_dropFirst hk hfree hlength).2
    · rw [Function.update_of_ne hjk]
      refine hs.chain_of_sameOff hj hk hjk
        (hs.dropFirst_sameOff hk hfree) ?_
      simp [hjk]
  · intro j hj
    by_cases hjk : j = k
    · subst j
      have hcount := hs.count k hk
      rw [hfree, List.length_append, hlength] at hcount
      push_cast at hcount
      simp only [Function.update_self, dropFirst_blkNum]
      rw [sub_mul]
      omega
    · simpa [hjk] using hs.count j hj
  · exact Multiset.nodup_of_le hle hs.nodup
  · intro a ha
    exact hs.bound a (Multiset.mem_of_le hle ha)

end DropFirst

section Blocks

variable {s : Pmm} {free : Table ℕ}

/-- A list that is not empty starts with a whole block. -/
theorem Represents.exists_block (hs : s.Represents free) {k : ℕ}
    (hk : k < 17) (hfree : free k ≠ []) :
    ∃ blk rest, free k = blk ++ rest ∧ blk.length = 2 ^ k := by
  have hcount := hs.count k hk
  have hlength : 0 < (free k).length := List.length_pos_iff.mpr hfree
  have hpow : (0 : ℤ) < 2 ^ k := by positivity
  have hblocks : 0 < s.blkNum k := by
    refine pos_of_mul_pos_left ?_ hpow.le
    rw [← hcount]
    exact_mod_cast hlength
  have hle : (2 : ℤ) ^ k ≤ (free k).length := by
    rw [hcount]
    exact le_mul_of_one_le_left hpow.le hblocks
  refine ⟨(free k).take (2 ^ k), (free k).drop (2 ^ k),
    (List.take_append_drop _ _).symm, ?_⟩
  rw [List.length_take, min_eq_left]
  exact_mod_cast hle

theorem Represents.pageBlkList_eq_none (hs : s.Represents free) {k : ℕ}
    (hk : k < 17) : s.pageBlkList k = none ↔ free k = [] := by
  rw [(hs.chain k hk).head?, List.head?_eq_none_iff]

/-- Changing the flags of given pages changes nothing else. -/
theorem foldl_setFlags_eq (g : Uint → Uint) (pages : List ℕ) (s : Pmm) :
    ∃ flags, pages.foldl
        (fun s i => s.setFlags (some i) (g (s.flags (some i)))) s =
          { s with flags := flags } ∧
      ∀ a ∉ pages, flags (some a) = s.flags (some a) := by
  induction pages generalizing s with
  | nil => exact ⟨s.flags, rfl, fun _ _ => rfl⟩
  | cons i pages ih =>
      obtain ⟨flags, heq, hoff⟩ :=
        ih (s.setFlags (some i) (g (s.flags (some i))))
      refine ⟨flags, heq, fun a ha => ?_⟩
      rw [List.mem_cons, not_or] at ha
      rw [hoff a ha.2]
      simp [setFlags, ha.1]

theorem Represents.withFlags (hs : s.Represents free)
    (flags : PagePtr → Uint) : { s with flags := flags }.Represents free :=
  ⟨hs.chain, hs.count, hs.nodup, hs.bound⟩

end Blocks

end Pmm

end OS32
