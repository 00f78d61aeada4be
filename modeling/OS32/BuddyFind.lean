import OS32.BuddyFreeRefinement

/-!
# Which block `FindBuddy` takes

The test of `FindBuddy` compares the start address of the block being freed with
the mask and not with the listed block.  So it holds of nearly any block, and the
first one of the list is taken off; the links are right wherever the block was.
-/

namespace OS32

open NullList NullList.Links BuddyTable

namespace Pmm

variable {s t : Pmm} {k cnt turns : ℕ} {pgBlk p before : PagePtr}
  {blocks : List (List ℕ)}

/-- The blocks of order `k` are listed in `buddy_table[k]`. -/
structure Lists (s : Pmm) (k : ℕ) (blocks : List (List ℕ)) : Prop where
  order : k < 17
  chain : s.links.Chain none (s.pageBlkList k) blocks.flatten
  length : ∀ b ∈ blocks, b.length = 2 ^ k
  count : s.blkNum k = blocks.length

/-- The start address of the block `b` differs from that of `pgBlk` in bit
`12 + k` only. -/
def TrueBuddy (s : Pmm) (k : ℕ) (pgBlk : PagePtr) (b : List ℕ) : Prop :=
  s.startAddr b.head? ^^^ s.startAddr pgBlk = 1 <<< (12 + k)

/-- `blk` is off the list of order `k`, which has kept the pages `rest`. -/
structure TakesOff (s t : Pmm) (k : ℕ) (blk rest : List ℕ) : Prop where
  kept : t.links.Chain none (t.pageBlkList k) rest
  taken : ∃ before, t.links.Chain before blk.head? blk
  blkNum : t.blkNum = Function.update s.blkNum k (s.blkNum k - 1)
  lists : ∀ j ≠ k, t.pageBlkList j = s.pageBlkList j
  same : SameOff {a | a ∈ blk ++ rest} s t

/-- `FindBuddy` takes the buddy of `pgBlk` off the list if it is there, and
changes nothing otherwise. -/
structure FindsBuddy (s : Pmm) (k : ℕ) (pgBlk : PagePtr)
    (blocks : List (List ℕ)) : Prop where
  found : (∃ b ∈ blocks, TrueBuddy s k pgBlk b) → ∃ l₁ b l₂ t,
    blocks = l₁ ++ b :: l₂ ∧ TrueBuddy s k pgBlk b ∧
      s.findBuddy pgBlk k = .ok (b.head?, t) ∧
      TakesOff s t k b (l₁ ++ l₂).flatten
  missing : (∀ b ∈ blocks, ¬ TrueBuddy s k pgBlk b) →
    s.findBuddy pgBlk k = .ok (none, s)

/-! ## The search -/

theorem findBuddyFrom_skip {n : ℕ}
    (hskip : ∀ i < n, ¬ ((cnt + i) % pow2 k = 0 ∧
      s.isBuddy k (s.links.advance i p) pgBlk = true)) :
    s.findBuddyFrom pgBlk k (n + turns) cnt p =
      s.findBuddyFrom pgBlk k turns (cnt + n) (s.links.advance n p) := by
  induction n generalizing cnt p with
  | zero => rw [Nat.zero_add]; rfl
  | succ n ih =>
      have hfirst : ¬ (cnt % pow2 k = 0 ∧ s.isBuddy k p pgBlk = true) :=
        hskip 0 n.succ_pos
      rw [Nat.succ_add, findBuddyFrom, if_neg hfirst, ih]
      · rw [Nat.add_right_comm, Nat.add_assoc]
        rfl
      · intro i hi
        have hnext := hskip (i + 1) (Nat.succ_lt_succ hi)
        rwa [← Nat.add_assoc, Nat.add_right_comm] at hnext

/-- A block that fails the test is passed page by page. -/
theorem findBuddyFrom_block (hcnt : cnt % 2 ^ k = 0)
    (htest : s.isBuddy k p pgBlk = false) :
    s.findBuddyFrom pgBlk k (2 ^ k + turns) cnt p =
      s.findBuddyFrom pgBlk k turns (cnt + 2 ^ k)
        (s.links.advance (2 ^ k) p) := by
  apply findBuddyFrom_skip
  rintro i hi ⟨hboundary, hbuddy⟩
  rw [pow2_eq, Nat.add_mod, hcnt, Nat.zero_add, Nat.mod_mod,
    Nat.mod_eq_of_lt hi] at hboundary
  subst hboundary
  exact absurd (htest.symm.trans hbuddy) Bool.false_ne_true

/-- The first block that passes the test is unlinked. -/
theorem findBuddyFrom_eq (pgBlk : PagePtr)
    (hchain : s.links.Chain before p blocks.flatten)
    (hlength : ∀ b ∈ blocks, b.length = 2 ^ k) (hcnt : cnt % 2 ^ k = 0) :
    (∀ b ∈ blocks, s.isBuddy k b.head? pgBlk = false) ∧
        s.findBuddyFrom pgBlk k (blocks.length * 2 ^ k) cnt p = (none, s) ∨
      ∃ l₁ b l₂, blocks = l₁ ++ b :: l₂ ∧
        (∀ b' ∈ l₁, s.isBuddy k b'.head? pgBlk = false) ∧
        s.isBuddy k b.head? pgBlk = true ∧
        s.findBuddyFrom pgBlk k (blocks.length * 2 ^ k) cnt p =
          (b.head?, s.unlinkBlk k (cnt + l₁.length * 2 ^ k) b.head?) := by
  induction blocks generalizing before p cnt with
  | nil =>
      left
      rw [List.length_nil, Nat.zero_mul]
      exact ⟨fun b hb => absurd hb List.not_mem_nil, rfl⟩
  | cons b blocks ih =>
      have hblk := hlength b List.mem_cons_self
      rw [List.flatten_cons] at hchain
      obtain ⟨q, hfirst, hrest⟩ := chain_append.mp hchain
      have hhead : p = b.head? := by
        rw [hchain.head?, List.head?_append_of_ne_nil _
          (ne_nil_of_length_eq_pow hblk)]
      have hturns : (b :: blocks).length * 2 ^ k =
          2 ^ k + blocks.length * 2 ^ k := by
        rw [List.length_cons, Nat.succ_mul, Nat.add_comm]
      cases htest : s.isBuddy k p pgBlk with
      | true =>
          right
          refine ⟨[], b, blocks, rfl, fun _ hb => absurd hb List.not_mem_nil,
            hhead ▸ htest, ?_⟩
          obtain ⟨turns, hpos⟩ := Nat.exists_eq_add_one.mpr
            (Nat.add_pos_left (Nat.two_pow_pos k) (blocks.length * 2 ^ k))
          rw [hturns, hpos, findBuddyFrom, pow2_eq, if_pos ⟨hcnt, htest⟩, hhead,
            List.length_nil, Nat.zero_mul, Nat.add_zero]
      | false =>
          have hend : s.links.advance (2 ^ k) p = q := by
            rw [← hblk]
            exact hfirst.advance
          have hcnt' : (cnt + 2 ^ k) % 2 ^ k = 0 := by
            rw [Nat.add_mod_right, hcnt]
          rw [hturns, findBuddyFrom_block hcnt htest, hend]
          rcases ih hrest (fun b' hb' => hlength b' (List.mem_cons_of_mem _ hb'))
            hcnt' with ⟨hnone, hrun⟩ | ⟨l₁, b₁, l₂, rfl, hnone, hfound, hrun⟩
          · left
            exact ⟨List.forall_mem_cons.mpr ⟨hhead ▸ htest, hnone⟩, hrun⟩
          · right
            refine ⟨b :: l₁, b₁, l₂, rfl,
              List.forall_mem_cons.mpr ⟨hhead ▸ htest, hnone⟩, hfound, ?_⟩
            rw [hrun, List.length_cons, Nat.succ_mul, Nat.add_assoc,
              Nat.add_comm (2 ^ k)]

/-! ## Unlinking a block -/

section Unlink

variable {l₁ b l₂ : List ℕ}

theorem unlinkBlk_blkNum (s : Pmm) (k cnt : ℕ) (p : PagePtr) :
    (s.unlinkBlk k cnt p).blkNum =
      Function.update s.blkNum k (s.blkNum k - 1) := by
  unfold unlinkBlk
  dsimp only
  split_ifs <;> rfl

theorem unlinkBlk_lists (s : Pmm) (cnt : ℕ) (p : PagePtr) {j : ℕ}
    (hj : j ≠ k) : (s.unlinkBlk k cnt p).pageBlkList j = s.pageBlkList j := by
  unfold unlinkBlk
  dsimp only
  split_ifs <;> first | rfl | exact Function.update_of_ne hj _ _

theorem unlinkBlk_sameOff {S : Set ℕ} {p : PagePtr}
    (hlinks : AgreeOff S s.links (s.unlinkBlk k cnt p).links) :
    SameOff S s (s.unlinkBlk k cnt p) := by
  refine .of_links hlinks ?_ ?_ ?_ ?_ ?_ <;>
  · unfold unlinkBlk
    dsimp only
    split_ifs <;> rfl

theorem TakesOff.of_links
    (hkept : (s.unlinkBlk k cnt b.head?).links.Chain none
      ((s.unlinkBlk k cnt b.head?).pageBlkList k) (l₁ ++ l₂))
    (htaken : ∃ before,
      (s.unlinkBlk k cnt b.head?).links.Chain before b.head? b)
    (hagree : AgreeOff {a | a ∈ l₁ ++ (b ++ l₂)} s.links
      (s.unlinkBlk k cnt b.head?).links) :
    TakesOff s (s.unlinkBlk k cnt b.head?) k b (l₁ ++ l₂) := by
  refine ⟨hkept, htaken, unlinkBlk_blkNum s k cnt _,
    fun j hj => unlinkBlk_lists s cnt _ hj, unlinkBlk_sameOff (hagree.mono ?_)⟩
  intro a ha
  simp only [Set.mem_ofPred_eq, List.mem_append] at ha ⊢
  exact or_left_comm.mp ha

/-- The block is the last one of the list. -/
theorem unlinkBlk_last (hchain : s.links.Chain none (s.pageBlkList k) (l₁ ++ b))
    (hb : b ≠ []) (hcnt : cnt = 0 ↔ l₁ = [])
    (hend : s.links.advance (2 ^ k) b.head? = none) :
    TakesOff s (s.unlinkBlk k cnt b.head?) k b l₁ := by
  obtain ⟨x, b, rfl⟩ := List.exists_cons_of_ne_nil hb
  rw [← List.append_nil l₁]
  rcases List.eq_nil_or_concat' l₁ with rfl | ⟨l, y, rfl⟩
  · have hrun : s.unlinkBlk k cnt (x :: b).head? =
        (s.setPageBlkList k none).addBlkNum k (-1) := by
      unfold unlinkBlk
      dsimp only
      rw [pow2_eq, hend, if_pos rfl, if_pos (hcnt.mpr rfl)]
    have hlinks : (s.unlinkBlk k cnt (x :: b).head?).links = s.links := by
      rw [hrun]
      rfl
    refine .of_links ?_ ⟨none, ?_⟩ ?_
    · rw [hrun]
      exact Function.update_self ..
    · rw [hlinks, ← (show s.pageBlkList k = (x :: b).head? from hchain.head?)]
      exact hchain
    · rw [hlinks]
      exact .refl _ _
  · have hrun : s.unlinkBlk k cnt (x :: b).head? =
        (s.cutBefore (some x)).addBlkNum k (-1) := by
      unfold unlinkBlk
      dsimp only
      rw [pow2_eq, hend, if_pos rfl, if_neg (by rw [hcnt]; simp)]
      rfl
    obtain ⟨hkept, htaken⟩ := hchain.cutBefore (by simp)
    refine .of_links ?_ ⟨none, ?_⟩ ?_
    · rw [hrun, List.append_nil]
      exact hkept
    · rw [hrun]
      exact htaken
    · rw [hrun, List.append_nil]
      exact hchain.agreeOff_cutBefore

/-- Another block follows, which starts at `z`. -/
theorem unlinkBlk_inner {z : ℕ}
    (hchain : s.links.Chain none (s.pageBlkList k) (l₁ ++ (b ++ z :: l₂)))
    (hb : b ≠ []) (hcnt : cnt = 0 ↔ l₁ = [])
    (hend : s.links.advance (2 ^ k) b.head? = some z) :
    TakesOff s (s.unlinkBlk k cnt b.head?) k b (l₁ ++ z :: l₂) := by
  have hnodup := hchain.nodup
  rw [← List.append_assoc] at hchain
  obtain ⟨hbefore, hafter⟩ := hchain.cutBefore (List.append_ne_nil_of_right_ne_nil _ hb)
  have hagree := hchain.agreeOff_cutBefore
  rw [List.append_assoc] at hagree
  rcases List.eq_nil_or_concat' l₁ with rfl | ⟨l, y, rfl⟩
  · have hrun : s.unlinkBlk k cnt b.head? =
        ((s.cutBefore (some z)).setPageBlkList k (some z)).addBlkNum k (-1) := by
      unfold unlinkBlk
      dsimp only
      rw [pow2_eq, hend, if_neg (Option.some_ne_none z), if_pos (hcnt.mpr rfl)]
    refine .of_links ?_ ⟨none, ?_⟩ ?_
    · rw [hrun]
      have hlist : (((s.cutBefore (some z)).setPageBlkList k
          (some z)).addBlkNum k (-1)).pageBlkList k = some z :=
        Function.update_self ..
      rw [hlist]
      exact hafter
    · rw [hrun, ← (show s.pageBlkList k = b.head? from hbefore.head?)]
      exact hbefore
    · rw [hrun]
      exact hagree
  · obtain ⟨q, hfirst, hblk⟩ := chain_append.mp hbefore
    obtain rfl := hblk.head?
    have hprev : (s.links.cutBefore (some z)).prev b.head? = some y := by
      obtain ⟨x, b, rfl⟩ := List.exists_cons_of_ne_nil hb
      rw [List.head?_cons, hblk.2.1, lastPtr_concat]
    have hrun : s.unlinkBlk k cnt b.head? = (s.setLinks
        ((s.links.cutBefore (some z)).join (some y) (some z))).addBlkNum k
          (-1) := by
      unfold unlinkBlk
      dsimp only
      rw [pow2_eq, hend, if_neg (Option.some_ne_none z),
        if_neg (by rw [hcnt]; simp), cutBefore_links, hprev]
      rfl
    have hkept : (l ++ [y] ++ z :: l₂).Nodup :=
      hnodup.sublist (List.Sublist.append_left (List.sublist_append_right _ _) _)
    -- the block is out of reach of the two writes
    have hout : ∀ a ∈ b, some a ≠ some y ∧ some a ≠ some z := by
      intro a ha
      obtain ⟨_, hrest, hacross⟩ := List.nodup_append.mp hnodup
      constructor
      · rintro heq
        exact hacross y (by simp) a (List.mem_append_left _ ha)
          (Option.some.inj heq).symm
      · rintro heq
        exact (List.nodup_append.mp hrest).2.2 a ha z (by simp)
          (Option.some.inj heq)
    refine .of_links ?_ ⟨some y, ?_⟩ ?_
    · rw [hrun]
      exact hfirst.join hafter hkept
    · rw [hrun]
      rw [lastPtr_concat] at hblk
      exact (hblk.setNext (some z) fun a ha => (hout a ha).1).setPrev (some y)
        fun a ha => (hout a ha).2
    · rw [hrun]
      refine hagree.trans (agreeOff_join _ ?_ ?_)
      · rintro a ha
        obtain rfl := Option.some.inj ha
        simp
      · rintro a ha
        obtain rfl := Option.some.inj ha
        simp

end Unlink

/-! ## `FindBuddy` -/

theorem TrueBuddy.isBuddy {b : List ℕ} (hb : TrueBuddy s k pgBlk b) :
    s.isBuddy k b.head? pgBlk = true := by
  unfold TrueBuddy at hb
  unfold Pmm.isBuddy
  dsimp only
  rw [decide_eq_true_eq]
  generalize ((1 <<< (12 + k) : ℕ) : Uint) = mask at *
  split
  next hmask =>
    intro hzero
    rw [hmask, BitVec.xor_eq_zero_iff.mp hzero] at hb
    have hone : (1 : Uint) = 0 := (BitVec.xor_left_inj mask).mp
      (hb.trans BitVec.zero_xor.symm)
    exact absurd hone (by decide)
  next hmask =>
    intro hzero
    rw [BitVec.xor_eq_zero_iff.mp hzero] at hb
    exact hmask (BitVec.zero_xor.symm.trans hb)

/-- The turns spent on blocks are none just when there are no pages. -/
theorem turns_eq_zero_iff (hlength : ∀ b ∈ blocks, b.length = 2 ^ k) :
    blocks.length * 2 ^ k = 0 ↔ blocks.flatten = [] := by
  rw [Nat.mul_eq_zero, or_iff_left (Nat.two_pow_pos k).ne',
    List.length_eq_zero_iff, List.flatten_eq_nil_iff]
  constructor
  · rintro rfl b hb
    exact absurd hb List.not_mem_nil
  · intro hall
    refine List.eq_nil_iff_forall_not_mem.mpr fun b hb => ?_
    exact ne_nil_of_length_eq_pow (hlength b hb) (hall b hb)

theorem Lists.findBuddy_eq (hs : Lists s k blocks) (pgBlk : PagePtr) :
    (∀ b ∈ blocks, s.isBuddy k b.head? pgBlk = false) ∧
        s.findBuddy pgBlk k = .ok (none, s) ∨
      ∃ l₁ b l₂ t, blocks = l₁ ++ b :: l₂ ∧
        (∀ b' ∈ l₁, s.isBuddy k b'.head? pgBlk = false) ∧
        s.isBuddy k b.head? pgBlk = true ∧ b.head? ≠ none ∧
        s.findBuddy pgBlk k = .ok (b.head?, t) ∧
        TakesOff s t k b (l₁ ++ l₂).flatten := by
  have hturns : (s.blkNum k * pow2 k).toNat = blocks.length * 2 ^ k := by
    rw [hs.count, pow2_eq, ← Nat.cast_mul, Int.toNat_natCast]
  have hfind : s.findBuddy pgBlk k = .ok (s.findBuddyFrom pgBlk k
      (blocks.length * 2 ^ k) 0 (s.pageBlkList k)) := by
    unfold findBuddy checkIndex
    rw [if_pos hs.order, ← hturns]
    rfl
  rw [hfind]
  rcases findBuddyFrom_eq pgBlk hs.chain hs.length (Nat.zero_mod _) with
    ⟨hnone, hrun⟩ | ⟨l₁, b, l₂, rfl, hnone, htest, hrun⟩
  · exact .inl ⟨hnone, congrArg _ hrun⟩
  · right
    have hblk : b.length = 2 ^ k := hs.length b (by simp)
    have hb := ne_nil_of_length_eq_pow hblk
    have hcnt : 0 + l₁.length * 2 ^ k = 0 ↔ l₁.flatten = [] := by
      rw [Nat.zero_add]
      exact turns_eq_zero_iff fun b' hb' =>
        hs.length b' (List.mem_append_left _ hb')
    refine ⟨l₁, b, l₂, _, rfl, hnone, htest, ?_, congrArg _ hrun, ?_⟩
    · simpa [List.head?_eq_none_iff] using hb
    have hchain := hs.chain
    rw [List.flatten_append, List.flatten_cons] at hchain
    rw [List.flatten_append]
    obtain ⟨q, _, hblock⟩ := chain_append.mp hchain
    obtain ⟨r, hseg, hafter⟩ := chain_append.mp hblock
    have hhead : q = b.head? := by
      rw [hblock.head?, List.head?_append_of_ne_nil _ hb]
    have hend : s.links.advance (2 ^ k) b.head? = l₂.flatten.head? := by
      rw [← hhead, ← hblk, hseg.advance, hafter.head?]
    cases hrest : l₂.flatten with
    | nil =>
        rw [hrest] at hchain hend
        rw [List.append_nil] at hchain ⊢
        exact unlinkBlk_last hchain hb hcnt hend
    | cons z rest =>
        rw [hrest] at hchain hend
        exact unlinkBlk_inner hchain hb hcnt hend

/-- Of frames above address 1 the first listed block passes the test. -/
theorem Lists.find_isBuddy (hs : Lists s k blocks)
    (hmatch : ∀ b ∈ blocks, ∀ a ∈ b, s.Matchable a) (pgBlk : PagePtr) :
    blocks.find? (fun b => s.isBuddy k b.head? pgBlk) = blocks.head? := by
  cases blocks with
  | nil => rfl
  | cons b blocks =>
      obtain ⟨a, l, rfl⟩ := List.exists_cons_of_ne_nil
        (ne_nil_of_length_eq_pow (hs.length b List.mem_cons_self))
      have ha := hmatch _ List.mem_cons_self a List.mem_cons_self
      exact List.find?_cons_of_pos (ha.isBuddy k pgBlk)

/-- `FindBuddy` is right just when the first listed block that passes its test
is the buddy, if there is one. -/
theorem findsBuddy_iff (hs : Lists s k blocks) (pgBlk : PagePtr) :
    FindsBuddy s k pgBlk blocks ↔
      ∀ b ∈ blocks.find? fun b => s.isBuddy k b.head? pgBlk,
        TrueBuddy s k pgBlk b := by
  rcases hs.findBuddy_eq pgBlk with ⟨hnone, hrun⟩ |
    ⟨l₁, b, l₂, t, rfl, hnone, htest, hsome, hrun, htakes⟩
  · have hfind : blocks.find? (fun b => s.isBuddy k b.head? pgBlk) = none := by
      rw [List.find?_eq_none]
      exact fun b hb => by simp [hnone b hb]
    rw [hfind]
    refine iff_of_true ⟨?_, fun _ => hrun⟩ (fun _ hb => absurd hb (by simp))
    rintro ⟨b, hb, htrue⟩
    exact absurd (htrue.isBuddy.symm.trans (hnone b hb)) (by decide)
  · have hfind : (l₁ ++ b :: l₂).find? (fun b => s.isBuddy k b.head? pgBlk) =
        some b := by
      rw [List.find?_eq_some_iff_append]
      exact ⟨htest, l₁, l₂, rfl, fun b' hb' => by simp [hnone b' hb']⟩
    rw [hfind]
    constructor
    · rintro hfinds b' hb'
      obtain rfl := Option.some.inj hb'
      by_contra hfalse
      by_cases hbuddy : ∃ b' ∈ l₁ ++ b :: l₂, TrueBuddy s k pgBlk b'
      · obtain ⟨_, b', _, _, _, htrue, hrun', _⟩ := hfinds.found hbuddy
        have hhead : b.head? = b'.head? := by
          rw [hrun] at hrun'
          exact (Prod.mk.inj (Except.ok.inj hrun')).1
        unfold TrueBuddy at htrue hfalse
        rw [← hhead] at htrue
        exact hfalse htrue
      · have hmissing := hfinds.missing fun b' hb' htrue =>
          hbuddy ⟨b', hb', htrue⟩
        rw [hrun] at hmissing
        exact hsome (Prod.mk.inj (Except.ok.inj hmissing)).1
    · intro htrue
      refine ⟨fun _ => ⟨l₁, b, l₂, t, rfl, htrue b rfl, hrun, htakes⟩, ?_⟩
      exact fun hall => absurd (htrue b rfl) (hall b (by simp))

/-- Pages 0 and 1, the frames at `a` and `b`, are listed as blocks of one page,
and page 2 is the frame at 0x101000. -/
def twoListed (a b : Uint) : Pmm :=
  { boot ⟨0, 0, 0, 0, none, none⟩ with
    startAddr := fun p =>
      if p = some 0 then a else if p = some 1 then b else 0x101000
    links :=
      { next := fun p => if p = some 0 then some 1 else none
        prev := fun p => if p = some 1 then some 0 else none }
    pageBlkList := fun idx => if idx = 0 then some 0 else none
    blkNum := fun idx => if idx = 0 then 2 else 0 }

theorem twoListed_lists (a b : Uint) :
    Lists (twoListed a b) 0 [[0], [1]] where
  order := by decide
  chain := ⟨rfl, rfl, rfl, rfl, rfl⟩
  length := by simp
  count := rfl

theorem findsBuddy_first :
    FindsBuddy (twoListed 0x100000 0x105000) 0 (some 2) [[0], [1]] := by
  refine (findsBuddy_iff (twoListed_lists _ _) (some 2)).mpr ?_
  intro b hb
  have hmatch : ∀ b ∈ [[0], [1]], ∀ a ∈ b,
      (twoListed 0x100000 0x105000).Matchable a := by
    unfold Matchable
    decide
  rw [(twoListed_lists _ _).find_isBuddy hmatch] at hb
  obtain rfl := Option.some.inj hb
  unfold TrueBuddy
  decide

/-- The buddy is the second block of the list, and the first one is taken. -/
theorem findsBuddy_other :
    ¬ ∀ (s : Pmm) (k : ℕ) (pgBlk : PagePtr) (blocks : List (List ℕ)),
      Lists s k blocks → FindsBuddy s k pgBlk blocks := by
  intro hall
  have hbuddy : TrueBuddy (twoListed 0x105000 0x100000) 0 (some 2) [1] := by
    unfold TrueBuddy
    decide
  obtain ⟨l₁, b, l₂, t, _, htrue, hrun, _⟩ :=
    (hall _ _ (some 2) _ (twoListed_lists 0x105000 0x100000)).found
      ⟨[1], by simp, hbuddy⟩
  have hfirst : ((twoListed 0x105000 0x100000).findBuddy (some 2) 0).toOption.map
      Prod.fst = some (some 0) := rfl
  rw [hrun] at hfirst
  have hhead : b.head? = some 0 := Option.some.inj hfirst
  unfold TrueBuddy at htrue
  rw [hhead] at htrue
  exact absurd htrue (by decide)

end Pmm
end OS32
