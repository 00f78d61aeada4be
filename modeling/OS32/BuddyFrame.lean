import OS32.BuddyModel

/-!
# What the allocator leaves alone

`alloc_buddy` and `free_buddy` write links, flags and the table.  The reference
counts, the addresses and the number of frames stay as they are, in any state
at all.
-/

namespace OS32
namespace Pmm

/-- The members that the allocator only reads. -/
structure Members where
  refNum : PagePtr → Uint
  startAddr : PagePtr → Uint
  va : PagePtr → Uint
  phyPageNum : ℕ

def members (s : Pmm) : Members :=
  ⟨s.refNum, s.startAddr, s.va, s.phyPageNum⟩

variable {s t : Pmm}

@[simp] theorem members_setFlags (s : Pmm) (p : PagePtr) (v : Uint) :
    (s.setFlags p v).members = s.members := rfl

@[simp] theorem members_setLinks (s : Pmm) (links : NullList.Links ℕ) :
    (s.setLinks links).members = s.members := rfl

@[simp] theorem members_setPageBlkList (s : Pmm) (idx : ℕ) (p : PagePtr) :
    (s.setPageBlkList idx p).members = s.members := rfl

@[simp] theorem members_addBlkNum (s : Pmm) (idx : ℕ) (n : ℤ) :
    (s.addBlkNum idx n).members = s.members := rfl

@[simp] theorem members_cutBefore (s : Pmm) (p : PagePtr) :
    (s.cutBefore p).members = s.members := rfl

theorem members_foldl_setFlags (g : Pmm → ℕ → Uint) (pages : List ℕ)
    (s : Pmm) :
    (pages.foldl (fun s i => s.setFlags (some i) (g s i)) s).members =
      s.members := by
  induction pages generalizing s with
  | nil => rfl
  | cons i pages ih => rw [List.foldl_cons, ih, members_setFlags]

theorem refNum_eq (h : t.members = s.members) : t.refNum = s.refNum :=
  congrArg Members.refNum h

theorem startAddr_eq (h : t.members = s.members) : t.startAddr = s.startAddr :=
  congrArg Members.startAddr h

theorem va_eq (h : t.members = s.members) : t.va = s.va :=
  congrArg Members.va h

theorem phyPageNum_eq (h : t.members = s.members) :
    t.phyPageNum = s.phyPageNum :=
  congrArg Members.phyPageNum h

/-! ## `alloc_buddy` -/

section Alloc

theorem members_halveInto (s : Pmm) (nextid : ℕ) (blk0 : PagePtr) :
    (s.halveInto nextid blk0).2.members = s.members := by
  simp only [halveInto, members_addBlkNum, members_cutBefore, members_setLinks]
  split
  · rw [members_setPageBlkList]
  · rfl

theorem members_splitBlock (s : Pmm) (idx : ℕ) :
    (s.splitBlock idx).2.members = s.members := by
  simp only [splitBlock, members_halveInto, members_addBlkNum]
  split
  · rw [members_cutBefore, members_setPageBlkList]
  · rw [members_setPageBlkList]

theorem members_splitMore {tmp : ℕ} {blk : PagePtr} {r : PagePtr × Pmm}
    (hrun : splitMore tmp s blk = .ok r) : r.2.members = s.members := by
  induction tmp generalizing s blk with
  | zero =>
      obtain ⟨pages, _, hrest⟩ := bind_ok_iff.mp hrun
      split at hrest
      · cases hrest
      · cases hrest
        rfl
  | succ tmp ih =>
      obtain ⟨pages, _, hrest⟩ := bind_ok_iff.mp hrun
      split at hrest
      · exact (ih hrest).trans (members_splitBlock (Pmm.addBlkNum _ _ _) tmp)
      · cases hrest
        rfl

theorem members_takeFirst (s : Pmm) (i : ℕ) :
    (s.takeFirst i).2.members = s.members := by
  simp only [takeFirst]
  split
  · rw [members_cutBefore, members_addBlkNum, members_setPageBlkList]
  · rw [members_addBlkNum, members_setPageBlkList]

theorem members_searchFit {idx fuel i : ℕ} {r : PagePtr × Pmm}
    (hrun : s.searchFit idx fuel i = .ok (some r)) :
    r.2.members = s.members := by
  induction fuel generalizing i with
  | zero => cases hrun
  | succ fuel ih =>
      obtain ⟨_, _, hrest⟩ := bind_ok_iff.mp hrun
      split at hrest
      · cases hrest
        exact members_takeFirst s i
      · split at hrest
        · obtain ⟨r', hsplit, hret⟩ := bind_ok_iff.mp hrest
          cases hret
          exact (members_splitMore hsplit).trans (members_splitBlock s i)
        · split at hrest
          · exact ih hrest
          · cases hrest

theorem members_allocBuddy {memsize : Uint} {r : Alloc}
    (hrun : s.allocBuddy memsize = .ok r) : r.pmm.members = s.members := by
  obtain ⟨fit, hfit, hrest⟩ := bind_ok_iff.mp hrun
  cases fit with
  | none =>
      cases hrest
      rfl
  | some found =>
      obtain ⟨pages, _, hret⟩ := bind_ok_iff.mp hrest
      cases hret
      exact (members_foldl_setFlags _ pages found.2).trans
        (members_searchFit hfit)

theorem members_allocPages {swapOut : Pmm → Except Fault ℕ} {n : Uint}
    {p : PagePtr} (hrun : s.allocPages swapOut n = .ok (p, t)) :
    t.members = s.members := by
  obtain ⟨pages, halloc, hrest⟩ := bind_ok_iff.mp hrun
  split at hrest
  · cases hrest
    exact members_allocBuddy halloc
  · obtain ⟨flag, _, hpanic⟩ := bind_ok_iff.mp hrest
    split at hpanic <;> cases hpanic

end Alloc

/-! ## `free_buddy` -/

section Free

theorem members_unlinkBlk (s : Pmm) (idx cnt : ℕ) (p : PagePtr) :
    (s.unlinkBlk idx cnt p).members = s.members := by
  simp only [unlinkBlk, members_addBlkNum]
  split
  · split
    · rw [members_setPageBlkList]
    · rw [members_cutBefore]
  · split
    · rw [members_setPageBlkList, members_cutBefore]
    · rw [members_setLinks, members_cutBefore]

theorem members_findBuddyFrom (s : Pmm) (pgBlk : PagePtr)
    (idx turns cnt : ℕ) (p : PagePtr) :
    (s.findBuddyFrom pgBlk idx turns cnt p).2.members = s.members := by
  induction turns generalizing cnt p with
  | zero => rfl
  | succ turns ih =>
      unfold findBuddyFrom
      split
      · exact members_unlinkBlk s idx cnt p
      · exact ih _ _

theorem members_findBuddy {pgBlk : PagePtr} {idx : ℕ} {r : PagePtr × Pmm}
    (hrun : s.findBuddy pgBlk idx = .ok r) : r.2.members = s.members := by
  obtain ⟨_, _, hret⟩ := bind_ok_iff.mp hrun
  cases hret
  exact members_findBuddyFrom _ _ _ _ _ _

theorem members_blendBlk {buddyBlk blk : PagePtr} {idx : ℕ}
    {r : PagePtr × Pmm} (hrun : s.blendBlk buddyBlk blk idx = .ok r) :
    r.2.members = s.members := by
  unfold blendBlk at hrun
  split at hrun
  · cases hrun
  · obtain ⟨p, _, hret⟩ := bind_ok_iff.mp hrun
    cases hret
    rfl

theorem members_mergeLoop {fuel tmp : ℕ} {blk : PagePtr}
    {r : PagePtr × ℕ × Pmm} (hrun : mergeLoop fuel s blk tmp = .ok r) :
    r.2.2.members = s.members := by
  induction fuel generalizing s blk tmp with
  | zero => cases hrun
  | succ fuel ih =>
      obtain ⟨⟨buddyBlk, s₁⟩, hfind, hrest⟩ := bind_ok_iff.mp hrun
      have hfound := members_findBuddy hfind
      dsimp only at hrest hfound
      by_cases hnone : buddyBlk = none
      · rw [if_pos hnone] at hrest
        cases hrest
        exact hfound
      · rw [if_neg hnone] at hrest
        obtain ⟨blended, hblend, hloop⟩ := bind_ok_iff.mp hrest
        rw [ih hloop, members_blendBlk hblend, hfound]

theorem members_freeBuddy {pgBlk : PagePtr}
    (hrun : s.freeBuddy pgBlk = .ok t) : t.members = s.members := by
  obtain ⟨free, _, hrest⟩ := bind_ok_iff.mp hrun
  split at hrest
  · cases hrest
    rfl
  · obtain ⟨pages, _, hrest⟩ := bind_ok_iff.mp hrest
    have hflags := members_foldl_setFlags (fun _ _ => PHY_FREE) pages s
    obtain ⟨count, _, hrest⟩ := bind_ok_iff.mp hrest
    obtain ⟨_, _, hrest⟩ := bind_ok_iff.mp hrest
    split at hrest
    · cases hrest
      exact hflags
    · obtain ⟨merged, hmerge, hrest⟩ := bind_ok_iff.mp hrest
      have hmerged := (members_mergeLoop hmerge).trans hflags
      obtain ⟨_, _, hrest⟩ := bind_ok_iff.mp hrest
      split at hrest
      · cases hrest
        exact hmerged
      · obtain ⟨p, _, hret⟩ := bind_ok_iff.mp hrest
        cases hret
        exact hmerged

end Free

end Pmm
end OS32
