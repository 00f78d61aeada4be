import OS32.VmModel

/-!
# Addresses of pages and of page-table entries

Arithmetic of `PGD_IDX`, `PTE_IDX` and `PAGE_MASK`: the two indices of an
address name its page, and the entries of two page tables never overlap.
-/

namespace OS32

/-- A page boundary. -/
def Aligned (a : Uint) : Prop := a.toNat % 4096 = 0

/-- The two addresses lie in one page. -/
def SamePage (a b : Uint) : Prop := a &&& PAGE_MASK = b &&& PAGE_MASK

instance (a b : Uint) : Decidable (SamePage a b) :=
  inferInstanceAs (Decidable (_ = _))

theorem and_pageMask_eq_shift (a : Uint) :
    a &&& PAGE_MASK = (a >>> 12) <<< 12 := by
  apply BitVec.eq_of_getLsbD_eq
  intro i hi
  rw [BitVec.getLsbD_and, BitVec.getLsbD_shiftLeft, BitVec.getLsbD_ushiftRight,
    PAGE_MASK]
  interval_cases i <;> simp

theorem toNat_and_pageMask (a : Uint) :
    (a &&& PAGE_MASK).toNat = a.toNat / 4096 * 4096 := by
  rw [and_pageMask_eq_shift, BitVec.toNat_shiftLeft, BitVec.toNat_ushiftRight,
    Nat.shiftRight_eq_div_pow, Nat.shiftLeft_eq]
  omega

theorem toNat_and_0x3FF (a : Uint) :
    (a &&& 0x3FF).toNat = a.toNat % 1024 := by
  rw [BitVec.toNat_and]
  exact Nat.and_two_pow_sub_one_eq_mod a.toNat 10

@[simp] theorem toNat_pgdIdx (a : Uint) :
    (pgdIdx a).toNat = a.toNat / 4194304 := by
  rw [pgdIdx, toNat_and_0x3FF, BitVec.toNat_ushiftRight,
    Nat.shiftRight_eq_div_pow]
  omega

@[simp] theorem toNat_pteIdx (a : Uint) :
    (pteIdx a).toNat = a.toNat / 4096 % 1024 := by
  rw [pteIdx, toNat_and_0x3FF, BitVec.toNat_ushiftRight,
    Nat.shiftRight_eq_div_pow]

theorem samePage_iff {a b : Uint} :
    SamePage a b ↔ pgdIdx a = pgdIdx b ∧ pteIdx a = pteIdx b := by
  simp only [SamePage, ← BitVec.toNat_inj, toNat_and_pageMask, toNat_pgdIdx,
    toNat_pteIdx]
  omega

theorem aligned_and_pageMask (a : Uint) : Aligned (a &&& PAGE_MASK) := by
  unfold Aligned
  rw [toNat_and_pageMask]
  omega

theorem Aligned.and_pageMask {a : Uint} (ha : Aligned a) :
    a &&& PAGE_MASK = a := by
  unfold Aligned at ha
  rw [← BitVec.toNat_inj, toNat_and_pageMask]
  omega

/-! ## Entries -/

theorem Aligned.toNat_or {a flags : Uint} (ha : Aligned a)
    (hflags : flags.toNat < 4096) :
    (a ||| flags).toNat = a.toNat + flags.toNat := by
  have hsplit : a.toNat = 2 ^ 12 * (a.toNat / 4096) := by
    unfold Aligned at ha
    omega
  rw [BitVec.toNat_or, hsplit,
    ← Nat.two_pow_add_eq_or_of_lt (show flags.toNat < 2 ^ 12 from hflags)]

theorem Aligned.entry_frame {a flags : Uint} (ha : Aligned a)
    (hflags : flags.toNat < 4096) : (a ||| flags) &&& PAGE_MASK = a := by
  have hsum := ha.toNat_or hflags
  unfold Aligned at ha
  rw [← BitVec.toNat_inj, toNat_and_pageMask, hsum]
  omega

theorem Aligned.entry_ne_zero {a flags : Uint} (ha : Aligned a)
    (hflags : flags.toNat < 4096) (hne : flags ≠ 0) : a ||| flags ≠ 0 := by
  have hsum := ha.toNat_or hflags
  intro hzero
  apply hne
  rw [hzero] at hsum
  rw [← BitVec.toNat_inj]
  change flags.toNat = 0
  change 0 = a.toNat + flags.toNat at hsum
  omega

/-! ## Where entries lie -/

namespace Vm

/-- The offset of an entry in its page table. -/
theorem toNat_pteOffset (a : Uint) :
    (4 * pteIdx a).toNat = 4 * (a.toNat / 4096 % 1024) := by
  rw [BitVec.toNat_mul, toNat_pteIdx]
  change 4 * _ % 4294967296 = _
  omega

theorem pteAddr_sub (table table' a : Uint) :
    pteAddr table a - (table' + PAGE_OFFSET) =
      table - table' + 4 * pteIdx a := by
  unfold pteAddr
  generalize 4 * pteIdx a = offset
  bv_omega

/-- Clearing a page table clears its own entries and no others. -/
theorem pteAddr_sub_lt_iff {table table' : Uint} (htable : Aligned table)
    (htable' : Aligned table') (a : Uint) :
    pteAddr table a - (table' + PAGE_OFFSET) < PGSIZE ↔ table = table' := by
  have hoffset := toNat_pteOffset a
  rw [pteAddr_sub]
  generalize 4 * pteIdx a = offset at *
  unfold Aligned at htable htable'
  rw [BitVec.lt_def, ← BitVec.toNat_inj, PGSIZE]
  rw [BitVec.toNat_add, BitVec.toNat_sub]
  have h1 := table.isLt
  have h2 := table'.isLt
  change _ < 4096 ↔ _
  omega

theorem pteAddr_inj {table table' a b : Uint} (htable : Aligned table)
    (htable' : Aligned table') :
    pteAddr table a = pteAddr table' b ↔
      table = table' ∧ pteIdx a = pteIdx b := by
  have ha := toNat_pteOffset a
  have hb := toNat_pteOffset b
  have hidx : pteIdx a = pteIdx b ↔ a.toNat / 4096 % 1024 =
      b.toNat / 4096 % 1024 := by
    rw [← BitVec.toNat_inj, toNat_pteIdx, toNat_pteIdx]
  rw [hidx]
  unfold pteAddr
  generalize 4 * pteIdx a = offset at *
  generalize 4 * pteIdx b = offset' at *
  unfold Aligned at htable htable'
  constructor
  · intro heq
    have hsum : table + offset = table' + offset' := by
      unfold PAGE_OFFSET at heq
      bv_omega
    have hnat := congrArg BitVec.toNat hsum
    rw [BitVec.toNat_add, BitVec.toNat_add] at hnat
    have h1 := table.isLt
    have h2 := table'.isLt
    rw [← BitVec.toNat_inj]
    omega
  · rintro ⟨rfl, heq⟩
    have hoffset : offset = offset' := by
      rw [← BitVec.toNat_inj, ha, hb, heq]
    rw [hoffset]

end Vm

end OS32
