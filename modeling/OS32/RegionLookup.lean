import OS32.VmModel
import OS32.Intervals

/-!
# Looking up a region

`FindVMA` looks at `mmap_cache` first, which is NULL until a lookup succeeds,
and takes the end of a region for one of its addresses.
-/

namespace OS32

open Intervals

namespace Mm

variable {mm : Mm} {l : List ℕ} {va : Uint} {a b : ℕ}

def start (mm : Mm) (a : ℕ) : ℕ := (mm.vma (some a)).vmStart.toNat

def stop (mm : Mm) (a : ℕ) : ℕ := (mm.vma (some a)).vmEnd.toNat

/-- From `p` the `next` pointers lead through the regions `l` to NULL. -/
def Walk (mm : Mm) : Option ℕ → List ℕ → Prop
  | p, [] => p = none
  | p, a :: l => p = some a ∧ mm.Walk (mm.vma (some a)).next l

/-- `vma_list` lists the regions `l`, in order and disjoint. -/
structure Regions (mm : Mm) (l : List ℕ) : Prop where
  walk : mm.Walk mm.vmaList l
  sorted : Sorted mm.start mm.stop l

/-- The pointers that the loop of `FindVMA` dereferences. -/
def visited (mm : Mm) (va : Uint) : ℕ → Option ℕ → List (Option ℕ)
  | 0, _ => []
  | _ + 1, none => []
  | fuel + 1, some i =>
      some i :: if Vm.inVma (mm.vma (some i)) va then []
        else mm.visited va fuel (mm.vma (some i)).next

/-- The pointers to regions that `FindVMA` dereferences. -/
def dereferenced (mm : Mm) (va : Uint) : List (Option ℕ) :=
  mm.mmapCache :: if Vm.inVma (mm.vma mm.mmapCache) va then []
    else mm.visited va walkBound mm.vmaList

/-- `FindVMA` returns the region of `va`, if there is one, without a look at
address 0, and so does the walk along the list alone. -/
structure LooksUp (mm : Mm) (l : List ℕ) (va : Uint) : Prop where
  no_null : none ∉ mm.dereferenced va
  finds : ∃ r mm', Vm.findVma mm va = .ok (r, mm') ∧
    (∀ a, r = some a ↔ a ∈ l ∧ Covers mm.start mm.stop va.toNat a) ∧
    Vm.findVmaFrom mm va walkBound mm.vmaList = .ok r

/-- The test of `FindVMA` on a region. -/
def accepts (mm : Mm) (va : Uint) (a : ℕ) : Bool :=
  Vm.inVma (mm.vma (some a)) va

theorem accepts_iff : mm.accepts va a = true ↔
    mm.start a ≤ va.toNat ∧ va.toNat ≤ mm.stop a := by
  unfold accepts Vm.inVma start stop
  rw [decide_eq_true_iff, BitVec.le_def, BitVec.le_def]

theorem none_not_mem_visited (mm : Mm) (va : Uint) (fuel : ℕ)
    (p : Option ℕ) : none ∉ mm.visited va fuel p := by
  induction fuel generalizing p with
  | zero => exact List.not_mem_nil
  | succ fuel ih =>
      cases p with
      | none => exact List.not_mem_nil
      | some i =>
          unfold visited
          rw [List.mem_cons]
          rintro (hnull | hrest)
          · cases hnull
          · split at hrest
            · exact List.not_mem_nil hrest
            · exact ih _ hrest

/-- The loop of `FindVMA` finds the first region that its test accepts. -/
theorem findVmaFrom_eq {p : Option ℕ} {fuel : ℕ} (hwalk : mm.Walk p l)
    (hfuel : l.length < fuel) :
    Vm.findVmaFrom mm va fuel p =
      .ok (l.find? (mm.accepts va)) := by
  induction l generalizing p fuel with
  | nil =>
      cases fuel with
      | zero => cases hfuel
      | succ fuel =>
          obtain rfl : p = none := hwalk
          rfl
  | cons a l ih =>
      cases fuel with
      | zero => cases hfuel
      | succ fuel =>
          obtain ⟨rfl, hrest⟩ := hwalk
          unfold Vm.findVmaFrom
          rw [List.find?_cons]
          change (if mm.accepts va a = true then _ else _) = _
          cases mm.accepts va a with
          | true => rfl
          | false => exact ih hrest (Nat.lt_of_succ_lt_succ hfuel)

theorem Regions.length_lt (hregions : mm.Regions l) :
    l.length < walkBound := by
  have hle := hregions.sorted.length_le 4294967295
    fun a _ => Nat.le_of_lt_succ (mm.vma (some a)).vmEnd.isLt
  exact Nat.lt_succ_of_le hle

theorem Regions.findVmaFrom_eq (hregions : mm.Regions l) :
    Vm.findVmaFrom mm va walkBound mm.vmaList =
      .ok (l.find? (mm.accepts va)) :=
  Mm.findVmaFrom_eq hregions.walk hregions.length_lt

theorem Regions.findVma_eq (hregions : mm.Regions l) :
    Vm.findVma mm va =
      .ok (if Vm.inVma (mm.vma mm.mmapCache) va then (mm.mmapCache, mm) else
        (l.find? (mm.accepts va), { mm with
          mmapCache := (l.find? (mm.accepts va)).or mm.mmapCache })) := by
  unfold Vm.findVma
  rw [hregions.findVmaFrom_eq]
  split
  next => rfl
  next => cases l.find? (mm.accepts va) <;> rfl

/-- Away from the ends of regions the walk finds the region of an address. -/
theorem Regions.find?_iff (hregions : mm.Regions l)
    (hends : ∀ a ∈ l, (mm.vma (some a)).vmEnd ≠ va) :
    (l.find? (mm.accepts va)) = some a ↔
      a ∈ l ∧ Covers mm.start mm.stop va.toNat a := by
  have hcovers : ∀ b ∈ l, mm.accepts va b = true ↔
      Covers mm.start mm.stop va.toNat b := by
    intro b hb
    have hne : mm.stop b ≠ va.toNat := fun heq =>
      hends b hb (BitVec.eq_of_toNat_eq heq)
    rw [accepts_iff]
    unfold Covers
    omega
  constructor
  · intro hfind
    have hmem := List.mem_of_find?_eq_some hfind
    exact ⟨hmem, (hcovers a hmem).mp (List.find?_some hfind)⟩
  · rintro ⟨hmem, ha⟩
    cases hfind : l.find? (mm.accepts va) with
    | none =>
        exact absurd ((hcovers a hmem).mpr ha)
          (List.find?_eq_none.mp hfind a hmem)
    | some b =>
        have hb := List.mem_of_find?_eq_some hfind
        rw [hregions.sorted.covers_unique hb hmem
          ((hcovers b hb).mp (List.find?_some hfind)) ha]

/-- The walk finds a region that ends at `va` before the one that begins
there. -/
theorem Regions.find?_end (hregions : mm.Regions l) (ha : a ∈ l)
    (hend : (mm.vma (some a)).vmEnd = va) :
    ∃ b ∈ l, (l.find? (mm.accepts va)) = some b ∧
      ¬ Covers mm.start mm.stop va.toNat b := by
  have hstop : mm.stop a = va.toNat := congrArg BitVec.toNat hend
  have hproper := hregions.sorted.proper a ha
  have hin : mm.accepts va a = true := by
    rw [accepts_iff]
    omega
  cases hfind : l.find? (mm.accepts va) with
  | none => exact absurd hin (List.find?_eq_none.mp hfind a ha)
  | some b =>
      obtain ⟨_, before, after, rfl, hnone⟩ :=
        List.find?_eq_some_iff_append.mp hfind
      refine ⟨b, by simp, rfl, ?_⟩
      rintro ⟨_, hlt⟩
      rcases List.mem_append.mp ha with ha | ha
      · have hnot := hnone a ha
        rw [hin] at hnot
        cases hnot
      · rcases List.mem_cons.mp ha with rfl | ha
        · omega
        · have hsorted := (List.pairwise_append.mp hregions.sorted.before).2.1
          have hba := (List.pairwise_cons.mp hsorted).1 a ha
          omega

/-- A lookup works just when the cache is not NULL and the address is not the
end of a region. -/
theorem looks_up_iff (hregions : mm.Regions l)
    (hcache : ∀ a, mm.mmapCache = some a → a ∈ l) :
    mm.LooksUp l va ↔
      mm.mmapCache ≠ none ∧ ∀ a ∈ l, (mm.vma (some a)).vmEnd ≠ va := by
  constructor
  · rintro ⟨hnull, r, mm', _, hfinds, hwalk⟩
    refine ⟨?_, ?_⟩
    · intro hcache
      exact hnull (hcache ▸ List.mem_cons_self)
    · intro a ha hend
      obtain ⟨b, hb, hfind, hnot⟩ := hregions.find?_end ha hend
      rw [hregions.findVmaFrom_eq, hfind] at hwalk
      obtain rfl := Except.ok.inj hwalk
      exact hnot ((hfinds b).mp rfl).2
  · rintro ⟨hne, hends⟩
    obtain ⟨k, hk⟩ := Option.ne_none_iff_exists'.mp hne
    have hfind : ∀ a, _ := fun a => hregions.find?_iff (a := a) hends
    refine ⟨?_, (l.find? (mm.accepts va)), ?_⟩
    · unfold dereferenced
      rw [List.mem_cons]
      rintro (hnull | hrest)
      · exact hne hnull.symm
      · split at hrest
        · exact List.not_mem_nil hrest
        · exact none_not_mem_visited mm va _ _ hrest
    · rw [hregions.findVmaFrom_eq, hregions.findVma_eq, hk]
      by_cases hin : Vm.inVma (mm.vma (some k)) va = true
      · have hkl := hcache k hk
        have hstop : mm.stop k ≠ va.toNat := fun heq =>
          hends k hkl (BitVec.eq_of_toNat_eq heq)
        have hcovers : Covers mm.start mm.stop va.toNat k := by
          have hbounds := accepts_iff.mp hin
          unfold Covers
          omega
        rw [if_pos hin, (hfind k).mpr ⟨hkl, hcovers⟩]
        refine ⟨mm, rfl, ?_, rfl⟩
        intro a
        rw [← (hfind k).mpr ⟨hkl, hcovers⟩]
        exact hfind a
      · rw [if_neg hin]
        exact ⟨_, rfl, hfind, rfl⟩

/-- `FindVMA` takes what lies at address 0 for a region with the address. -/
def NullAccepts (mm : Mm) (va : Uint) : Prop :=
  mm.mmapCache = none ∧ Vm.inVma (mm.vma none) va = true

theorem Regions.end_unique (hregions : mm.Regions l) (ha : a ∈ l) (hb : b ∈ l)
    (haend : (mm.vma (some a)).vmEnd = va)
    (hbend : (mm.vma (some b)).vmEnd = va) : a = b := by
  have hastop : mm.stop a = va.toNat := congrArg BitVec.toNat haend
  have hbstop : mm.stop b = va.toNat := congrArg BitVec.toNat hbend
  have haproper := hregions.sorted.proper a ha
  have hbproper := hregions.sorted.proper b hb
  refine hregions.sorted.covers_unique (x := va.toNat - 1) ha hb ?_ ?_ <;>
  · unfold Covers
    omega

/-- The walk finds the region of the address, or one that ends there. -/
theorem Regions.find?_cases (hregions : mm.Regions l) (ha : a ∈ l)
    (hcovers : Covers mm.start mm.stop va.toNat a) :
    (l.find? (mm.accepts va) = some a ∧
        ∀ b ∈ l, (mm.vma (some b)).vmEnd ≠ va) ∨
      ∃ b ∈ l, (mm.vma (some b)).vmEnd = va ∧
        l.find? (mm.accepts va) = some b := by
  by_cases hends : ∃ c ∈ l, (mm.vma (some c)).vmEnd = va
  · right
    obtain ⟨c, hc, hend⟩ := hends
    obtain ⟨b, hb, hfind, hnot⟩ := hregions.find?_end hc hend
    refine ⟨b, hb, ?_, hfind⟩
    have haccepts := accepts_iff.mp (List.find?_some hfind)
    have hstop : mm.stop b = va.toNat := by
      unfold Covers at hnot
      omega
    exact BitVec.eq_of_toNat_eq hstop
  · left
    have hnone : ∀ b ∈ l, (mm.vma (some b)).vmEnd ≠ va :=
      fun b hb hend => hends ⟨b, hb, hend⟩
    exact ⟨(hregions.find?_iff hnone).mpr ⟨ha, hcovers⟩, hnone⟩

/-- What `FindVMA` returns for an address of the region `a`. -/
inductive Finds (mm : Mm) (l : List ℕ) (va : Uint) (a : ℕ) : Option ℕ → Prop
  | null (hnull : mm.NullAccepts va) : Finds mm l va a none
  | region (hnull : ¬ mm.NullAccepts va)
      (hends : ∀ b ∈ l, (mm.vma (some b)).vmEnd = va → mm.mmapCache = some a) :
      Finds mm l va a (some a)
  | before {b : ℕ} (hnull : ¬ mm.NullAccepts va) (hb : b ∈ l)
      (hend : (mm.vma (some b)).vmEnd = va) (hcache : mm.mmapCache ≠ some a) :
      Finds mm l va a (some b)

/-- What the walk along the list returns, once the cache has been refused. -/
theorem Regions.walk_finds (hregions : mm.Regions l)
    (hnull : ¬ mm.NullAccepts va) (hne : mm.mmapCache ≠ some a) (ha : a ∈ l)
    (hcovers : Covers mm.start mm.stop va.toNat a) :
    mm.Finds l va a (l.find? (mm.accepts va)) := by
  rcases hregions.find?_cases ha hcovers with
    ⟨hfind, hnone⟩ | ⟨b, hb, hend, hfind⟩
  · rw [hfind]
    exact .region hnull fun b hb hend => absurd hend (hnone b hb)
  · rw [hfind]
    exact .before hnull hb hend hne

theorem Regions.findVma_finds (hregions : mm.Regions l)
    (hcache : ∀ k, mm.mmapCache = some k → k ∈ l) (ha : a ∈ l)
    (hcovers : Covers mm.start mm.stop va.toNat a) :
    ∃ r mm', Vm.findVma mm va = .ok (r, mm') ∧ mm'.vma = mm.vma ∧
      mm.Finds l va a r := by
  rw [hregions.findVma_eq]
  by_cases hin : Vm.inVma (mm.vma mm.mmapCache) va = true
  · rw [if_pos hin]
    refine ⟨_, _, rfl, rfl, ?_⟩
    cases hk : mm.mmapCache with
    | none => exact .null ⟨hk, hk ▸ hin⟩
    | some k =>
        have hnull : ¬ mm.NullAccepts va := by
          rintro ⟨hnone, _⟩
          rw [hk] at hnone
          cases hnone
        have hkl := hcache k hk
        by_cases hka : k = a
        · subst hka
          exact .region hnull fun _ _ _ => hk
        · have hkcovers : ¬ Covers mm.start mm.stop va.toNat k := fun hcov =>
            hka (hregions.sorted.covers_unique hkl ha hcov hcovers)
          rw [hk] at hin
          have hkin := accepts_iff.mp hin
          have hstop : mm.stop k = va.toNat := by
            unfold Covers at hkcovers
            omega
          refine .before hnull hkl (BitVec.eq_of_toNat_eq hstop) ?_
          rw [hk]
          exact fun heq => hka (Option.some.inj heq)
  · rw [if_neg hin]
    refine ⟨_, _, rfl, rfl, hregions.walk_finds ?_ ?_ ha hcovers⟩
    · rintro ⟨hnone, hnull⟩
      rw [hnone] at hin
      exact hin hnull
    · intro hk
      rw [hk] at hin
      refine hin (accepts_iff.mpr ?_)
      unfold Covers at hcovers
      omega

/-- The region that `init_mm` makes, behind a kernel which ends at
`0xC0110000`. -/
def initMm (mmapCache : Option ℕ) : Mm where
  vmaList := some 0
  mmapCache := mmapCache
  vma := fun p => if p = none then ⟨none, 0, 0, 0⟩ else
    ⟨none, 0xC0110000, 0xF0000000, PTE_W ||| PTE_P ||| PTE_U⟩

theorem initMm_regions (mmapCache : Option ℕ) :
    (initMm mmapCache).Regions [0] := by
  refine ⟨⟨rfl, rfl⟩, ?_, List.pairwise_singleton _ 0⟩
  intro a _
  change 0xC0110000 < 0xF0000000
  decide

/-- Two regions with a gap between them, and the second one in the cache. -/
def twoRegions : Mm where
  vmaList := some 0
  mmapCache := some 1
  vma := fun p =>
    if p = some 0 then ⟨some 1, 0xC0110000, 0xD0000000, PTE_W ||| PTE_P⟩
    else if p = some 1 then ⟨none, 0xE0000000, 0xF0000000, PTE_W ||| PTE_P⟩
    else ⟨none, 0, 0, 0⟩

theorem twoRegions_regions : twoRegions.Regions [0, 1] :=
  ⟨⟨rfl, rfl, rfl⟩, by decide, by decide⟩

/-- A lookup in the first region, with the second one in the cache. -/
theorem looks_up_cached : twoRegions.LooksUp [0, 1] 0xC8000000 := by
  refine (looks_up_iff twoRegions_regions ?_).mpr ⟨nofun, by decide⟩
  intro a ha
  obtain rfl := Option.some.inj ha
  decide

/-- The first lookup reads the region at address 0. -/
theorem first_lookup_null :
    ¬ ∀ (mm : Mm) (l : List ℕ) (va : Uint), mm.Regions l →
      (∀ a, mm.mmapCache = some a → a ∈ l) → mm.LooksUp l va := by
  intro hall
  have hlookup := hall (initMm none) [0] 0xD0000000 (initMm_regions none) nofun
  exact hlookup.no_null List.mem_cons_self

end Mm

end OS32
