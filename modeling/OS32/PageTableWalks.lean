import OS32.VmSteps

/-!
# The four walks of the page tables

`map`, `unmap`, `getmapping` and `getpte` of `vmm.c` each look up the page table
of an address.  Three of them test the frame in the directory entry; `getpte`
tests its address in the direct map, which is not NULL where there is no frame.
-/

namespace OS32

open NullList

namespace Vm

variable {vm : Vm} {va : Uint}

/-- What the other walks do where the directory entry of `va` holds no page
table: nothing is mapped there, nothing is unmapped, and `map` creates one. -/
structure NoTable (vm : Vm) (va : Uint) : Prop where
  getmapping_none : vm.getmapping va = none
  unmap_eq : vm.unmap va = vm
  map_creates : ∀ flags p, vm.map flags p va = (do
    let (table, vm) ← vm.newTable va
    return vm.enter flags p va table)

/-- `getpte` is right about the page table of `va`: no flag and NULL where there
is none, and otherwise the entry that `map` writes. -/
structure GetpteAgrees (vm : Vm) (va : Uint) : Prop where
  absent_iff : vm.getpte va = (0, false) ↔ vm.tableOf va = 0
  absent : vm.tableOf va = 0 → vm.NoTable va
  present : vm.tableOf va ≠ 0 → ∃ ptep, vm.getpte va = (ptep, true) ∧
    ∀ flags p, ∃ pg vm', vm.map flags p va = .ok (pg, vm') ∧
      vm'.pgd = vm.pgd ∧
      vm'.mem = Function.update vm.mem ptep (p &&& PAGE_MASK ||| flags)

theorem noTable (htable : vm.tableOf va = 0) : vm.NoTable va where
  getmapping_none := if_pos htable
  unmap_eq := if_pos htable
  map_creates _ _ := if_pos htable

theorem getpte_absent_iff :
    vm.getpte va = (0, false) ↔ vm.tableOf va = 0x40000000 := by
  have hoffset : vm.tableOf va + PAGE_OFFSET = 0 ↔ vm.tableOf va = 0x40000000 := by
    generalize vm.tableOf va = table
    unfold PAGE_OFFSET
    bv_omega
  rw [← hoffset]
  unfold getpte
  simp

theorem getpte_present (hne : vm.tableOf va ≠ 0x40000000) :
    vm.getpte va = (pteAddr (vm.tableOf va) va, true) := by
  have hflag : (vm.getpte va).2 = true := by
    rw [getpte_flag_iff]
    intro hzero
    apply hne
    generalize vm.tableOf va = table at hzero
    unfold PAGE_OFFSET at hzero
    bv_omega
  exact Prod.ext (getpte_addr hflag) hflag

theorem map_present (htable : vm.tableOf va ≠ 0) (flags p : Uint) :
    ∃ pg vm', vm.map flags p va = .ok (pg, vm') ∧ vm'.pgd = vm.pgd ∧
      vm'.mem = Function.update vm.mem (pteAddr (vm.tableOf va) va)
        (p &&& PAGE_MASK ||| flags) :=
  ⟨_, _, if_neg htable, rfl, rfl⟩

/-- `getpte` takes a page without a table for one, and takes the table at
`-PAGE_OFFSET` for none. -/
theorem getpteAgrees_iff (vm : Vm) (va : Uint) :
    vm.GetpteAgrees va ↔ vm.tableOf va ≠ 0 ∧ vm.tableOf va ≠ 0x40000000 := by
  constructor
  · intro hagrees
    have hne : vm.tableOf va ≠ 0 := by
      intro htable
      have hodd := getpte_absent_iff.mp (hagrees.absent_iff.mpr htable)
      rw [htable] at hodd
      exact absurd hodd (by decide)
    refine ⟨hne, fun hodd => ?_⟩
    obtain ⟨ptep, hgetpte, _⟩ := hagrees.present hne
    rw [getpte_absent_iff.mpr hodd] at hgetpte
    exact Bool.noConfusion (Prod.mk.inj hgetpte).2
  · rintro ⟨hne, hodd⟩
    have hgetpte := getpte_present hodd
    constructor
    · exact ⟨fun habsent => absurd (getpte_absent_iff.mp habsent) hodd,
        fun htable => absurd htable hne⟩
    · exact noTable
    · exact fun _ => ⟨_, hgetpte, map_present hne⟩

/-- A directory without page tables: `getpte` gives the entry of the frame at
address 0. -/
theorem bare_getpte_disagrees :
    ¬ (bare (.boot BuddySession.zeroPage)).GetpteAgrees 0xE0008700 := by
  intro hagrees
  have htable : (bare (.boot BuddySession.zeroPage)).tableOf 0xE0008700 = 0 := by
    simp [bare, tableOf]
  have habsent := hagrees.absent_iff.mpr htable
  have hreached := bare_reached (.boot BuddySession.zeroPage) 0xE0008700
  rw [habsent] at hreached
  exact Bool.noConfusion hreached

end Vm
end OS32
