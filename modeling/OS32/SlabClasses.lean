import OS32.SlabRefusal

/-!
# The cache that `kmalloc` chooses

`kmalloc` goes along the caches in the order of their sizes and stops at the
first one with objects larger than the request, so a request for just the size
of a class goes to the next class.
-/

namespace OS32

namespace Slab

variable {σ : Type} {P : PageOps σ} {h : Heap σ} {c : ℕ} {size : Uint}

/-- The first value above `x` in an increasing list is the least one. -/
theorem find?_increasing_iff {α : Type*} {f : α → Uint} {l : List α}
    (hsorted : l.Pairwise fun a b => f a < f b) {x : Uint} {a : α} :
    l.find? (fun b => x < f b) = some a ↔
      a ∈ l ∧ x < f a ∧ ∀ b ∈ l, x < f b → f a ≤ f b := by
  induction l with
  | nil => simp
  | cons b l ih =>
      obtain ⟨hfirst, hrest⟩ := List.pairwise_cons.mp hsorted
      rw [List.find?_cons]
      by_cases hx : x < f b
      · rw [decide_eq_true hx]
        constructor
        · intro hsame
          obtain rfl := Option.some.inj hsame
          refine ⟨List.mem_cons_self, hx, ?_⟩
          intro d hd _
          rcases List.mem_cons.mp hd with rfl | hd
          · exact BitVec.le_refl _
          · exact BitVec.le_of_lt (hfirst d hd)
        · rintro ⟨hmem, _, hleast⟩
          rcases List.mem_cons.mp hmem with rfl | hmem
          · rfl
          · exact absurd (hleast b List.mem_cons_self hx)
              (BitVec.not_le.mpr (hfirst a hmem))
      · rw [decide_eq_false hx]
        rw [ih hrest]
        constructor
        · rintro ⟨hmem, hlt, hleast⟩
          refine ⟨List.mem_cons_of_mem _ hmem, hlt, ?_⟩
          intro d hd hxd
          rcases List.mem_cons.mp hd with rfl | hd
          · exact absurd hxd hx
          · exact hleast d hd hxd
        · rintro ⟨hmem, hlt, hleast⟩
          rcases List.mem_cons.mp hmem with rfl | hmem
          · exact absurd hlt hx
          · exact ⟨hmem, hlt, fun d hd => hleast d (List.mem_cons_of_mem _ hd)⟩

/-! ## The classes -/

/-- The smallest of the caches of `kmalloc` with objects of at least `size`
bytes. -/
def Smallest (h : Heap σ) (size : Uint) (c : ℕ) : Prop :=
  c ∈ h.kmemCaches.tail ∧ size ≤ (h.caches c).size ∧
    ∀ d ∈ h.kmemCaches.tail, size ≤ (h.caches d).size →
      (h.caches c).size ≤ (h.caches d).size

/-- `kmalloc` chooses the smallest cache that fits, and finds none only if no
cache fits. -/
def ChoosesSmallest (h : Heap σ) (size : Uint) : Prop :=
  (∀ c, Smallest h size c → sizeClass h size = some c) ∧
    (sizeClass h size = none →
      ∀ c ∈ h.kmemCaches.tail, (h.caches c).size < size)

theorem bootCache_sizes : (List.range' 2 14).Pairwise fun c d =>
    (bootCache c).size < (bootCache d).size := by
  decide +kernel

theorem bootCache_bytes : ∀ c ∈ List.range' 2 14,
    BitVec.ofNat 32 (calculateBytes (bootCache c).name) = (bootCache c).size := by
  decide +kernel

theorem Booted.tail_eq (hbooted : Booted h) :
    h.kmemCaches.tail = List.range' 2 14 := by
  unfold Heap.kmemCaches
  rw [hbooted.cacheNum]
  rfl

/-- The size that `kmalloc` reads off a cache's name is that of its objects. -/
theorem Booted.sizeClass_eq (hbooted : Booted h) (size : Uint) :
    sizeClass h size =
      h.kmemCaches.tail.find? fun c => size < (h.caches c).size := by
  unfold sizeClass
  rw [hbooted.tail_eq]
  refine List.find?_congr ?_
  intro c hc
  have hlt : c < 16 := by
    have hbounds := List.mem_range'_1.mp hc
    omega
  have hkind := hbooted.kind c hlt
  have hname : (h.caches c).name = (bootCache c).name :=
    congrArg (fun kind => kind.2.2.1) hkind
  have hsize : (h.caches c).size = (bootCache c).size :=
    congrArg Prod.fst hkind
  rw [hname, hsize, bootCache_bytes c hc]

theorem Booted.sizes_increase (hbooted : Booted h) :
    h.kmemCaches.tail.Pairwise fun c d =>
      (h.caches c).size < (h.caches d).size := by
  rw [hbooted.tail_eq]
  refine bootCache_sizes.imp_of_mem ?_
  intro c d hc hd hlt
  have hsize : ∀ c ∈ List.range' 2 14,
      (h.caches c).size = (bootCache c).size := by
    intro c hc
    have hbounds := List.mem_range'_1.mp hc
    exact congrArg Prod.fst (hbooted.kind c (by omega))
  rw [hsize c hc, hsize d hd]
  exact hlt

theorem Booted.sizeClass_some_iff (hbooted : Booted h) :
    sizeClass h size = some c ↔ c ∈ h.kmemCaches.tail ∧
      size < (h.caches c).size ∧ ∀ d ∈ h.kmemCaches.tail,
        size < (h.caches d).size → (h.caches c).size ≤ (h.caches d).size := by
  rw [hbooted.sizeClass_eq]
  exact find?_increasing_iff hbooted.sizes_increase

/-- The cache is the smallest that fits just when the request is not the size of
a class. -/
theorem chooses_smallest_iff (hreachable : Reachable P h) :
    ChoosesSmallest h size ↔
      ∀ c ∈ h.kmemCaches.tail, (h.caches c).size ≠ size := by
  have hbooted := hreachable.reached.booted
  constructor
  · rintro ⟨hsmallest, _⟩ c hc rfl
    have hclass := hsmallest c ⟨hc, BitVec.le_refl _, fun _ _ hle => hle⟩
    exact BitVec.lt_irrefl _ (hbooted.sizeClass_some_iff.mp hclass).2.1
  · intro hne
    have hlt : ∀ c ∈ h.kmemCaches.tail, size ≤ (h.caches c).size →
        size < (h.caches c).size := by
      intro c hc hle
      exact BitVec.lt_of_le_ne hle (hne c hc).symm
    refine ⟨?_, ?_⟩
    · rintro c ⟨hc, hle, hleast⟩
      refine hbooted.sizeClass_some_iff.mpr ⟨hc, hlt c hc hle, ?_⟩
      exact fun d hd hsize => hleast d hd (BitVec.le_of_lt hsize)
    · intro hnone c hc
      rw [hbooted.sizeClass_eq, List.find?_eq_none] at hnone
      have hfits := hnone c hc
      rw [decide_eq_true_eq, BitVec.not_lt] at hfits
      exact BitVec.lt_of_le_ne hfits (hne c hc)

/-- A request for 33 bytes is none for a class. -/
theorem chooses_smallest_33 :
    ∃ h, Reachable plainPages h ∧ ChoosesSmallest h 33 := by
  have hrun : (initSlab plainPages ()).map (fun h =>
      h.kmemCaches.tail.all fun c => (h.caches c).size != 33) = .ok true := rfl
  obtain ⟨h, hboot, hall⟩ := map_ok_iff.mp hrun
  have hreachable : Reachable plainPages h := ⟨_, h, [], hboot, .nil⟩
  refine ⟨h, hreachable, (chooses_smallest_iff hreachable).mpr ?_⟩
  exact fun c hc => bne_iff_ne.mp (List.all_eq_true.mp hall c hc)

/-- For 128KB, the largest class, no cache is found. -/
theorem largest_class_panics :
    ¬ ∀ (h : Heap Unit) (size : Uint), Reachable plainPages h →
      ChoosesSmallest h size := by
  intro hall
  have hruns : (do
      let h ← initSlab plainPages ()
      return (sizeClass h 131072, h.kmemCaches.tail, (h.caches 15).size)) =
        .ok (none, List.range' 2 14, 131072) := rfl
  obtain ⟨h, hboot, hret⟩ := bind_ok_iff.mp hruns
  simp only [pure, Except.pure, Except.ok.injEq, Prod.mk.injEq] at hret
  obtain ⟨hnone, htail, hsize⟩ := hret
  have hlt := (hall h 131072 ⟨_, h, [], hboot, .nil⟩).2 hnone 15
    (by rw [htail]; decide)
  rw [hsize] at hlt
  exact absurd hlt (by decide)

end Slab
end OS32
