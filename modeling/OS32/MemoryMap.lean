import OS32.BuddySession

/-!
# Walks along the memory map

The boot loader leaves `mmap_length` bytes of entries at `mmap_addr`.
`show_pmm_map` compares addresses, and `init_pages` adds `mmap_length` to a
pointer to entries, so that it goes on for 24 times as many bytes.
-/

namespace OS32

namespace Pmm

variable {info : BootInfo} {stop p : Uint} {fuel : ℕ} {ptrs : List Uint}
  {s t : Pmm}

/-- The pointers of `for (p = start; p < stop; p++)` over entries, ended after
`fuel` turns. -/
def entryPtrs (stop : Uint) : ℕ → Uint → Option (List Uint)
  | 0, _ => none
  | fuel + 1, p =>
      if p < stop then (entryPtrs stop fuel (p + 24)).map (p :: ·)
      else some []

/-- The entries that `init_pages` looks at. -/
def examined (info : BootInfo) : Option (List Uint) :=
  entryPtrs (info.mmapAddr + 24 * info.mmapLength) walkBound info.mmapAddr

/-- The entries in the `mmap_length` bytes from `mmap_addr`. -/
def stored (info : BootInfo) : List Uint :=
  (List.range (info.mmapLength.toNat / 24)).map fun i =>
    info.mmapAddr + 24 * BitVec.ofNat 32 i

/-- The entries that `show_pmm_map` prints. -/
def printed (info : BootInfo) : Option (List Uint) :=
  entryPtrs (info.mmapAddr + info.mmapLength) walkBound info.mmapAddr

/-! ## What a walk goes through -/

theorem entryPtrs_eq (hwalk : entryPtrs stop fuel p = some ptrs) :
    ptrs = (List.range ptrs.length).map (fun i => p + 24 * BitVec.ofNat 32 i) ∧
      (∀ i < ptrs.length, p + 24 * BitVec.ofNat 32 i < stop) ∧
      ¬ p + 24 * BitVec.ofNat 32 ptrs.length < stop := by
  induction fuel generalizing p ptrs with
  | zero => cases hwalk
  | succ fuel ih =>
      unfold entryPtrs at hwalk
      have hzero : p + 24 * BitVec.ofNat 32 0 = p := by bv_omega
      have hnext : ∀ i, p + 24 + 24 * BitVec.ofNat 32 i =
          p + 24 * BitVec.ofNat 32 (i + 1) := by
        intro i
        rw [BitVec.ofNat_add]
        bv_omega
      split at hwalk
      next hmore =>
        obtain ⟨rest, hrest, rfl⟩ := Option.map_eq_some_iff.mp hwalk
        obtain ⟨hlist, hlt, hend⟩ := ih hrest
        simp only [hnext] at hlist hlt hend
        refine ⟨?_, ?_, ?_⟩
        · rw [List.length_cons, List.range_succ_eq_map, List.map_cons, hzero,
            List.map_map]
          exact congrArg (p :: ·) hlist
        · intro i hi
          cases i with
          | zero =>
              rw [hzero]
              exact hmore
          | succ i => exact hlt i (Nat.lt_of_succ_lt_succ hi)
        · exact hend
      next hend =>
        cases hwalk
        refine ⟨rfl, nofun, ?_⟩
        rw [List.length_nil, hzero]
        exact hend

/-- A walk comes to its end if it would meet it. -/
theorem entryPtrs_ends {n : ℕ} (hmeets : p + 24 * BitVec.ofNat 32 n = stop)
    (hfuel : n < fuel) : ∃ ptrs, entryPtrs stop fuel p = some ptrs := by
  induction fuel generalizing p n with
  | zero => omega
  | succ fuel ih =>
      unfold entryPtrs
      by_cases hmore : p < stop
      · rw [if_pos hmore]
        obtain ⟨m, rfl⟩ : ∃ m, n = m + 1 := by
          refine Nat.exists_eq_succ_of_ne_zero ?_
          rintro rfl
          rw [show p + 24 * BitVec.ofNat 32 0 = p by bv_omega] at hmeets
          exact BitVec.lt_irrefl _ (hmeets ▸ hmore)
        obtain ⟨ptrs, hwalk⟩ := ih (p := p + 24) (n := m)
          (by rw [← hmeets, BitVec.ofNat_add]; bv_omega) (by omega)
        exact ⟨p :: ptrs, by rw [hwalk]; rfl⟩
      · exact ⟨[], if_neg hmore⟩

/-- The walk of `init_pages` always ends. -/
theorem examined_ends (info : BootInfo) : ∃ ptrs, examined info = some ptrs := by
  refine entryPtrs_ends (n := info.mmapLength.toNat) ?_ info.mmapLength.isLt
  rw [BitVec.ofNat_toNat, BitVec.setWidth_eq]

theorem recordEntries_eq (hwalk : entryPtrs stop fuel p = some ptrs) (s : Pmm) :
    recordEntries info stop fuel p s =
      ptrs.foldlM (fun s p => recordEntry info (info.entryAt p) s) s := by
  induction fuel generalizing p ptrs s with
  | zero => cases hwalk
  | succ fuel ih =>
      unfold entryPtrs at hwalk
      unfold recordEntries
      split at hwalk
      next hmore =>
        obtain ⟨rest, hrest, rfl⟩ := Option.map_eq_some_iff.mp hwalk
        rw [if_pos hmore, List.foldlM_cons]
        cases recordEntry info (info.entryAt p) s with
        | error fault => rfl
        | ok u => exact ih hrest u
      next hend =>
        cases hwalk
        rw [if_neg hend]
        rfl

/-- `init_pages` does what its walk says. -/
theorem initPages_eq (hwalk : examined info = some ptrs) (s : Pmm) :
    initPages info s =
      ptrs.foldlM (fun s p => recordEntry info (info.entryAt p) s) s :=
  recordEntries_eq hwalk s

/-! ## The entries of the table -/

/-- `init_pages` looks at the entries of the table and at nothing else, as
`show_pmm_map` does. -/
structure WalksTable (info : BootInfo) : Prop where
  examines : examined info = some (stored info)
  prints : printed info = some (stored info)
  independent : ∀ info' : BootInfo, info'.mmapAddr = info.mmapAddr →
    info'.mmapLength = info.mmapLength → info'.kernStart = info.kernStart →
    info'.kernEnd = info.kernEnd →
    (∀ p ∈ stored info, info'.entryAt p = info.entryAt p) →
    ∀ s, initPages info' s = initPages info s

theorem examined_of_empty (hempty : info.mmapLength = 0) :
    examined info = some [] := by
  unfold examined
  rw [hempty]
  change entryPtrs (info.mmapAddr + 24 * 0) (4294967295 + 1) info.mmapAddr = _
  unfold entryPtrs
  rw [if_neg]
  bv_omega

theorem printed_of_empty (hempty : info.mmapLength = 0) :
    printed info = some [] := by
  unfold printed
  rw [hempty]
  change entryPtrs (info.mmapAddr + 0) (4294967295 + 1) info.mmapAddr = _
  unfold entryPtrs
  rw [if_neg]
  bv_omega

theorem stored_length (info : BootInfo) :
    (stored info).length = info.mmapLength.toNat / 24 := by
  unfold stored
  rw [List.length_map, List.length_range]

/-- The walk of `init_pages` goes beyond a table that is not empty. -/
theorem not_examined_stored (hlength : 24 ∣ info.mmapLength.toNat)
    (hne : info.mmapLength ≠ 0) (hprints : printed info = some (stored info)) :
    examined info ≠ some (stored info) := by
  intro hexamines
  obtain ⟨n, hn⟩ := hlength
  have hlt := info.mmapLength.isLt
  have hpos : info.mmapLength.toNat ≠ 0 := by
    rw [Ne, ← BitVec.toNat_inj] at hne
    exact hne
  have hcount : (stored info).length = n := by
    rw [stored_length]
    omega
  obtain ⟨_, hbelow, _⟩ := entryPtrs_eq hprints
  obtain ⟨_, hfirst, hend⟩ := entryPtrs_eq hexamines
  rw [hcount] at hbelow hfirst hend
  -- the table does not wrap around, as the first entry is below its end
  have htable := hbelow 0 (by omega)
  have hlast := hfirst (n - 1) (by omega)
  have haddr := info.mmapAddr.isLt
  rw [BitVec.lt_def, BitVec.toNat_add, BitVec.toNat_add, BitVec.toNat_mul,
    BitVec.toNat_ofNat, hn] at htable
  rw [BitVec.lt_def, BitVec.toNat_add, BitVec.toNat_add, BitVec.toNat_mul,
    BitVec.toNat_mul, BitVec.toNat_ofNat, hn] at hlast
  rw [BitVec.lt_def, BitVec.toNat_add, BitVec.toNat_add, BitVec.toNat_mul,
    BitVec.toNat_mul, BitVec.toNat_ofNat, hn] at hend
  change (_ + 24 * (0 % 4294967296) % 4294967296) % 4294967296 <
    (_ + _) % 4294967296 at htable
  change (_ + 24 * (_ % 4294967296) % 4294967296) % 4294967296 <
    (_ + 24 * (24 * n) % 4294967296) % 4294967296 at hlast
  change ¬ (_ + 24 * (_ % 4294967296) % 4294967296) % 4294967296 <
    (_ + 24 * (24 * n) % 4294967296) % 4294967296 at hend
  generalize info.mmapAddr.toNat = a at *
  have hinside : a + 24 * n < 4294967296 := by omega
  rw [Nat.mod_eq_of_lt (a := n - 1) (by omega),
    Nat.mod_eq_of_lt (a := 24 * (n - 1)) (by omega),
    Nat.mod_eq_of_lt (a := a + 24 * (n - 1)) (by omega)] at hlast
  rw [Nat.mod_eq_of_lt (a := n) (by omega),
    Nat.mod_eq_of_lt (a := 24 * n) (by omega),
    Nat.mod_eq_of_lt (a := a + 24 * n) hinside] at hend
  obtain ⟨turns, hturns⟩ : ∃ turns, a + 576 * n = 4294967296 * turns +
      (a + 24 * (24 * n) % 4294967296) % 4294967296 :=
    ⟨(a + 576 * n) / 4294967296, by omega⟩
  -- 552 bytes an entry would have to be lost to wrapping around
  have hfew : turns < 24 := by omega
  interval_cases turns <;> omega

/-- The walk is confined to the table just when the table is empty. -/
theorem walks_table_iff (hlength : 24 ∣ info.mmapLength.toNat) :
    WalksTable info ↔ info.mmapLength = 0 := by
  constructor
  · rintro ⟨hexamines, hprints, _⟩
    by_contra hne
    exact not_examined_stored hlength hne hprints hexamines
  · intro hempty
    have hstored : stored info = [] := by
      rw [← List.length_eq_zero_iff, stored_length, hempty]
      rfl
    refine ⟨?_, ?_, ?_⟩
    · rw [hstored]
      exact examined_of_empty hempty
    · rw [hstored]
      exact printed_of_empty hempty
    · intro info' _ hlen _ _ _ s
      rw [initPages_eq (examined_of_empty hempty),
        initPages_eq (examined_of_empty (hlen.trans hempty))]
      rfl

/-- A table without entries. -/
theorem walks_empty_table :
    24 ∣ { BuddySession.frameMap 1 with mmapLength := 0 }.mmapLength.toNat ∧
      WalksTable { BuddySession.frameMap 1 with mmapLength := 0 } :=
  ⟨by decide, (walks_table_iff (by decide)).mpr rfl⟩

/-- A table with one entry, of which `init_pages` reads 24. -/
theorem one_entry_read_24_times :
    ¬ ∀ info : BootInfo, 24 ∣ info.mmapLength.toNat → WalksTable info := by
  intro hall
  have hwalk := hall { BuddySession.frameMap 1 with mmapLength := 24 } (by decide)
  exact not_examined_stored (by decide) (by decide) hwalk.prints hwalk.examines

end Pmm

end OS32
