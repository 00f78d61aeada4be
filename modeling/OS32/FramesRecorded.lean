import OS32.MemoryMap

/-!
# The frames that `init_pages` records

`init_pages` starts a quarter of the kernel image behind 1 MiB, because the
difference of two `uint *` counts words, and it goes on to the end of the entry
or to `MAXSIZE`, whichever a frame begins before.
-/

namespace OS32

namespace MmapEntry

/-- The first byte of the range. -/
def base (entry : MmapEntry) : ℕ :=
  2 ^ 32 * entry.baseAddrHigh.toNat + entry.baseAddrLow.toNat

/-- The bytes of the range. -/
def size (entry : MmapEntry) : ℕ :=
  2 ^ 32 * entry.lengthHigh.toNat + entry.lengthLow.toNat

/-- The end of the range, as `init_pages` computes it from the lower words. -/
def lowEnd (entry : MmapEntry) : Uint := entry.baseAddrLow + entry.lengthLow

end MmapEntry

namespace Pmm

variable {info : BootInfo} {a b length : Uint} {fuel : ℕ} {ptrs : List Uint}
  {s t : Pmm}

/-- The addresses of the recorded frames, in order. -/
def frameAddrs (s : Pmm) : List Uint :=
  (List.range s.phyPageNum).map fun i => s.startAddr (some i)

/-- The frame at `a` lies in a usable range of the memory map. -/
def InUsableRange (info : BootInfo) (a : ℕ) : Prop :=
  ∃ p ∈ stored info, (info.entryAt p).type = 1 ∧
    (info.entryAt p).base ≤ a ∧
    a + 4096 ≤ (info.entryAt p).base + (info.entryAt p).size

/-- The recorded frames may be handed out. -/
structure UsableFrames (info : BootInfo) (s : Pmm) : Prop where
  aligned : ∀ a ∈ s.frameAddrs, a.toNat % 4096 = 0
  usable : ∀ a ∈ s.frameAddrs, InUsableRange info a.toNat
  image : ∀ a ∈ s.frameAddrs, a.toNat + 4096 ≤ 0x100000 ∨
    (info.kernEnd - PAGE_OFFSET).toNat ≤ a.toNat
  direct : ∀ a ∈ s.frameAddrs, a.toNat + 4096 ≤ MAXSIZE.toNat
  disjoint : s.frameAddrs.Pairwise fun a b =>
    a.toNat + 4096 ≤ b.toNat ∨ b.toNat + 4096 ≤ a.toNat

/-! ## The frames of one entry -/

/-- The addresses that the page loop records, from `pageAddr` on. -/
def pageAddrs (length : Uint) : ℕ → Uint → List Uint
  | 0, _ => []
  | fuel + 1, pageAddr =>
      if pageAddr < length ∧ pageAddr ≤ MAXSIZE then
        pageAddr :: pageAddrs length fuel (pageAddr + PGSIZE)
      else []

theorem frameAddrs_recordPage (s : Pmm) (a : Uint) :
    (s.recordPage a).frameAddrs = s.frameAddrs ++ [a] := by
  unfold frameAddrs recordPage
  rw [List.range_succ, List.map_append, List.map_singleton]
  congr 1
  · refine List.map_congr_left ?_
    intro i hi
    have hne : i ≠ s.phyPageNum := (List.mem_range.mp hi).ne
    simp [hne]
  · simp

theorem frameAddrs_recordPages
    (hrun : recordPages fuel a length s = .ok t) :
    t.frameAddrs = s.frameAddrs ++ pageAddrs length fuel a := by
  induction fuel generalizing s a with
  | zero => cases hrun
  | succ fuel ih =>
      rw [recordPages] at hrun
      rw [pageAddrs]
      split at hrun
      next hmore =>
        rw [if_pos hmore]
        split at hrun
        next =>
          rw [ih hrun, frameAddrs_recordPage, List.append_assoc]
          rfl
        next => cases hrun
      next hend =>
        rw [if_neg hend, List.append_nil]
        cases hrun
        rfl

theorem FrameAddr.toNat_next (haddr : FrameAddr a) :
    (a + PGSIZE).toNat = a.toNat + 4096 := by
  have hhigh := haddr.high
  rw [BitVec.toNat_add, PGSIZE]
  exact Nat.mod_eq_of_lt (by simp; omega)

theorem recordPages_ok (haddr : FrameAddr a)
    (hfuel : 0x20001000 < a.toNat + 4096 * fuel)
    (hroom : s.phyPageNum + (pageAddrs length fuel a).length ≤ MAX_PG_NUM) :
    ∃ t, recordPages fuel a length s = .ok t := by
  induction fuel generalizing s a with
  | zero =>
      have hhigh := haddr.high
      omega
  | succ fuel ih =>
      rw [pageAddrs] at hroom
      rw [recordPages]
      by_cases hmore : a < length ∧ a ≤ MAXSIZE
      · rw [if_pos hmore, List.length_cons] at hroom
        rw [if_pos hmore, if_pos (by omega)]
        have hnext := haddr.toNat_next
        refine ih (haddr.next hmore.2) (by omega) ?_
        change s.phyPageNum + 1 + _ ≤ _
        omega
      · rw [if_neg hmore]
        exact ⟨s, rfl⟩

theorem mem_pageAddrs (haddr : FrameAddr a)
    (hfuel : 0x20001000 < a.toNat + 4096 * fuel) :
    b ∈ pageAddrs length fuel a ↔ b.toNat % 4096 = 0 ∧ a.toNat ≤ b.toNat ∧
      b.toNat < length.toNat ∧ b.toNat ≤ 0x20000000 := by
  induction fuel generalizing a with
  | zero =>
      have hhigh := haddr.high
      omega
  | succ fuel ih =>
      have haligned := haddr.aligned
      have hmax : a ≤ MAXSIZE ↔ a.toNat ≤ 0x20000000 := BitVec.le_def
      rw [pageAddrs]
      by_cases hmore : a < length ∧ a ≤ MAXSIZE
      · have hnext := haddr.toNat_next
        have hlt := BitVec.lt_def.mp hmore.1
        have hle := hmax.mp hmore.2
        rw [if_pos hmore, List.mem_cons, ih (haddr.next hmore.2) (by omega),
          ← BitVec.toNat_inj]
        omega
      · rw [if_neg hmore]
        rw [BitVec.lt_def, hmax] at hmore
        constructor
        · exact fun hb => absurd hb List.not_mem_nil
        · omega

theorem pageAddrs_pairwise (haddr : FrameAddr a)
    (hfuel : 0x20001000 < a.toNat + 4096 * fuel) :
    (pageAddrs length fuel a).Pairwise
      fun a b => a.toNat + 4096 ≤ b.toNat := by
  induction fuel generalizing a with
  | zero => exact List.Pairwise.nil
  | succ fuel ih =>
      rw [pageAddrs]
      by_cases hmore : a < length ∧ a ≤ MAXSIZE
      · have hnext := haddr.toNat_next
        have hfuel' : 0x20001000 < (a + PGSIZE).toNat + 4096 * fuel := by omega
        rw [if_pos hmore, List.pairwise_cons]
        refine ⟨?_, ih (haddr.next hmore.2) hfuel'⟩
        intro b hb
        have hle := ((mem_pageAddrs (haddr.next hmore.2) hfuel').mp hb).2.1
        omega
      · rw [if_neg hmore]
        exact List.Pairwise.nil

theorem length_pageAddrs (length : Uint) (fuel : ℕ) (haddr : FrameAddr a) :
    a.toNat + 4096 * (pageAddrs length fuel a).length ≤ 0x20001000 := by
  induction fuel generalizing a with
  | zero => exact haddr.high
  | succ fuel ih =>
      rw [pageAddrs]
      by_cases hmore : a < length ∧ a ≤ MAXSIZE
      · have hnext := haddr.toNat_next
        have htail := ih (haddr.next hmore.2)
        rw [if_pos hmore, List.length_cons]
        omega
      · rw [if_neg hmore]
        exact haddr.high

/-! ## The frames of all entries -/

/-- `init_pages` records a frame of the entry. -/
def Records (info : BootInfo) (entry : MmapEntry) : Prop :=
  entry.type = 1 ∧ entry.baseAddrLow = 0x100000 ∧
    firstFrame info < entry.lowEnd.toNat

instance (info : BootInfo) : DecidablePred (Records info) :=
  fun entry => inferInstanceAs (Decidable (entry.type = 1 ∧
    entry.baseAddrLow = 0x100000 ∧ firstFrame info < entry.lowEnd.toNat))

/-- The addresses that `init_pages` records for an entry. -/
def entryAddrs (info : BootInfo) (entry : MmapEntry) : List Uint :=
  if entry.type = 1 ∧ entry.baseAddrLow = 0x100000 then
    pageAddrs entry.lowEnd walkBound (BitVec.ofNat 32 (firstFrame info))
  else []

theorem recordEntry_eq (info : BootInfo) (entry : MmapEntry) (s : Pmm) :
    recordEntry info entry s =
      if entry.type = 1 ∧ entry.baseAddrLow = 0x100000 then
        recordPages walkBound (BitVec.ofNat 32 (firstFrame info)) entry.lowEnd s
      else .ok s := by
  unfold recordEntry
  split
  next husable =>
    simp only [firstPage_eq info husable.2]
    rfl
  next => rfl

theorem firstFrame_fuel (info : BootInfo) :
    0x20001000 <
      (BitVec.ofNat 32 (firstFrame info)).toNat + 4096 * walkBound := by
  unfold walkBound
  omega

theorem mem_entryAddrs {entry : MmapEntry} (hrecords : Records info entry) :
    b ∈ entryAddrs info entry ↔ b.toNat % 4096 = 0 ∧
      firstFrame info ≤ b.toNat ∧ b.toNat < entry.lowEnd.toNat ∧
      b.toNat ≤ 0x20000000 := by
  obtain ⟨husable, hbase, _⟩ := hrecords
  rw [entryAddrs, if_pos ⟨husable, hbase⟩,
    mem_pageAddrs (firstFrame_frameAddr info) (firstFrame_fuel info),
    toNat_firstFrame]

theorem entryAddrs_of_not_records {entry : MmapEntry}
    (hrecords : ¬ Records info entry) : entryAddrs info entry = [] := by
  unfold entryAddrs
  split
  next husable =>
    refine List.eq_nil_iff_forall_not_mem.mpr ?_
    intro b hb
    rw [mem_pageAddrs (firstFrame_frameAddr info) (firstFrame_fuel info),
      toNat_firstFrame] at hb
    exact hrecords ⟨husable.1, husable.2, by omega⟩
  next => rfl

theorem firstFrame_mem {entry : MmapEntry} (hrecords : Records info entry) :
    BitVec.ofNat 32 (firstFrame info) ∈ entryAddrs info entry := by
  have hle := firstFrame_le info
  have haligned := (firstFrame_frameAddr info).aligned
  rw [toNat_firstFrame] at haligned
  rw [mem_entryAddrs hrecords, toNat_firstFrame]
  exact ⟨haligned, le_refl _, hrecords.2.2, by omega⟩

theorem entryAddrs_pairwise (info : BootInfo) (entry : MmapEntry) :
    (entryAddrs info entry).Pairwise fun a b => a.toNat + 4096 ≤ b.toNat := by
  unfold entryAddrs
  split
  next =>
    exact pageAddrs_pairwise (firstFrame_frameAddr info) (firstFrame_fuel info)
  next => exact List.Pairwise.nil

theorem length_entryAddrs (info : BootInfo) (entry : MmapEntry) :
    (entryAddrs info entry).length ≤ MAX_PG_NUM := by
  unfold entryAddrs
  split
  next =>
    have hlength := length_pageAddrs entry.lowEnd walkBound
      (firstFrame_frameAddr info)
    have hlow := (firstFrame_frameAddr info).low
    unfold MAX_PG_NUM
    omega
  next => exact Nat.zero_le _

theorem frameAddrs_recordEntry {entry : MmapEntry}
    (hrun : recordEntry info entry s = .ok t) :
    t.frameAddrs = s.frameAddrs ++ entryAddrs info entry := by
  rw [recordEntry_eq] at hrun
  unfold entryAddrs
  split at hrun
  next husable =>
    rw [if_pos husable]
    exact frameAddrs_recordPages hrun
  next hother =>
    rw [if_neg hother, List.append_nil]
    cases hrun
    rfl

theorem frameAddrs_recordEntries
    (hrun : ptrs.foldlM (fun s p => recordEntry info (info.entryAt p) s) s =
      .ok t) :
    t.frameAddrs =
      s.frameAddrs ++ ptrs.flatMap fun p => entryAddrs info (info.entryAt p) := by
  induction ptrs generalizing s with
  | nil =>
      cases hrun
      exact (List.append_nil _).symm
  | cons p ptrs ih =>
      rw [List.foldlM_cons] at hrun
      obtain ⟨u, hu, hrest⟩ := bind_ok_iff.mp hrun
      rw [ih hrest, frameAddrs_recordEntry hu, List.flatMap_cons,
        List.append_assoc]

/-- Only entries of which a frame is recorded count. -/
theorem flatMap_entryAddrs (info : BootInfo) (ptrs : List Uint) :
    ptrs.flatMap (fun p => entryAddrs info (info.entryAt p)) =
      (ptrs.filter fun p => Records info (info.entryAt p)).flatMap
        fun p => entryAddrs info (info.entryAt p) := by
  induction ptrs with
  | nil => rfl
  | cons p ptrs ih =>
      rw [List.flatMap_cons, ih, List.filter_cons]
      by_cases hrecords : Records info (info.entryAt p)
      · rw [if_pos (decide_eq_true hrecords), List.flatMap_cons]
      · rw [if_neg (by simpa using hrecords),
          entryAddrs_of_not_records hrecords, List.nil_append]

theorem length_frameAddrs (s : Pmm) :
    s.frameAddrs.length = s.phyPageNum := by
  unfold frameAddrs
  rw [List.length_map, List.length_range]

theorem recordEntry_ok {entry : MmapEntry}
    (hroom : s.phyPageNum + (entryAddrs info entry).length ≤ MAX_PG_NUM) :
    ∃ t, recordEntry info entry s = .ok t := by
  rw [recordEntry_eq]
  unfold entryAddrs at hroom
  split
  next husable =>
    rw [if_pos husable] at hroom
    exact recordPages_ok (firstFrame_frameAddr info) (firstFrame_fuel info)
      hroom
  next => exact ⟨s, rfl⟩

theorem recordEntries_ok
    (hroom : s.phyPageNum +
      (ptrs.flatMap fun p => entryAddrs info (info.entryAt p)).length ≤
        MAX_PG_NUM) :
    ∃ t, ptrs.foldlM (fun s p => recordEntry info (info.entryAt p) s) s =
      .ok t := by
  induction ptrs generalizing s with
  | nil => exact ⟨s, rfl⟩
  | cons p ptrs ih =>
      rw [List.flatMap_cons, List.length_append] at hroom
      have hfirst : s.phyPageNum +
          (entryAddrs info (info.entryAt p)).length ≤ MAX_PG_NUM := by omega
      obtain ⟨u, hu⟩ := recordEntry_ok hfirst
      have hcount := congrArg List.length (frameAddrs_recordEntry hu)
      rw [List.length_append, length_frameAddrs, length_frameAddrs] at hcount
      obtain ⟨t, ht⟩ := ih (s := u) (by omega)
      exact ⟨t, by rw [List.foldlM_cons, hu]; exact ht⟩

/-- At most one entry is recorded, and its frames are usable: the image ends
before them, and whole pages of the table's ranges cover them. -/
def OneUsableRange (info : BootInfo) : Prop :=
  ∃ ptrs, examined info = some ptrs ∧
    ((ptrs.filter fun p => Records info (info.entryAt p)) = [] ∨
      ∃ p, (ptrs.filter fun p => Records info (info.entryAt p)) = [p] ∧
        (info.kernEnd - PAGE_OFFSET).toNat ≤ firstFrame info ∧
        (info.entryAt p).lowEnd.toNat ≤ MAXSIZE.toNat ∧
        ∀ a, a % 4096 = 0 → firstFrame info ≤ a →
          a < (info.entryAt p).lowEnd.toNat → InUsableRange info a)

/-- What a map that leads to usable frames is like. -/
theorem UsableFrames.one_usable_range (ht : UsableFrames info t)
    (hwalk : examined info = some ptrs)
    (haddrs : t.frameAddrs =
      (ptrs.filter fun p => Records info (info.entryAt p)).flatMap
        fun p => entryAddrs info (info.entryAt p)) :
    OneUsableRange info := by
  have hle := firstFrame_le info
  have hlow := (firstFrame_frameAddr info).low
  rw [toNat_firstFrame] at hlow
  refine ⟨ptrs, hwalk, ?_⟩
  have hall : ∀ p ∈ ptrs.filter fun p => Records info (info.entryAt p),
      Records info (info.entryAt p) := fun p hp =>
    of_decide_eq_true (List.mem_filter.mp hp).2
  generalize (ptrs.filter fun p => Records info (info.entryAt p)) = entries at *
  rcases entries with _ | ⟨p, rest⟩
  · exact .inl rfl
  have hp := hall p List.mem_cons_self
  have hfirst := firstFrame_mem hp
  rcases rest with _ | ⟨q, rest⟩
  · rw [List.flatMap_singleton] at haddrs
    have hmem : ∀ a, a % 4096 = 0 → firstFrame info ≤ a →
        a < (info.entryAt p).lowEnd.toNat → a ≤ 0x20000000 →
        BitVec.ofNat 32 a ∈ t.frameAddrs ∧ (BitVec.ofNat 32 a).toNat = a := by
      intro a haligned hfrom hto hmax
      have hsame : (BitVec.ofNat 32 a).toNat = a := by
        rw [BitVec.toNat_ofNat]
        exact Nat.mod_eq_of_lt (by omega)
      rw [haddrs, mem_entryAddrs hp, hsame]
      exact ⟨⟨haligned, hfrom, hto, hmax⟩, rfl⟩
    have hend : (info.entryAt p).lowEnd.toNat ≤ MAXSIZE.toNat := by
      change _ ≤ 0x20000000
      by_contra hbeyond
      -- then a frame is recorded that begins at `MAXSIZE`
      obtain ⟨hlast, hsame⟩ := hmem 0x20000000 (by decide) (by omega)
        (by omega) (le_refl _)
      have hdirect := ht.direct _ hlast
      rw [hsame] at hdirect
      exact absurd hdirect (by decide)
    refine .inr ⟨p, rfl, ?_, hend, ?_⟩
    · have himage := ht.image _ (haddrs ▸ hfirst)
      rw [toNat_firstFrame] at himage
      omega
    · intro a haligned hfrom hto
      have hmax : a ≤ 0x20000000 := by
        change _ ≤ 0x20000000 at hend
        omega
      obtain ⟨hrecorded, hsame⟩ := hmem a haligned hfrom hto hmax
      exact hsame ▸ ht.usable _ hrecorded
  · -- two entries record the same first frame
    have hq := firstFrame_mem (hall q (by simp))
    have htwice := ht.disjoint
    rw [haddrs, List.flatMap_cons, List.flatMap_cons,
      List.pairwise_append] at htwice
    have hoverlap := htwice.2.2 _ hfirst _ (List.mem_append_left _ hq)
    omega

theorem OneUsableRange.usable_frames (hrange : OneUsableRange info)
    (hwalk : examined info = some ptrs)
    (haddrs : t.frameAddrs =
      (ptrs.filter fun p => Records info (info.entryAt p)).flatMap
        fun p => entryAddrs info (info.entryAt p)) :
    UsableFrames info t := by
  obtain ⟨ptrs', hwalk', hentries⟩ := hrange
  rw [hwalk] at hwalk'
  obtain rfl := Option.some.inj hwalk'
  rcases hentries with hnone | ⟨p, hone, himage, hend, hcovered⟩
  · rw [hnone, List.flatMap_nil] at haddrs
    constructor <;> rw [haddrs]
    · exact nofun
    · exact nofun
    · exact nofun
    · exact nofun
    · exact List.Pairwise.nil
  · have hp : Records info (info.entryAt p) := by
      have hmem : p ∈ ptrs.filter fun p => Records info (info.entryAt p) := by
        rw [hone]
        exact List.mem_singleton.mpr rfl
      exact of_decide_eq_true (List.mem_filter.mp hmem).2
    rw [hone, List.flatMap_singleton] at haddrs
    have hframe : ∀ a ∈ t.frameAddrs, a.toNat % 4096 = 0 ∧
        firstFrame info ≤ a.toNat ∧
        a.toNat < (info.entryAt p).lowEnd.toNat ∧ a.toNat ≤ 0x20000000 := by
      intro a ha
      rw [haddrs, mem_entryAddrs hp] at ha
      exact ha
    constructor
    · exact fun a ha => (hframe a ha).1
    · intro a ha
      obtain ⟨haligned, hfrom, hto, _⟩ := hframe a ha
      exact hcovered _ haligned hfrom hto
    · intro a ha
      exact .inr (himage.trans (hframe a ha).2.1)
    · intro a ha
      obtain ⟨haligned, _, hto, _⟩ := hframe a ha
      change _ ≤ 0x20000000 at hend
      change _ ≤ 0x20000000
      omega
    · rw [haddrs]
      exact (entryAddrs_pairwise info _).imp .inl

/-- The frames that `init_pages` records are usable just when the map and the
image are such that it finds one good range, or none. -/
theorem usable_frames_iff (info : BootInfo) (low : Page) :
    (∃ t, initPages info (boot low) = .ok t ∧ UsableFrames info t) ↔
      OneUsableRange info := by
  obtain ⟨ptrs, hwalk⟩ := examined_ends info
  have hrecorded : ∀ t, initPages info (boot low) = .ok t → t.frameAddrs =
      (ptrs.filter fun p => Records info (info.entryAt p)).flatMap
        fun p => entryAddrs info (info.entryAt p) := by
    intro t ht
    rw [initPages_eq hwalk] at ht
    rw [frameAddrs_recordEntries ht, flatMap_entryAddrs]
    rfl
  constructor
  · rintro ⟨t, hpages, ht⟩
    exact ht.one_usable_range hwalk (hrecorded t hpages)
  · intro hrange
    have hroom : (boot low).phyPageNum +
        (ptrs.flatMap fun p => entryAddrs info (info.entryAt p)).length ≤
          MAX_PG_NUM := by
      obtain ⟨ptrs', hwalk', hentries⟩ := hrange
      rw [hwalk] at hwalk'
      obtain rfl := Option.some.inj hwalk'
      rw [flatMap_entryAddrs]
      rcases hentries with hnone | ⟨p, hone, _⟩
      · rw [hnone]
        exact Nat.zero_le _
      · rw [hone, List.flatMap_singleton]
        change 0 + _ ≤ _
        rw [Nat.zero_add]
        exact length_entryAddrs info _
    obtain ⟨t, ht⟩ := recordEntries_ok hroom
    have hpages : initPages info (boot low) = .ok t := by
      rw [initPages_eq hwalk]
      exact ht
    exact ⟨t, hpages, hrange.usable_frames hwalk (hrecorded t hpages)⟩

theorem twoPageImage_high : PAGE_OFFSET ≤ (0xC0100000 : Uint) := by decide

theorem twoPageImage_order : (0xC0100000 : Uint) ≤ 0xC0102000 := by decide

/-- One usable range, and a kernel image of two pages at its start. -/
def twoPageImage : BootInfo where
  mmapAddr := 0x9000
  mmapLength := 24
  entryAt := fun p => if p = 0x9000 then ⟨0x100000, 0, 0x6000, 0, 1⟩ else
    ⟨0, 0, 0, 0, 0⟩
  kernStart := 0xC0100000
  kernEnd := 0xC0102000
  image_high := twoPageImage_high
  image_order := twoPageImage_order

/-- The second page of the kernel image is recorded. -/
theorem image_page_recorded :
    ¬ ∀ (info : BootInfo) (low : Page),
      (∀ p ∈ stored info, (info.entryAt p).base % 4096 = 0) →
      ∃ t, initPages info (boot low) = .ok t ∧ UsableFrames info t := by
  intro hall
  have haligned : ∀ p ∈ stored twoPageImage,
      (twoPageImage.entryAt p).base % 4096 = 0 := by
    intro p _
    unfold twoPageImage
    dsimp only
    split <;> rfl
  obtain ⟨t, hpages, ht⟩ := hall twoPageImage BuddySession.zeroPage haligned
  have hfirst : (initPages twoPageImage (boot BuddySession.zeroPage)).toOption.map
      (fun t => (t.phyPageNum, t.startAddr (some 0))) = some (5, 0x101000) := by
    decide +kernel
  rw [hpages] at hfirst
  obtain ⟨hnum, hstart⟩ := Prod.ext_iff.mp (Option.some.inj hfirst)
  have hmem : (0x101000 : Uint) ∈ t.frameAddrs := by
    have hpos : 0 < t.phyPageNum := by
      change t.phyPageNum = 5 at hnum
      omega
    exact List.mem_map.mpr ⟨0, List.mem_range.mpr hpos, hstart⟩
  exact absurd (ht.image _ hmem) (by decide)

end Pmm

end OS32
