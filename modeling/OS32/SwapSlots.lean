import OS32.FramesRecorded
import OS32.SwapData

/-!
# The slots on the swap disk

`swap_out` and `swap_in` take the sectors of a frame from its address alone, and
`tmpide.c` has a buffer of `MAX_DISK_NSECS` sectors for them.
-/

namespace OS32

open Transition Vm Pmm SwapData

def MAX_DISK_NSECS : ℕ := 5000

namespace Io

variable {r q : Io} {a b : Uint}

def secStart : Io → Uint
  | .write _ s _ _ => s
  | .read _ s _ _ => s

def secNum : Io → Uint
  | .write _ _ _ n => n
  | .read _ _ _ n => n

/-- `iobase` of `ide_read_secs` and `ide_write_secs`. -/
def iobase (r : Io) : Uint := r.secStart * SECTSIZE

/-- The bytes of the sectors of a request. -/
def bytes (r : Io) : Set ℕ :=
  Set.Ico (r.secStart.toNat * SECTSIZE.toNat)
    ((r.secStart.toNat + r.secNum.toNat) * SECTSIZE.toNat)

/-- `swap_out` or `swap_in` makes the request for the frame at `a`. -/
def OfFrame (a : Uint) (r : Io) : Prop :=
  ∃ va, r = writeRequest a va ∨ r = readRequest a va

theorem OfFrame.sectors (hr : r.OfFrame a) :
    r.secStart = OS32.secStart a ∧ r.secNum = PAGE_NSECT := by
  rcases hr with ⟨va, rfl | rfl⟩
  · exact ⟨rfl, rfl⟩
  · exact ⟨rfl, rfl⟩

end Io

/-- The bytes of `ide`. -/
def ide : Set ℕ := Set.Iio (MAX_DISK_NSECS * SECTSIZE.toNat)

/-- The requests for the frame at `a` stay on the disk, and no other recorded
frame shares a byte with it. -/
structure SlotFits (s : Pmm) (a : Uint) : Prop where
  no_overflow : ∀ r : Io, r.OfFrame a →
    r.iobase.toNat = r.secStart.toNat * SECTSIZE.toNat ∧
    (r.iobase + r.secNum * SECTSIZE).toNat =
      (r.secStart.toNat + r.secNum.toNat) * SECTSIZE.toNat
  inside : ∀ r : Io, r.OfFrame a → r.bytes ⊆ ide
  disjoint : ∀ b ∈ s.frameAddrs, b ≠ a → ∀ r q : Io, r.OfFrame a →
    q.OfFrame b → ∀ i ∈ r.bytes, i ∉ q.bytes

namespace SwapSlots

variable {info : BootInfo} {low : Page} {s : Pmm} {a b : Uint} {r q : Io}

/-! ## Recorded frames -/

theorem frame_bounds (hpages : initPages info (boot low) = .ok s)
    (ha : a ∈ s.frameAddrs) : Aligned a ∧ a.toNat ≤ 0x20000000 := by
  obtain ⟨ptrs, hwalk⟩ := examined_ends info
  rw [initPages_eq hwalk] at hpages
  rw [frameAddrs_recordEntries hpages, flatMap_entryAddrs] at ha
  rcases List.mem_append.mp ha with hnone | hrecorded
  · exact absurd hnone List.not_mem_nil
  · obtain ⟨p, hp, hframe⟩ := List.mem_flatMap.mp hrecorded
    have hrecords := of_decide_eq_true (List.mem_filter.mp hp).2
    rw [mem_entryAddrs hrecords] at hframe
    exact ⟨hframe.1, hframe.2.2.2⟩

/-! ## The bytes of a frame's requests -/

theorem bytes_eq (ha : Aligned a) (hr : r.OfFrame a) :
    r.bytes = Set.Ico a.toNat (a.toNat + 4096) := by
  obtain ⟨hstart, hnum⟩ := hr.sectors
  have hsectors : PAGE_NSECT.toNat = 8 ∧ SECTSIZE.toNat = 512 := by decide
  unfold Aligned at ha
  unfold Io.bytes
  rw [hstart, hnum, toNat_secStart, hsectors.1, hsectors.2]
  congr 1 <;> omega

theorem no_overflow (ha : a.toNat ≤ 0x20000000) (hr : r.OfFrame a) :
    r.iobase.toNat = r.secStart.toNat * SECTSIZE.toNat ∧
      (r.iobase + r.secNum * SECTSIZE).toNat =
        (r.secStart.toNat + r.secNum.toNat) * SECTSIZE.toNat := by
  obtain ⟨hstart, hnum⟩ := hr.sectors
  have hsectors : (PAGE_NSECT * SECTSIZE).toNat = 4096 ∧
      PAGE_NSECT.toNat = 8 ∧ SECTSIZE.toNat = 512 := by decide
  have hbase : r.iobase.toNat = a.toNat / 4096 * 8 * 512 := by
    unfold Io.iobase
    rw [hstart, BitVec.toNat_mul, toNat_secStart, hsectors.2.2]
    omega
  rw [BitVec.toNat_add, hbase, hnum, hstart, toNat_secStart, hsectors.1,
    hsectors.2.1, hsectors.2.2]
  omega

theorem bytes_disjoint (ha : Aligned a) (hb : Aligned b) (hne : b ≠ a)
    (hr : r.OfFrame a) (hq : q.OfFrame b) : ∀ i ∈ r.bytes, i ∉ q.bytes := by
  have hapart : b.toNat ≠ a.toNat := fun h => hne (BitVec.toNat_inj.mp h)
  rw [bytes_eq ha hr, bytes_eq hb hq]
  unfold Aligned at ha hb
  intro i hi hi'
  rw [Set.mem_Ico] at hi hi'
  omega

theorem inside_iff (ha : Aligned a) :
    (∀ r : Io, r.OfFrame a → r.bytes ⊆ ide) ↔ a.toNat < 0x271000 := by
  have hsize : ide = Set.Iio 0x271000 := rfl
  rw [hsize]
  unfold Aligned at ha
  constructor
  · intro hinside
    have hslot := hinside (writeRequest a 0) ⟨0, .inl rfl⟩
    rw [bytes_eq ha ⟨0, .inl rfl⟩] at hslot
    exact hslot ⟨le_refl _, by omega⟩
  · intro hlow r hr i hi
    rw [bytes_eq ha hr, Set.mem_Ico] at hi
    rw [Set.mem_Iio]
    omega

/-- The disk has slots for the frames below 2500 KiB only. -/
theorem slotFits_iff (hpages : initPages info (boot low) = .ok s)
    (ha : a ∈ s.frameAddrs) : SlotFits s a ↔ a.toNat < 0x271000 := by
  obtain ⟨haligned, hmax⟩ := frame_bounds hpages ha
  constructor
  · exact fun hfits => (inside_iff haligned).mp hfits.inside
  · intro hlow
    constructor
    · exact fun r => no_overflow hmax
    · exact (inside_iff haligned).mpr hlow
    · intro b hb hne r q
      exact bytes_disjoint haligned (frame_bounds hpages hb).1 hne

/-! ## Memory from 1 MiB on -/

theorem frameMap_recorded {n : ℕ} (hn : n ≤ 2 ^ 17) (ha : Aligned a)
    (hlow : 0x100000 ≤ a.toNat) (hhigh : a.toNat < 0x100000 + 4096 * n)
    (hmax : a.toNat ≤ 0x20000000) :
    ∃ s, initPages (BuddySession.frameMap n) (boot low) = .ok s ∧
      a ∈ s.frameAddrs := by
  have hwalk : examined (BuddySession.frameMap n) = some [0x9000] := by
    change entryPtrs (0x9000 + 24 * 1) (4294967294 + 1 + 1) 0x9000 = _
    unfold entryPtrs
    rw [if_pos (by decide), entryPtrs, if_neg (by decide)]
    rfl
  have hfirst : firstFrame (BuddySession.frameMap n) = 0x100000 := by
    change firstFrame (BuddySession.frameMap 0) = 0x100000
    decide
  have hend : ((BuddySession.frameMap n).entryAt 0x9000).lowEnd.toNat =
      0x100000 + 4096 * n := by
    change (0x100000 + BitVec.ofNat 32 (4096 * n) : Uint).toNat = _
    rw [BitVec.toNat_add, BitVec.toNat_ofNat]
    change (1048576 + 4096 * n % 4294967296) % 4294967296 = _
    omega
  have hrecords : Records (BuddySession.frameMap n)
      ((BuddySession.frameMap n).entryAt 0x9000) := by
    refine ⟨rfl, rfl, ?_⟩
    rw [hfirst, hend]
    omega
  have hroom : (boot low).phyPageNum + ([0x9000].flatMap fun p =>
      entryAddrs (BuddySession.frameMap n)
        ((BuddySession.frameMap n).entryAt p)).length ≤ MAX_PG_NUM := by
    rw [List.flatMap_singleton]
    change 0 + _ ≤ _
    rw [Nat.zero_add]
    exact length_entryAddrs _ _
  obtain ⟨s, hs⟩ := recordEntries_ok hroom
  refine ⟨s, (initPages_eq hwalk _).trans hs, ?_⟩
  rw [frameAddrs_recordEntries hs, List.flatMap_singleton]
  refine List.mem_append_right _ ((mem_entryAddrs hrecords).mpr ?_)
  rw [hfirst, hend]
  exact ⟨ha, hlow, hhigh, hmax⟩

theorem first_slot_fits :
    ∃ s, initPages (BuddySession.frameMap 6) (boot BuddySession.zeroPage) =
        .ok s ∧ 0x100000 ∈ s.frameAddrs ∧ SlotFits s 0x100000 := by
  obtain ⟨s, hpages, hmem⟩ := frameMap_recorded (n := 6) (a := 0x100000)
    (by decide) (by unfold Aligned; decide) (by decide) (by decide) (by decide)
  exact ⟨s, hpages, hmem, (slotFits_iff hpages hmem).mpr (by decide)⟩

/-- With 400 frames the last ones are behind the end of the disk. -/
theorem slot_behind_disk :
    ¬ ∀ s, initPages (BuddySession.frameMap 400) (boot BuddySession.zeroPage) =
      .ok s → ∀ a ∈ s.frameAddrs, SlotFits s a := by
  intro hall
  have haligned : Aligned 0x271000 := by
    unfold Aligned
    decide
  obtain ⟨s, hpages, hmem⟩ := frameMap_recorded (n := 400) (by decide) haligned
    (by decide) (by decide) (by decide)
  have hlow := (inside_iff haligned).mp (hall s hpages _ hmem).inside
  exact absurd hlow (by decide)

end SwapSlots
end OS32
