import OS32.BuddyRepresentation

/-!
# What `init_buddy` sets up

`init_pages` records page-aligned frames from 1 MiB on, whatever the memory map
says, and `init_buddy` cuts them into one block for each binary digit of their
number above the lowest.
-/

namespace OS32

open NullList BuddyTable

namespace Pmm

/-! ## `init_pages` -/

/-- An address at which `init_pages` may record a frame, or the first one
behind the last. -/
structure FrameAddr (pageAddr : Uint) : Prop where
  aligned : pageAddr.toNat % 4096 = 0
  low : 0x100000 ≤ pageAddr.toNat
  high : pageAddr.toNat ≤ 0x20001000

theorem FrameAddr.next {pageAddr : Uint} (haddr : FrameAddr pageAddr)
    (hmax : pageAddr ≤ MAXSIZE) : FrameAddr (pageAddr + PGSIZE) := by
  have hlow := haddr.low
  have haligned := haddr.aligned
  have hle : pageAddr.toNat ≤ 0x20000000 := by
    simpa [MAXSIZE] using BitVec.le_def.mp hmax
  have hadd : (pageAddr + PGSIZE).toNat = pageAddr.toNat + 4096 := by
    rw [BitVec.toNat_add, PGSIZE]
    exact Nat.mod_eq_of_lt (by simp; omega)
  constructor <;> rw [hadd] <;> omega

theorem toNat_and_0xfff (a : Uint) : (a &&& 0xfff).toNat = a.toNat % 4096 := by
  rw [BitVec.toNat_and]
  exact Nat.and_two_pow_sub_one_eq_mod a.toNat 12

/-- The first frame behind a quarter of the bytes of the kernel image. -/
def firstFrame (info : BootInfo) : ℕ :=
  0x100000 +
    ((info.kernEnd.toNat - info.kernStart.toNat) / 4 + 4095) / 4096 * 4096

theorem firstFrame_le (info : BootInfo) : firstFrame info ≤ 0x10100000 := by
  have hstart : 0xC0000000 ≤ info.kernStart.toNat := by
    simpa [PAGE_OFFSET] using BitVec.le_def.mp info.image_high
  have hend := info.kernEnd.isLt
  unfold firstFrame
  omega

/-- Where `init_pages` starts to record the frames of an entry. -/
theorem firstPage_eq (info : BootInfo) {base : Uint}
    (hbase : base = 0x100000) :
    let pageAddr := base + (info.kernEnd - info.kernStart) >>> 2
    (if pageAddr &&& 0xfff ≠ 0 then ((pageAddr >>> 12) <<< 12) + PGSIZE
      else pageAddr) = BitVec.ofNat 32 (firstFrame info) := by
  intro pageAddr
  have hle := firstFrame_le info
  have hsize : ((info.kernEnd - info.kernStart) >>> 2).toNat =
      (info.kernEnd.toNat - info.kernStart.toNat) / 4 := by
    rw [BitVec.toNat_ushiftRight, BitVec.toNat_sub_of_le info.image_order,
      Nat.shiftRight_eq_div_pow]
  unfold firstFrame at hle
  have hpage : pageAddr.toNat =
      0x100000 + (info.kernEnd.toNat - info.kernStart.toNat) / 4 := by
    simp only [pageAddr, hbase]
    rw [BitVec.toNat_add, hsize]
    exact Nat.mod_eq_of_lt (by simp; omega)
  have hpgsize : PGSIZE.toNat = 4096 := rfl
  have hmod := toNat_and_0xfff pageAddr
  rw [← BitVec.toNat_inj, BitVec.toNat_ofNat, firstFrame,
    Nat.mod_eq_of_lt (by omega)]
  split
  next hunaligned =>
    have hne : (pageAddr &&& 0xfff).toNat ≠ 0 := fun hzero =>
      hunaligned (BitVec.eq_of_toNat_eq hzero)
    rw [BitVec.toNat_add, BitVec.toNat_shiftLeft, BitVec.toNat_ushiftRight,
      Nat.shiftRight_eq_div_pow, Nat.shiftLeft_eq, hpgsize]
    omega
  next haligned =>
    rw [not_not.mp haligned] at hmod
    change 0 = _ at hmod
    omega

theorem toNat_firstFrame (info : BootInfo) :
    (BitVec.ofNat 32 (firstFrame info)).toNat = firstFrame info := by
  have hle := firstFrame_le info
  rw [BitVec.toNat_ofNat]
  exact Nat.mod_eq_of_lt (by omega)

theorem firstFrame_frameAddr (info : BootInfo) :
    FrameAddr (BitVec.ofNat 32 (firstFrame info)) := by
  have hle := firstFrame_le info
  constructor <;> rw [toNat_firstFrame] <;> unfold firstFrame at * <;> omega

/-- `phy_pages` while `init_pages` fills it. -/
structure Recorded (s : Pmm) : Prop where
  count : s.phyPageNum ≤ MAX_PG_NUM
  frame : ∀ i < s.phyPageNum, FrameAddr (s.startAddr (some i))
  unused : ∀ i, s.phyPageNum ≤ i → s.startAddr (some i) = 0
  refNum : ∀ i, s.refNum (some i) = 0

theorem boot_recorded (low : Page) : (boot low).Recorded := by
  constructor <;> simp [boot]

theorem Recorded.recordPage {s : Pmm} (hs : s.Recorded)
    (hroom : s.phyPageNum < MAX_PG_NUM) {pageAddr : Uint}
    (haddr : FrameAddr pageAddr) : (s.recordPage pageAddr).Recorded := by
  constructor
  · exact hroom
  · intro i hi
    rcases Nat.lt_succ_iff_lt_or_eq.mp hi with hlt | rfl
    · simpa [Pmm.recordPage, hlt.ne] using hs.frame i hlt
    · simpa [Pmm.recordPage] using haddr
  · intro i hi
    have hlt : s.phyPageNum < i := hi
    simpa [Pmm.recordPage, hlt.ne'] using hs.unused i hlt.le
  · intro i
    by_cases hi : i = s.phyPageNum
    · simp [Pmm.recordPage, hi]
    · simpa [Pmm.recordPage, hi] using hs.refNum i

theorem Recorded.recordPages {s t : Pmm} (hs : s.Recorded) {fuel : ℕ}
    {pageAddr length : Uint} (haddr : FrameAddr pageAddr)
    (hrun : recordPages fuel pageAddr length s = .ok t) : t.Recorded := by
  induction fuel generalizing s pageAddr with
  | zero => simp [Pmm.recordPages] at hrun
  | succ fuel ih =>
      rw [Pmm.recordPages] at hrun
      split at hrun
      next hmore =>
        split at hrun
        next hroom =>
          exact ih (hs.recordPage hroom haddr) (haddr.next hmore.2) hrun
        next => cases hrun
      next =>
        cases hrun
        exact hs

theorem Recorded.recordEntry {s t : Pmm} (hs : s.Recorded)
    {info : BootInfo} {entry : MmapEntry}
    (hrun : recordEntry info entry s = .ok t) : t.Recorded := by
  unfold Pmm.recordEntry at hrun
  split at hrun
  next husable =>
    simp only [firstPage_eq info husable.2] at hrun
    exact hs.recordPages (firstFrame_frameAddr info) hrun
  next =>
    cases hrun
    exact hs

theorem Recorded.recordEntries {s t : Pmm} (hs : s.Recorded)
    {info : BootInfo} {mmapEndAddr : Uint} {fuel : ℕ} {mapEntry : Uint}
    (hrun : recordEntries info mmapEndAddr fuel mapEntry s = .ok t) :
    t.Recorded := by
  induction fuel generalizing s mapEntry with
  | zero => simp [Pmm.recordEntries] at hrun
  | succ fuel ih =>
      rw [Pmm.recordEntries] at hrun
      split at hrun
      next =>
        cases hentry : Pmm.recordEntry info (info.entryAt mapEntry) s with
        | error => simp [hentry, Except.bind] at hrun
        | ok u =>
            simp only [hentry, Except.bind] at hrun
            exact ih (hs.recordEntry hentry) hrun
      next =>
        cases hrun
        exact hs

/-! ## Linking one block -/

/-- A fresh node behind the last one of a list. -/
theorem chain_concat {links : Links ℕ} {p : PagePtr} {l : List ℕ} {y x : ℕ}
    (hchain : links.Chain none p (l ++ [y])) (hx : x ∉ l ++ [y]) :
    ((links.join (some y) (some x)).setNext (some x) none).Chain none p
      (l ++ [y] ++ [x]) := by
  have hyx : y ≠ x := by
    rintro rfl
    exact hx (by simp)
  have hkept : (links.setNext (some x) none).Chain none p (l ++ [y]) := by
    refine hchain.setNext none ?_
    rintro a ha heq
    obtain rfl := Option.some.inj heq
    exact hx ha
  have hsingle : (links.setNext (some x) none).Chain
      (links.prev (some x)) (some x) [x] := by simp
  have hjoin := hkept.join hsingle (by
    intro a ha
    rw [List.mem_singleton]
    rintro rfl
    exact hx ha)
  have hswap : (links.setNext (some x) none).join (some y) (some x) =
      (links.join (some y) (some x)).setNext (some x) none := by
    simp only [Links.join, Links.setNext, Links.setPrev]
    rw [Function.update_comm (by simpa using hyx.symm)]
  rwa [← hswap]

/-- The page loop of `init_buddy` links the frames of one block in order. -/
theorem linkPages_spec (s : Pmm) (idx start m : ℕ) :
    let t := (List.range (m + 1)).foldl (linkPage idx start) s
    t.links.Chain none (some start) (List.range' start (m + 1)) ∧
      SameOff {a | start ≤ a} s t ∧
      t.pageBlkList = Function.update s.pageBlkList idx (some start) ∧
      t.blkNum = s.blkNum := by
  induction m with
  | zero =>
      refine ⟨?_, .of_links ?_ rfl rfl rfl rfl rfl, rfl, rfl⟩
      · simp [linkPage]
      · refine (Links.agreeOff_setNext s.links none ?_).trans
          (Links.agreeOff_setPrev _ none ?_) <;>
        · rintro a ha
          obtain rfl := Option.some.inj ha
          exact Set.mem_ofPred_eq ▸ le_refl _
  | succ m ih =>
      obtain ⟨hchain, hsame, hlist, hnum⟩ := ih
      rw [List.range_succ, List.foldl_append]
      generalize (List.range (m + 1)).foldl (linkPage idx start) s = t at *
      have hsplit : List.range' start (m + 1) =
          List.range' start m ++ [start + m] := by
        simp [List.range'_concat]
      have hlast : List.range' start (m + 1 + 1) =
          List.range' start m ++ [start + m] ++ [start + (m + 1)] := by
        rw [← hsplit]
        simp [List.range'_concat]
      have hsub : start + (m + 1) - 1 = start + m := by omega
      simp only [List.foldl_cons, List.foldl_nil, linkPage,
        Nat.add_eq_zero_iff, one_ne_zero, and_false, if_false, hsub]
      refine ⟨?_, hsame.trans (.of_links ?_ rfl rfl rfl rfl rfl), hlist,
        hnum⟩
      · rw [hlast]
        rw [hsplit] at hchain
        refine chain_concat hchain ?_
        simp [List.mem_range']
      · refine Links.AgreeOff.trans (Links.agreeOff_join t.links ?_ ?_)
          (Links.agreeOff_setNext _ none ?_) <;>
        · rintro a ha
          obtain rfl := Option.some.inj ha
          rw [Set.mem_ofPred_eq]
          omega

/-! ## Cutting the frames into blocks -/

/-- The number of frames `init_buddy` places: an odd frame is left over. -/
def placed (n : ℕ) : ℕ := if n < 2 then 1 else n - n % 2

/-- The orders `init_buddy` fills hold one run of frames each. -/
def Consecutive (free : Table ℕ) : Prop :=
  ∀ k < 17, free k = [] ∨ ∃ start, free k = List.range' start (2 ^ k)

theorem log2_eq_zero_iff {x : ℕ} (hx : x < 2 ^ 32) : log2 x = 0 ↔ x < 2 := by
  rw [log2_eq hx, Nat.log_eq_zero_iff]
  simp

/-- One turn of the loop of `init_buddy`. -/
theorem Represents.link_block {s : Pmm} {free : Table ℕ}
    (hs : s.Represents free) {idx start : ℕ} (hidx : idx < 17)
    (hfree : free idx = []) (hlt : ∀ a ∈ frames 17 free, a < start)
    (hroom : start + 2 ^ idx ≤ MAX_PG_NUM) :
    let t := (List.range (2 ^ idx)).foldl (linkPage idx start) s
    (t.addBlkNum idx 1).Represents
        (Function.update free idx (List.range' start (2 ^ idx))) ∧
      SameOff {a | start ≤ a} s (t.addBlkNum idx 1) := by
  intro t
  obtain ⟨m, hm⟩ : ∃ m, 2 ^ idx = m + 1 :=
    ⟨2 ^ idx - 1, by have := Nat.two_pow_pos idx; omega⟩
  have hspec := linkPages_spec s idx start m
  rw [← hm] at hspec
  obtain ⟨hchain, hsame, hlist, hnum⟩ := hspec
  have hfill := frames_fill hidx hfree (List.range' start (2 ^ idx))
  refine ⟨⟨?_, ?_, ?_, ?_⟩,
    hsame.trans (.of_links (.refl _ _) rfl rfl rfl rfl rfl)⟩
  · intro k hk
    by_cases hki : k = idx
    · subst hki
      simpa [t, hlist] using hchain
    · have hkept := hsame.links.chain (l := free k) (fun a ha => by
        have := hlt a (mem_frames.mpr ⟨k, hk, ha⟩)
        rw [Set.mem_ofPred_eq]
        omega) (hs.chain k hk)
      simpa [t, hlist, hki] using hkept
  · intro k hk
    by_cases hki : k = idx
    · subst hki
      have hcount := hs.count k hk
      rw [hfree] at hcount
      have hzero : s.blkNum k = 0 := by simpa using hcount.symm
      simp [t, hnum, hzero]
    · simpa [t, hnum, hki] using hs.count k hk
  · rw [hfill, Multiset.nodup_add]
    refine ⟨hs.nodup, List.nodup_range', ?_⟩
    rw [Multiset.disjoint_left]
    intro a ha hmem
    have := hlt a ha
    rw [Multiset.mem_coe, List.mem_range'_1] at hmem
    omega
  · rw [hfill]
    intro a ha
    rcases Multiset.mem_add.mp ha with ha | ha
    · exact hs.bound a ha
    · rw [Multiset.mem_coe, List.mem_range'_1] at ha
      omega

theorem placed_split {sum idx : ℕ} (hidx : idx = log2 sum)
    (hsum : sum < 2 ^ 17) :
    (log2 (sum - 2 ^ idx) = 0 → placed sum = 2 ^ idx) ∧
      (log2 (sum - 2 ^ idx) ≠ 0 → 2 ≤ sum - 2 ^ idx ∧
        placed sum = 2 ^ idx + placed (sum - 2 ^ idx) ∧
        log2 (sum - 2 ^ idx) < idx) := by
  have hlog : idx = Nat.log 2 sum := by rw [hidx, log2_eq (by omega)]
  have hrestle := Nat.sub_le sum (2 ^ idx)
  have hiff := log2_eq_zero_iff (x := sum - 2 ^ idx) (by omega)
  rcases Nat.lt_or_ge sum 2 with hsmall | hbig
  · have hzero : idx = 0 := by
      rw [hlog]
      exact Nat.log_of_lt hsmall
    subst hzero
    refine ⟨fun _ => by simp [placed, hsmall], fun hne => ?_⟩
    exact absurd (hiff.mpr (by omega)) hne
  · have hle : 2 ^ idx ≤ sum := by
      rw [hlog]
      exact Nat.pow_log_le_self 2 (by omega)
    have hlt : sum < 2 ^ (idx + 1) := by
      rw [hlog]
      exact Nat.lt_pow_succ_log_self (by norm_num) sum
    have hpos : 0 < idx := by
      rw [hlog]
      exact Nat.log_pos (by norm_num) hbig
    have heven : 2 ^ idx % 2 = 0 := by
      obtain ⟨j, rfl⟩ : ∃ j, idx = j + 1 := ⟨idx - 1, by omega⟩
      rw [pow_succ]
      omega
    have hplaced : placed sum = sum - sum % 2 := by
      rw [placed, if_neg (by omega)]
    refine ⟨fun hzero => ?_, fun hne => ?_⟩
    · have := hiff.mp hzero
      rw [hplaced]
      omega
    · have hrest : 2 ≤ sum - 2 ^ idx := by
        by_contra hlt
        exact hne (hiff.mpr (by omega))
      refine ⟨hrest, ?_, ?_⟩
      · rw [hplaced, placed, if_neg (by omega)]
        omega
      · rw [log2_eq (by omega)]
        rw [pow_succ] at hlt
        exact Nat.log_lt_of_lt_pow (by omega) (by omega)

/-- The loop of `init_buddy` adds the next `placed sum` frames to the table. -/
theorem Represents.buildBlks {s : Pmm} {free : Table ℕ}
    (hs : s.Represents free) {fuel sum idx start : ℕ}
    (hidx : idx = log2 sum) (hsum : sum < 2 ^ 17)
    (hempty : ∀ k ≤ idx, free k = [])
    (hlt : ∀ a ∈ frames 17 free, a < start)
    (hroom : start + placed sum ≤ MAX_PG_NUM) (hfuel : idx < fuel)
    (hrows : Consecutive free) :
    ∃ t free', buildBlks fuel s sum idx start = .ok t ∧
      t.Represents free' ∧ Consecutive free' ∧
      frames 17 free' =
        frames 17 free + (List.range' start (placed sum) : Multiset ℕ) ∧
      SameOff {a | start ≤ a} s t := by
  induction fuel generalizing s free sum idx start with
  | zero => omega
  | succ fuel ih =>
      have hlog : idx = Nat.log 2 sum := by rw [hidx, log2_eq (by omega)]
      have hidx17 : idx < 17 := by
        rw [hlog]
        rcases Nat.eq_zero_or_pos sum with rfl | hpos
        · simp
        · exact Nat.log_lt_of_lt_pow (by omega) hsum
      obtain ⟨hstop, hmore⟩ := placed_split hidx hsum
      have hpow : 2 ^ idx ≤ placed sum := by
        by_cases hzero : log2 (sum - 2 ^ idx) = 0
        · exact (hstop hzero).ge
        · have := (hmore hzero).2.1
          omega
      obtain ⟨hrep, hsame⟩ := hs.link_block hidx17
        (hempty idx (le_refl _)) hlt (show start + 2 ^ idx ≤ _ by omega)
      have hfill := frames_fill hidx17 (hempty idx (le_refl _))
        (List.range' start (2 ^ idx))
      have hrows' : Consecutive
          (Function.update free idx (List.range' start (2 ^ idx))) := by
        intro k hk
        by_cases hki : k = idx
        · subst hki
          exact Or.inr ⟨start, by simp⟩
        · simpa [hki] using hrows k hk
      have hindex : checkIndex idx = .ok () := by simp [checkIndex, hidx17]
      simp only [Pmm.buildBlks, hindex, pow2_eq, bind, Except.bind]
      by_cases hzero : log2 (sum - 2 ^ idx) = 0
      · rw [if_pos hzero, hstop hzero]
        exact ⟨_, _, rfl, hrep, hrows', hfill, hsame⟩
      · rw [if_neg hzero]
        obtain ⟨hrest, hplaced, hsmaller⟩ := hmore hzero
        have hrestle := Nat.sub_le sum (2 ^ idx)
        rw [hplaced] at hroom ⊢
        have hempty' : ∀ k ≤ log2 (sum - 2 ^ idx),
            (Function.update free idx (List.range' start (2 ^ idx))) k =
              [] := by
          intro k hk
          rw [Function.update_of_ne (by omega)]
          exact hempty k (by omega)
        have hlt' : ∀ a ∈ frames 17 (Function.update free idx
            (List.range' start (2 ^ idx))), a < start + 2 ^ idx := by
          rw [hfill]
          intro a ha
          rcases Multiset.mem_add.mp ha with ha | ha
          · have := hlt a ha
            omega
          · rw [Multiset.mem_coe, List.mem_range'_1] at ha
            omega
        obtain ⟨t, free', hrun, ht, hrowst, hframes, hsamet⟩ :=
          ih hrep rfl (by omega) hempty' hlt' (by omega) (by omega) hrows'
        refine ⟨t, free', hrun, ht, hrowst, ?_, hsame.trans
          (hsamet.mono fun a ha => ?_)⟩
        · rw [hframes, hfill, add_assoc, Multiset.coe_add,
            List.range'_append_1]
        · rw [Set.mem_ofPred_eq] at ha ⊢
          omega

/-- What every state that `init_buddy` returns looks like. -/
structure Initial (s : Pmm) (free : Table ℕ) : Prop where
  recorded : s.Recorded
  represents : s.Represents free
  consecutive : Consecutive free
  frames_eq : frames 17 free = (List.range (placed s.phyPageNum) : Multiset ℕ)
  lt : s.phyPageNum < 2 ^ 17

theorem Recorded.buildTable_ok {s : Pmm} (hs : s.Recorded)
    (hlt : s.phyPageNum < 2 ^ 17) :
    ∃ t free, buildTable s = .ok t ∧ t.Initial free ∧
      t.phyPageNum = s.phyPageNum := by
  have hempty : Represents
      { s with
        pageBlkList := fun k => if k < 17 then none else s.pageBlkList k
        blkNum := fun k => if k < 17 then 0 else s.blkNum k }
      (fun _ => []) := by
    constructor
    · intro k hk
      simp [hk]
    · intro k hk
      simp [hk]
    · simp [frames]
    · simp [frames]
  have hroom : 0 + placed s.phyPageNum ≤ MAX_PG_NUM := by
    have hmax : MAX_PG_NUM = 2 ^ 17 := rfl
    unfold placed
    split <;> omega
  have hfuel : log2 s.phyPageNum < 31 := by
    rw [log2_eq (by omega)]
    rcases Nat.eq_zero_or_pos s.phyPageNum with hzero | hpos
    · simp [hzero]
    · exact Nat.log_lt_of_lt_pow (by omega) (by omega)
  obtain ⟨t, free, hbuild, hrep, hrows, hframes, hsame⟩ :=
    hempty.buildBlks rfl hlt (fun _ _ => rfl) (by simp [frames]) hroom hfuel
      (fun _ _ => Or.inl rfl)
  have hnum : t.phyPageNum = s.phyPageNum := hsame.phyPageNum
  refine ⟨t, free, hbuild, ⟨⟨?_, ?_, ?_, ?_⟩, hrep, hrows, ?_, by rwa [hnum]⟩,
    hnum⟩
  · rw [hnum]
    exact hs.count
  · rw [hnum, hsame.startAddr]
    exact hs.frame
  · rw [hnum, hsame.startAddr]
    exact hs.unused
  · rw [hsame.refNum]
    exact hs.refNum
  · rw [hframes, hnum, List.range_eq_range']
    simp [frames]

/-- With `2 ^ 17` frames `init_buddy` leaves `buddy_table`. -/
theorem buildBlks_error {fuel sum start : ℕ} {s : Pmm}
    (hsum : sum = 2 ^ 17) :
    buildBlks (fuel + 1) s sum (log2 sum) start = .error (.badIndex 17) := by
  have hlog : log2 sum = 17 := by
    rw [hsum]
    exact log2_two_pow (by norm_num)
  rw [hlog]
  rfl

theorem Recorded.buildTable {s t : Pmm} (hs : s.Recorded)
    (hrun : buildTable s = .ok t) : ∃ free, t.Initial free := by
  rcases Nat.lt_or_eq_of_le hs.count with hlt | heq
  · obtain ⟨u, free, hbuild, hinitial, _⟩ := hs.buildTable_ok hlt
    rw [hrun] at hbuild
    cases hbuild
    exact ⟨free, hinitial⟩
  · unfold Pmm.buildTable at hrun
    simp only at hrun
    rw [buildBlks_error heq] at hrun
    cases hrun

/-- `init_buddy`, on any memory map it accepts. -/
theorem initBuddy_initial {info : BootInfo} {low : Page} {s : Pmm}
    (hinit : initBuddy info (boot low) = .ok s) : ∃ free, s.Initial free := by
  unfold initBuddy initPages at hinit
  cases hpages : recordEntries info (info.mmapAddr + 24 * info.mmapLength)
      walkBound info.mmapAddr (boot low) with
  | error =>
      rw [hpages] at hinit
      cases hinit
  | ok t =>
      rw [hpages] at hinit
      exact ((boot_recorded low).recordEntries hpages).buildTable hinit

end Pmm

end OS32
