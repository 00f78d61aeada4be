import OS32.BuddySession
import Mathlib.Data.BitVec

/-!
# Physical contiguity of blocks

The test of `FindBuddy` does not compare the two blocks, so `free_buddy` merges
blocks that are not neighbours and a later allocation hands out a block with a
gap.  As long as every merge joins two neighbours in the order `BlendBlk` links
them, all blocks stay contiguous.
-/

namespace OS32

open NullList BuddyTable Transition

namespace BuddySession

/-! ## Contiguous blocks -/

/-- The start addresses of the frames `l` go up from `base` page by page. -/
def ContigFrom (s : Pmm) : Uint → List ℕ → Prop
  | _, [] => True
  | base, a :: l => s.startAddr (some a) = base ∧ ContigFrom s (base + PGSIZE) l

instance decidableContigFrom (s : Pmm) :
    (base : Uint) → (l : List ℕ) → Decidable (ContigFrom s base l)
  | _, [] => inferInstanceAs (Decidable True)
  | base, _ :: l =>
      have := decidableContigFrom s (base + PGSIZE) l
      inferInstanceAs (Decidable (_ ∧ _))

def Contiguous (s : Pmm) (l : List ℕ) : Prop := ∃ base, ContigFrom s base l

section Contig

variable {s t : Pmm} {base : Uint} {l l₁ l₂ : List ℕ}

theorem next_addr (base : Uint) (n : ℕ) :
    base + PGSIZE + BitVec.ofNat 32 n * PGSIZE =
      base + BitVec.ofNat 32 (n + 1) * PGSIZE := by
  rw [BitVec.ofNat_add, show BitVec.ofNat 32 1 = (1 : Uint) from rfl]
  ring

theorem contigFrom_append :
    ContigFrom s base (l₁ ++ l₂) ↔
      ContigFrom s base l₁ ∧
        ContigFrom s (base + BitVec.ofNat 32 l₁.length * PGSIZE) l₂ := by
  induction l₁ generalizing base with
  | nil => simp [ContigFrom]
  | cons a l₁ ih =>
      simp only [List.cons_append, ContigFrom, ih, next_addr, and_assoc,
        List.length_cons]

theorem ContigFrom.congr (hl : ContigFrom s base l)
    (hstart : t.startAddr = s.startAddr) : ContigFrom t base l := by
  induction l generalizing base with
  | nil => trivial
  | cons a l ih => exact ⟨by rw [hstart, hl.1], ih hl.2⟩

theorem Contiguous.congr (hl : Contiguous s l)
    (hstart : t.startAddr = s.startAddr) : Contiguous t l :=
  hl.imp fun _ hbase => hbase.congr hstart

theorem ContigFrom.getElem (hl : ContigFrom s base l) {i : ℕ}
    (hi : i < l.length) :
    s.startAddr (some l[i]) = base + BitVec.ofNat 32 i * PGSIZE := by
  induction l generalizing base i with
  | nil => simp at hi
  | cons a l ih =>
      cases i with
      | zero => simpa using hl.1
      | succ i =>
          rw [List.getElem_cons_succ, ih hl.2 (by simpa using hi), next_addr]

/-- A block that is contiguous from anywhere is so from its head. -/
theorem Contiguous.from_head (hl : Contiguous s l) (hne : l ≠ []) :
    ContigFrom s (s.startAddr l.head?) l := by
  obtain ⟨a, l, rfl⟩ := List.exists_cons_of_ne_nil hne
  obtain ⟨base, hbase⟩ := hl
  rw [List.head?_cons, hbase.1]
  exact hbase

end Contig

/-- A list of blocks of `size` frames, each contiguous. -/
inductive Rows (s : Pmm) (size : ℕ) : List ℕ → Prop
  | nil : Rows s size []
  | cons {b l : List ℕ} (hlength : b.length = size)
      (hcontig : Contiguous s b) (hrows : Rows s size l) : Rows s size (b ++ l)

section Rows

variable {s t : Pmm} {size : ℕ}

theorem Rows.congr {l : List ℕ} (hl : Rows s size l)
    (hstart : t.startAddr = s.startAddr) : Rows t size l := by
  induction hl with
  | nil => exact .nil
  | cons hlength hcontig _ ih => exact .cons hlength (hcontig.congr hstart) ih

theorem rows_single {b : List ℕ} (hlength : b.length = size)
    (hcontig : Contiguous s b) : Rows s size b := by
  simpa using Rows.cons hlength hcontig .nil

theorem Rows.split {b l : List ℕ} (hrows : Rows s size (b ++ l))
    (hlength : b.length = size) (hpos : 0 < size) :
    Contiguous s b ∧ Rows s size l := by
  generalize hsum : b ++ l = whole at hrows
  cases hrows with
  | nil =>
      have hb := (List.append_eq_nil_iff.mp hsum).1
      simp [hb] at hlength
      omega
  | cons hlength' hcontig hrest =>
      obtain ⟨rfl, rfl⟩ :=
        List.append_inj hsum (hlength.trans hlength'.symm)
      exact ⟨hcontig, hrest⟩

/-- Every free list is made of contiguous blocks. -/
def RowsTable (s : Pmm) (free : Table ℕ) : Prop :=
  ∀ k < 17, Rows s (2 ^ k) (free k)

theorem RowsTable.update {free : Table ℕ} (hfree : RowsTable s free) {k : ℕ}
    {l : List ℕ} (hl : Rows s (2 ^ k) l) :
    RowsTable s (Function.update free k l) := by
  intro j hj
  by_cases hjk : j = k
  · subst hjk
    simpa using hl
  · simpa [hjk] using hfree j hj

theorem RowsTable.congr {free : Table ℕ} (hfree : RowsTable s free)
    (hstart : t.startAddr = s.startAddr) : RowsTable t free :=
  fun k hk => (hfree k hk).congr hstart

/-- A block taken out of a table of contiguous blocks is contiguous, and so is
what stays. -/
theorem RowsTable.takes {free free' : Table ℕ} {k : ℕ} {blk : List ℕ}
    (hfree : RowsTable s free) (hk : k < 17)
    (htakes : Takes 17 k free blk free') :
    Contiguous s blk ∧ RowsTable s free' := by
  cases htakes with
  | @exact _ rest hparts hlength =>
      have hrows := hfree k hk
      rw [hparts] at hrows
      obtain ⟨hcontig, hrest⟩ := hrows.split hlength (Nat.two_pow_pos k)
      exact ⟨hcontig, hfree.update hrest⟩
  | @split i low _ rest hki hi hempty hparts hlow hhigh =>
      have hrows := hfree i hi
      rw [hparts] at hrows
      have hlength : (low ++ blk).length = 2 ^ i := by
        rw [List.length_append, hlow, hhigh, ← two_mul, ← pow_succ']
        congr 1
        omega
      obtain ⟨⟨base, hcontig⟩, hrest⟩ :=
        hrows.split hlength (Nat.two_pow_pos i)
      rw [contigFrom_append] at hcontig
      exact ⟨⟨_, hcontig.2⟩,
        (hfree.update hrest).update (rows_single hlow ⟨base, hcontig.1⟩)⟩

end Rows

/-! ## Merges of neighbours -/

/-- Going up from order `k` as long as there is a free block, the first block of
each list and the block being merged, which starts at `base`, are neighbours in
the order in which `BlendBlk` links them. -/
def mergesAdjacent (s : Pmm) : ℕ → ℕ → Uint → Bool
  | 0, _, _ => true
  | fuel + 1, k, base =>
      let buddyBlk := s.pageBlkList k
      let size := BitVec.ofNat 32 (2 ^ k) * PGSIZE
      if buddyBlk = none then true
      else if s.buddyIsLow buddyBlk (k + 1) then
        base = s.startAddr buddyBlk + size &&
          mergesAdjacent s fuel (k + 1) (s.startAddr buddyBlk)
      else
        s.startAddr buddyBlk = base + size && mergesAdjacent s fuel (k + 1) base

theorem RowsTable.puts {s : Pmm} {free free' : Table ℕ} {k : ℕ}
    {blk : List ℕ} (hputs : Puts s.first k blk free free')
    (hfree : RowsTable s free) (hk : k < 17) {fuel : ℕ} (hfuel : 17 ≤ fuel + k)
    (hheads : ∀ j, k ≤ j → j < 17 → s.pageBlkList j = (free j).head?)
    {base : Uint} (hblk : ContigFrom s base blk) (hlength : blk.length = 2 ^ k)
    (hcard : (frames 17 free + (blk : Multiset ℕ)).card < 2 ^ 17)
    (hadjacent : mergesAdjacent s fuel k base = true) :
    RowsTable s free' := by
  induction hputs generalizing fuel base with
  | rest _ => exact hfree.update (rows_single hlength ⟨base, hblk⟩)
  | @merge k blk buddy rest free free' hparts hbuddy _ ih =>
      have hnext := merge_order_lt hk hlength hparts hbuddy hcard
      have hbuddyne := ne_nil_of_length_eq_pow hbuddy
      have hrows := hfree k hk
      rw [hparts] at hrows
      obtain ⟨hcontig, hrest⟩ := hrows.split hbuddy (Nat.two_pow_pos k)
      have hfrom := hcontig.from_head hbuddyne
      have hhead : s.pageBlkList k = buddy.head? := by
        rw [hheads k (le_refl k) hk, hparts,
          List.head?_append_of_ne_nil _ hbuddyne]
      have hsome : buddy.head? ≠ none := by
        rwa [ne_eq, List.head?_eq_none_iff]
      have hheads' : ∀ j, k + 1 ≤ j → j < 17 →
          s.pageBlkList j = (Function.update free k rest j).head? := by
        intro j hkj hj
        rw [Function.update_of_ne (by omega), hheads j (by omega) hj]
      have hlength' : (blend s.first k buddy blk).length = 2 ^ (k + 1) := by
        rw [blend_length, hbuddy, hlength, pow_succ]
        ring
      have hcard' : (frames 17 (Function.update free k rest) +
          (blend s.first k buddy blk : Multiset ℕ)).card < 2 ^ 17 := by
        rwa [frames_merge hk s.first blk hparts]
      obtain ⟨fuel, rfl⟩ : ∃ m, fuel = m + 1 := ⟨fuel - 1, by omega⟩
      have hfuel' : 17 ≤ fuel + (k + 1) := by omega
      simp only [mergesAdjacent, hhead, hsome, if_false] at hadjacent
      by_cases hlow : s.buddyIsLow buddy.head? (k + 1) = true
      · have hblend : blend s.first k buddy blk = buddy ++ blk := by
          simp [blend, Pmm.first, hlow]
        rw [if_pos hlow, Bool.and_eq_true, decide_eq_true_eq] at hadjacent
        refine ih (hfree.update hrest) hnext hfuel' hheads' ?_ hlength'
          hcard' hadjacent.2
        rw [hblend, contigFrom_append, hbuddy, ← hadjacent.1]
        exact ⟨hfrom, hblk⟩
      · have hblend : blend s.first k buddy blk = blk ++ buddy := by
          simp [blend, Pmm.first, hlow]
        rw [if_neg hlow, Bool.and_eq_true, decide_eq_true_eq] at hadjacent
        refine ih (hfree.update hrest) hnext hfuel' hheads' ?_ hlength'
          hcard' hadjacent.2
        rw [hblend, contigFrom_append, hlength, ← hadjacent.1]
        exact ⟨hblk, hfrom⟩

/-! ## Runs -/

/-- What a call has to meet so that no merge joins blocks which are not
neighbours. -/
def careful (s : State) : Call → Bool
  | .free pgBlk =>
      match s.pmm.countPages pgBlk with
      | .ok pgNum =>
          mergesAdjacent s.pmm 17 (log2 pgNum) (s.pmm.startAddr pgBlk)
      | .error _ => true
  | _ => true

def CarefulStep (s : State) (c : Call) (t : State) : Prop :=
  careful s c = true ∧ Step s c t

/-- The blocks `init_buddy` builds are contiguous, as they are when the frames
come from one usable range. -/
def startsContiguous (s : Pmm) : Bool :=
  (List.range 17).all fun k =>
    match s.pagesFrom (s.pageBlkList k) with
    | .ok pages => ContigFrom s (s.startAddr pages.head?) pages
    | .error _ => true

/-- All blocks, free or held, are contiguous. -/
structure ContigInv (s : State) (free : Table ℕ) (blocks : List (List ℕ)) :
    Prop where
  rows : RowsTable s.pmm free
  held : ∀ b ∈ blocks, Contiguous s.pmm b

section Steps

variable {total : ℕ} {s : State} {free : Table ℕ} {blocks : List (List ℕ)}

theorem ContigInv.call (hs : Inv total s free blocks)
    (hcontig : ContigInv s free blocks) {c : Call} (hlegal : Legal s c)
    (hcareful : careful s c = true) :
    ∃ t free' blocks', BuddySession.call s c = .ok t ∧
      Inv total t free' blocks' ∧ ContigInv t free' blocks' := by
  cases c with
  | alloc memsize =>
      rcases hs.call_alloc hlegal with
        ⟨_, hrun⟩ | ⟨blk, free', t, _, halloc, hrun, ht⟩
      · exact ⟨s, free, blocks, hrun, hs, hcontig⟩
      · have hstart := halloc.same.startAddr
        obtain ⟨hblk, hrows⟩ :=
          hcontig.rows.takes (order_lt hlegal.2) halloc.takes
        refine ⟨_, _, _, hrun, ht, hrows.congr hstart, ?_⟩
        intro b hb
        rcases List.mem_append.mp hb with hb | hb
        · exact (hcontig.held b hb).congr hstart
        · obtain rfl := List.mem_singleton.mp hb
          exact hblk.congr hstart
  | free pgBlk =>
      obtain ⟨before, b, after, k, free', t, rfl, rfl, hk, hlength, hputs,
        hsame, hrun, ht⟩ := hs.call_free hlegal
      have hb : b ∈ before ++ b :: after := by simp
      have hloose := hs.loose hb hlength
      have hcount : s.pmm.countPages b.head? = .ok (2 ^ k) := by
        rw [Pmm.countPages_eq hloose.chain (total_le_of_inv hs hb), hlength]
      have hadjacent := hcareful
      simp only [careful, hcount, log2_two_pow (by omega : k < 32)]
        at hadjacent
      have hheads : ∀ j, k ≤ j → j < 17 →
          s.pmm.pageBlkList j = (free j).head? :=
        fun j _ hj => (hs.represents.chain j hj).head?
      have hrows := hcontig.rows.puts hputs hk (by omega) hheads
        ((hcontig.held b hb).from_head hloose.block_ne_nil) hlength
        hloose.card hadjacent
      refine ⟨_, _, _, hrun, ht, hrows.congr hsame.startAddr, ?_⟩
      intro c hc
      refine (hcontig.held c ?_).congr hsame.startAddr
      rcases List.mem_append.mp hc with hc | hc <;> simp [hc]
  | use page refNum flags va =>
      obtain ⟨t, hrun, ht⟩ := hs.call_use page refNum flags va
      cases hrun
      exact ⟨_, free, blocks, rfl, ht, hcontig.rows.congr rfl,
        fun b hb => (hcontig.held b hb).congr rfl⟩

end Steps

theorem contigInv_of_initial {p : Pmm} {free : Table ℕ} (hp : p.Initial free)
    (hstart : startsContiguous p = true) : ContigInv ⟨p, []⟩ free [] := by
  refine ⟨fun k hk => ?_, by simp⟩
  have hpages : p.pagesFrom (p.pageBlkList k) = .ok (free k) :=
    Pmm.pagesFrom_eq (hp.represents.chain k hk) fun a ha =>
      hp.represents.bound a (mem_frames.mpr ⟨k, hk, ha⟩)
  rcases hp.consecutive k hk with hnil | ⟨start, hblock⟩
  · rw [hnil]
    exact .nil
  · have hall := List.all_eq_true.mp hstart k (List.mem_range.mpr hk)
    simp only [hpages, decide_eq_true_eq] at hall
    refine rows_single ?_ ⟨_, hall⟩
    rw [hblock, List.length_range']

theorem contigInv_of_run {total : ℕ} {s t : State} {calls : List Call}
    (hrun : Run CarefulStep s calls t)
    (hs : ∃ free blocks, Inv total s free blocks ∧ ContigInv s free blocks) :
    ∃ free blocks, Inv total t free blocks ∧ ContigInv t free blocks := by
  refine hrun.invariant (fun s => ∃ free blocks,
    Inv total s free blocks ∧ ContigInv s free blocks) ?_ hs
  rintro s c t ⟨free, blocks, hinv, hcontig⟩ ⟨hcareful, hlegal, hcall⟩
  obtain ⟨u, free', blocks', hu, hinv', hcontig'⟩ :=
    hcontig.call hinv hlegal hcareful
  rw [hcall] at hu
  cases hu
  exact ⟨free', blocks', hinv', hcontig'⟩

/-- In every run that starts from contiguous blocks and merges only neighbours,
every block `alloc_buddy` returns is contiguous. -/
theorem allocBuddy_contiguous {info : BootInfo} {low : Page} {s₀ : Pmm}
    (hinit : Pmm.initBuddy info (.boot low) = .ok s₀)
    (hstart : startsContiguous s₀ = true) {calls : List Call} {s : State}
    (hrun : Run CarefulStep ⟨s₀, []⟩ calls s) {memsize : Uint}
    (hlegal : Legal s (.alloc memsize)) {blk : PagePtr} {t : Pmm}
    (halloc : s.pmm.allocBuddy memsize = .ok ⟨blk, 1, t⟩) :
    ∃ pages, t.pagesFrom blk = .ok pages ∧
      ∀ i (hi : i < pages.length), t.startAddr (some pages[i]) =
        t.startAddr blk + BitVec.ofNat 32 i * PGSIZE := by
  obtain ⟨free₀, hinitial⟩ := Pmm.initBuddy_initial hinit
  obtain ⟨free, blocks, hs, hcontig⟩ := contigInv_of_run hrun
    ⟨free₀, [], inv_of_initial hinitial, contigInv_of_initial hinitial hstart⟩
  rcases hs.call_alloc hlegal with
    ⟨hnone, _⟩ | ⟨pages, free', u, hsome, hallocated, _, ht⟩
  · rw [hnone] at halloc
    cases halloc
  · rw [hsome] at halloc
    cases halloc
    have hblk := (hcontig.rows.takes (order_lt hlegal.2) hallocated.takes).1
    have hfrom := (hblk.congr hallocated.same.startAddr).from_head
      hallocated.takes.block_ne_nil
    exact ⟨pages, Pmm.pagesFrom_eq hallocated.chain
      (total_le_of_inv ht (by simp)), fun i hi => hfrom.getElem hi⟩

def carefulNext (s : State) (c : Call) : Option State :=
  if careful s c = true then next s c else none

theorem carefulStep_of_next {s t : State} {c : Call}
    (hnext : carefulNext s c = some t) : CarefulStep s c t := by
  unfold carefulNext at hnext
  split at hnext
  next hcareful => exact ⟨hcareful, step_of_next hnext⟩
  next => cases hnext

/-- Six frames, two blocks of two pages taken and the second put back: it is the
neighbour of the one it is merged with. -/
theorem contiguous_block_of_six_frames :
    ∃ s₀ s blk t pages,
      Pmm.initBuddy (frameMap 6) (.boot zeroPage) = .ok s₀ ∧
      Run CarefulStep ⟨s₀, []⟩ [.alloc 8, .alloc 8, .free (some 2)] s ∧
      s.pmm.allocBuddy 16 = .ok ⟨blk, 1, t⟩ ∧
      t.pagesFrom blk = .ok pages ∧
      ∀ i (hi : i < pages.length), t.startAddr (some pages[i]) =
        t.startAddr blk + BitVec.ofNat 32 i * PGSIZE := by
  have hstart : (Pmm.initBuddy (frameMap 6) (.boot zeroPage)).toOption.map
      startsContiguous = some true := by decide +kernel
  have htrace : trace carefulNext 6 [.alloc 8, .alloc 8, .free (some 2)]
      (fun s => (s.pmm.allocBuddy 16).toOption.map Pmm.Alloc.flag) = some 1 := by
    decide +kernel
  obtain ⟨s₀, s, hinit, hrun, hlook⟩ :=
    run_of_trace htrace fun _ _ _ => carefulStep_of_next
  obtain ⟨⟨blk, flag, t⟩, halloc, rfl⟩ := Option.map_eq_some_iff.mp hlook
  rw [hinit] at hstart
  have hlegal : Legal s (.alloc 16) := ⟨by decide, by decide⟩
  obtain ⟨pages, hpages, hcontig⟩ := allocBuddy_contiguous hinit
    (Option.some.inj hstart) hrun hlegal (eq_ok_of_toOption halloc)
  exact ⟨s₀, s, blk, t, pages, hinit, hrun, eq_ok_of_toOption halloc, hpages,
    hcontig⟩

/-- If the first of the two blocks is put back instead, it is merged with a
block that is not its neighbour, and the next request for four pages gets
frames 0, 1, 4 and 5. -/
theorem split_block_of_six_frames :
    ∃ s₀ s t, Pmm.initBuddy (frameMap 6) (.boot zeroPage) = .ok s₀ ∧
      Run Step ⟨s₀, []⟩ [.alloc 8, .alloc 8, .free (some 4)] s ∧
      Legal s (.alloc 16) ∧
      s.pmm.allocBuddy 16 = .ok ⟨some 0, 1, t⟩ ∧
      t.pagesFrom (some 0) = .ok [0, 1, 4, 5] ∧
      t.startAddr (some 4) ≠
        t.startAddr (some 0) + BitVec.ofNat 32 2 * PGSIZE := by
  have htrace : trace next 6 [.alloc 8, .alloc 8, .free (some 4)] (fun s => do
      let r ← (s.pmm.allocBuddy 16).toOption
      let pages ← (r.pmm.pagesFrom r.blk).toOption
      return (r.blk, r.flag, pages, r.pmm.startAddr (some 4),
        r.pmm.startAddr (some 0))) =
      some (some 0, 1, [0, 1, 4, 5], 0x104000, 0x100000) := by decide +kernel
  obtain ⟨s₀, s, hinit, hrun, hlook⟩ :=
    run_of_trace htrace fun _ _ _ => step_of_next
  simp only [Option.bind_eq_bind, Option.bind_eq_some_iff, Option.pure_def,
    Option.some.injEq, Prod.mk.injEq] at hlook
  obtain ⟨⟨blk, flag, t⟩, halloc, pages, hpages, rfl, rfl, rfl, h4, h0⟩ :=
    hlook
  refine ⟨s₀, s, t, hinit, hrun, ⟨by decide, by decide⟩,
    eq_ok_of_toOption halloc, eq_ok_of_toOption hpages, ?_⟩
  rw [h4, h0]
  decide

end BuddySession

end OS32
