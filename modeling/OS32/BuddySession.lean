import OS32.BuddyAllocRefinement
import OS32.BuddyFreeRefinement
import OS32.BuddyInit
import OS32.Run

/-!
# Runs of the buddy allocator

Clients allocate blocks, use their pages and free the blocks again, in any
order.  In every state of every such run the frames which `init_buddy` placed
are on the free lists or in outstanding blocks, each in one place.
-/

namespace OS32

open NullList BuddyTable Transition

namespace BuddySession

/-- The allocator and the heads of the blocks it has handed out. -/
structure State where
  pmm : Pmm
  held : List PagePtr

/-- What a client may do.  Using a page writes the members of its struct other
than the links and the start address. -/
inductive Call where
  | alloc (memsize : Uint)
  | free (pgBlk : PagePtr)
  | use (page : ℕ) (refNum flags va : Uint)

/-- No page of the block at `pgBlk` is referenced. -/
def unreferenced (s : Pmm) (pgBlk : PagePtr) : Bool :=
  match s.pagesFrom pgBlk with
  | .ok pages => pages.all fun a => s.refNum (some a) = 0
  | .error _ => false

/-- Requests are for 1 to `2 ^ 16` pages; a block is freed by the head that was
handed out, once, when its pages are unreferenced. -/
def Legal (s : State) : Call → Prop
  | .alloc memsize =>
      1 ≤ Pmm.requestPages memsize ∧ Pmm.requestPages memsize ≤ 2 ^ 16
  | .free pgBlk => pgBlk ∈ s.held ∧ unreferenced s.pmm pgBlk = true
  | .use _ _ _ _ => True

instance (s : State) (call : Call) : Decidable (Legal s call) := by
  cases call <;> unfold Legal <;> infer_instance

def call (s : State) : Call → Except Fault State
  | .alloc memsize => do
      let pages ← s.pmm.allocBuddy memsize
      if pages.flag = 1 then return ⟨pages.pmm, s.held ++ [pages.blk]⟩
      else return ⟨pages.pmm, s.held⟩
  | .free pgBlk => do
      return ⟨← s.pmm.freeBuddy pgBlk, s.held.erase pgBlk⟩
  | .use page refNum flags va =>
      .ok ⟨((s.pmm.setRefNum (some page) refNum).setFlags (some page)
        flags).setVa (some page) va, s.held⟩

/-- A legal call that returns. -/
def Step (s : State) (c : Call) (t : State) : Prop :=
  Legal s c ∧ call s c = .ok t

/-! ## The invariant -/

/-- The frames of a list of blocks. -/
def blockFrames (blocks : List (List ℕ)) : Multiset ℕ := blocks.flatten

@[simp] theorem blockFrames_append (blocks₁ blocks₂ : List (List ℕ)) :
    blockFrames (blocks₁ ++ blocks₂) =
      blockFrames blocks₁ + blockFrames blocks₂ := by
  simp [blockFrames, Multiset.coe_add]

@[simp] theorem blockFrames_cons (b : List ℕ) (blocks : List (List ℕ)) :
    blockFrames (b :: blocks) = (b : Multiset ℕ) + blockFrames blocks := by
  simp [blockFrames, Multiset.coe_add]

@[simp] theorem blockFrames_nil : blockFrames [] = 0 := rfl

theorem mem_blockFrames {blocks : List (List ℕ)} {a : ℕ} :
    a ∈ blockFrames blocks ↔ ∃ b ∈ blocks, a ∈ b := by
  simp [blockFrames]

/-- The table lists the blocks `free`, clients hold `blocks`, and together they
are the first `total` frames. -/
structure Inv (total : ℕ) (s : State) (free : Table ℕ)
    (blocks : List (List ℕ)) : Prop where
  represents : s.pmm.Represents free
  held : s.held = blocks.map List.head?
  chain : ∀ b ∈ blocks, s.pmm.links.Chain none b.head? b
  order : ∀ b ∈ blocks, ∃ k < 17, b.length = 2 ^ k
  frames_eq :
    frames 17 free + blockFrames blocks = (List.range total : Multiset ℕ)
  matchable : 1 < total → ∀ a < total, s.pmm.Matchable a
  total_lt : total < 2 ^ 17

section Steps

variable {total : ℕ} {s : State} {free : Table ℕ} {blocks : List (List ℕ)}

theorem Inv.nodup (hs : Inv total s free blocks) :
    (frames 17 free + blockFrames blocks).Nodup := by
  rw [hs.frames_eq]
  exact List.nodup_range

theorem Inv.block_off (hs : Inv total s free blocks) {b : List ℕ}
    (hb : b ∈ blocks) {a : ℕ} (ha : a ∈ b) : a ∉ frames 17 free :=
  fun hfree => Multiset.disjoint_left.mp (Multiset.nodup_add.mp hs.nodup).2.2
    hfree (mem_blockFrames.mpr ⟨b, hb, ha⟩)

theorem matchable_of_startAddr {p q : Pmm}
    (hstart : q.startAddr = p.startAddr) {a : ℕ} (ha : p.Matchable a) :
    q.Matchable a := by
  unfold Pmm.Matchable at *
  rwa [hstart]

/-- A block taken out of the table joins the blocks held. -/
theorem Inv.takeOut (hs : Inv total s free blocks) {k : ℕ} (hk : k < 17)
    {blk : List ℕ} {free' : Table ℕ} {t : Pmm}
    (halloc : s.pmm.Allocated free k blk free' t)
    (horder : ∃ k < 17, blk.length = 2 ^ k) :
    Inv total ⟨t, s.held ++ [blk.head?]⟩ free' (blocks ++ [blk]) where
  represents := halloc.represents
  held := by simp [hs.held]
  chain := by
    intro b hb
    rcases List.mem_append.mp hb with hb | hb
    · exact halloc.same.links.chain (fun a ha => hs.block_off hb ha)
        (hs.chain b hb)
    · obtain rfl := List.mem_singleton.mp hb
      exact halloc.chain
  order := by
    intro b hb
    rcases List.mem_append.mp hb with hb | hb
    · exact hs.order b hb
    · obtain rfl := List.mem_singleton.mp hb
      exact horder
  frames_eq := by
    have hframes := hs.frames_eq
    rw [halloc.takes.frames_eq hk] at hframes
    rw [← hframes, blockFrames_append, blockFrames_cons, blockFrames_nil]
    abel
  matchable := fun htotal a ha =>
    matchable_of_startAddr halloc.same.startAddr (hs.matchable htotal a ha)
  total_lt := hs.total_lt

/-- A block that is held may be handed to `free_buddy`. -/
theorem Inv.loose (hs : Inv total s free blocks) {b : List ℕ}
    (hb : b ∈ blocks) {k : ℕ} (hk : b.length = 2 ^ k) :
    s.pmm.Loose free k b := by
  obtain ⟨before, after, rfl⟩ := List.append_of_mem hb
  have hle : frames 17 free + (b : Multiset ℕ) ≤
      (List.range total : Multiset ℕ) := by
    rw [← hs.frames_eq, blockFrames_append, blockFrames_cons]
    exact Multiset.le_iff_exists_add.mpr
      ⟨blockFrames before + blockFrames after, by abel⟩
  have hlt : ∀ a ∈ frames 17 free + (b : Multiset ℕ), a < total := by
    intro a ha
    simpa using Multiset.mem_of_le hle ha
  have hcard := Multiset.card_le_card hle
  rw [Multiset.coe_card, List.length_range] at hcard
  have htotal := hs.total_lt
  refine ⟨hs.chain b hb, hk, Multiset.nodup_of_le hle List.nodup_range, ?_,
    hcard.trans_lt htotal, ?_⟩
  · intro a ha
    exact (hlt a ha).trans htotal
  · intro hmany a ha
    exact hs.matchable (hmany.trans_le hcard) a (hlt a ha)

theorem total_le_of_inv (hs : Inv total s free blocks) {b : List ℕ}
    (hb : b ∈ blocks) : ∀ a ∈ b, a < MAX_PG_NUM := by
  obtain ⟨k, _, hk⟩ := hs.order b hb
  exact fun a ha =>
    (hs.loose hb hk).bound a (Multiset.mem_add.mpr (Or.inr ha))

/-- A block put back leaves the blocks held. -/
theorem Inv.putBack {before after : List (List ℕ)} {b : List ℕ}
    (hs : Inv total s free (before ++ b :: after)) {k : ℕ} (hk : k < 17)
    (hlength : b.length = 2 ^ k) {free' : Table ℕ} {t : Pmm}
    (hputs : Puts s.pmm.first k b free free') (ht : t.Represents free')
    (hsame : s.pmm.SameOff (Pmm.mergeFrames free b) t)
    {held : List PagePtr} (hheld : held = (before ++ after).map List.head?) :
    Inv total ⟨t, held⟩ free' (before ++ after) := by
  have hb : b ∈ before ++ b :: after := by simp
  have hmem : ∀ c ∈ before ++ after, c ∈ before ++ b :: after := by
    intro c hc
    rcases List.mem_append.mp hc with hc | hc <;> simp [hc]
  have hframes := hputs.frames_eq hk hlength (hs.loose hb hlength).card
  have hnodup := hs.nodup
  rw [show frames 17 free + blockFrames (before ++ b :: after) =
      frames 17 free' + blockFrames (before ++ after) by
    rw [hframes, blockFrames_append, blockFrames_append, blockFrames_cons]
    abel] at hnodup
  refine ⟨ht, hheld, ?_, fun c hc => hs.order c (hmem c hc), ?_, ?_,
    hs.total_lt⟩
  · intro c hc
    refine hsame.links.chain (fun a ha hmerge => ?_) (hs.chain c (hmem c hc))
    have hin : a ∈ frames 17 free' := by
      rw [hframes]
      exact hmerge
    exact Multiset.disjoint_left.mp (Multiset.nodup_add.mp hnodup).2.2 hin
      (mem_blockFrames.mpr ⟨c, hc, ha⟩)
  · rw [hframes, ← hs.frames_eq, blockFrames_append, blockFrames_append,
      blockFrames_cons]
    abel
  · exact fun htotal a ha =>
      matchable_of_startAddr hsame.startAddr (hs.matchable htotal a ha)

theorem takes_order {k : ℕ} {blk : List ℕ} {free' : Table ℕ}
    (hk : k < 17) (htakes : Takes 17 k free blk free') :
    ∃ k < 17, blk.length = 2 ^ k := by
  cases htakes with
  | exact _ hlength => exact ⟨k, hk, hlength⟩
  | @split i _ _ _ _ hi _ _ _ hhigh => exact ⟨i - 1, by omega, hhigh⟩

theorem order_lt {pages : ℕ} (hpages : pages ≤ 2 ^ 16) :
    Nat.clog 2 pages < 17 := by
  have : Nat.clog 2 pages ≤ 16 :=
    (Nat.clog_le_iff_le_pow (by norm_num)).mpr hpages
  omega

/-- What an allocation does to the invariant. -/
theorem Inv.call_alloc (hs : Inv total s free blocks) {memsize : Uint}
    (hlegal : Legal s (.alloc memsize)) :
    (s.pmm.allocBuddy memsize = .ok ⟨none, 0, s.pmm⟩ ∧
        call s (.alloc memsize) = .ok s) ∨
      ∃ blk free' t, s.pmm.allocBuddy memsize = .ok ⟨blk.head?, 1, t⟩ ∧
        s.pmm.Allocated free (Nat.clog 2 (Pmm.requestPages memsize)) blk
          free' t ∧
        call s (.alloc memsize) = .ok ⟨t, s.held ++ [blk.head?]⟩ ∧
        Inv total ⟨t, s.held ++ [blk.head?]⟩ free' (blocks ++ [blk]) := by
  have hk := order_lt hlegal.2
  rcases hs.represents.allocBuddy hlegal.1 hlegal.2 with
    ⟨hnone, _⟩ | ⟨blk, free', t, hsome, halloc⟩
  · left
    refine ⟨hnone, ?_⟩
    simp only [call, hnone, bind, Except.bind]
    rfl
  · right
    refine ⟨blk, free', t, hsome, halloc, ?_,
      hs.takeOut hk halloc (takes_order hk halloc.takes)⟩
    simp only [call, hsome, bind, Except.bind]
    rfl

theorem unreferenced_eq_true {p : Pmm} {b : List ℕ}
    (hchain : p.links.Chain none b.head? b)
    (hbound : ∀ a ∈ b, a < MAX_PG_NUM) :
    unreferenced p b.head? = true ↔ ∀ a ∈ b, p.refNum (some a) = 0 := by
  simp [unreferenced, Pmm.pagesFrom_eq hchain hbound]

/-- What freeing does to the invariant. -/
theorem Inv.call_free (hs : Inv total s free blocks) {pgBlk : PagePtr}
    (hlegal : Legal s (.free pgBlk)) :
    ∃ before b after k free' t, blocks = before ++ b :: after ∧
      pgBlk = b.head? ∧ k < 17 ∧ b.length = 2 ^ k ∧
      Puts s.pmm.first k b free free' ∧
      s.pmm.SameOff (Pmm.mergeFrames free b) t ∧
      call s (.free pgBlk) = .ok ⟨t, s.held.erase pgBlk⟩ ∧
      Inv total ⟨t, s.held.erase pgBlk⟩ free' (before ++ after) := by
  obtain ⟨hmem, hunref⟩ := hlegal
  obtain ⟨heads₁, heads₂, _, hheads, herase⟩ := List.exists_erase_eq hmem
  rw [hs.held, List.map_eq_append_iff] at hheads
  obtain ⟨before, rest, hblocks, hheads₁, hrest⟩ := hheads
  obtain ⟨b, after, rfl, rfl, hheads₂⟩ := List.map_eq_cons_iff.mp hrest
  subst hblocks
  have hb : b ∈ before ++ b :: after := by simp
  obtain ⟨k, hk, hlength⟩ := hs.order b hb
  have hzero := (unreferenced_eq_true (hs.chain b hb)
    (total_le_of_inv hs hb)).mp hunref
  obtain ⟨t, free', hrun, hputs, ht, hsame⟩ :=
    hs.represents.freeBuddy hk (hs.loose hb hlength) hzero
  refine ⟨before, b, after, k, free', t, rfl, rfl, hk, hlength, hputs, hsame,
    ?_, hs.putBack hk hlength hputs ht hsame ?_⟩
  · simp only [call, hrun, bind, Except.bind]
    rfl
  · rw [herase, ← hheads₁, ← hheads₂, List.map_append]

theorem Inv.call_use (hs : Inv total s free blocks) (page : ℕ)
    (refNum flags va : Uint) :
    ∃ t, call s (.use page refNum flags va) = .ok t ∧
      Inv total t free blocks :=
  ⟨_, rfl, ⟨hs.represents.chain, hs.represents.count, hs.represents.nodup,
    hs.represents.bound⟩, hs.held, hs.chain, hs.order, hs.frames_eq,
    hs.matchable, hs.total_lt⟩

/-- Every legal call returns and keeps the invariant. -/
theorem Inv.call (hs : Inv total s free blocks) {c : Call}
    (hlegal : Legal s c) :
    ∃ t free' blocks', call s c = .ok t ∧ Inv total t free' blocks' := by
  cases c with
  | alloc memsize =>
      rcases hs.call_alloc hlegal with
        ⟨_, hrun⟩ | ⟨blk, free', t, _, _, hrun, ht⟩
      · exact ⟨s, free, blocks, hrun, hs⟩
      · exact ⟨_, _, _, hrun, ht⟩
  | free pgBlk =>
      obtain ⟨before, b, after, k, free', t, _, _, _, _, _, _, hrun, ht⟩ :=
        hs.call_free hlegal
      exact ⟨_, _, _, hrun, ht⟩
  | use page refNum flags va =>
      obtain ⟨t, hrun, ht⟩ := hs.call_use page refNum flags va
      exact ⟨t, free, blocks, hrun, ht⟩

end Steps

/-! ## Runs -/

theorem frameAddr_ne {a : Uint} (ha : Pmm.FrameAddr a) : a ≠ 0 ∧ a ≠ 1 := by
  have hlow := ha.low
  constructor <;>
  · rintro rfl
    exact absurd hlow (by decide)

/-- The states `init_buddy` returns satisfy the invariant. -/
theorem inv_of_initial {p : Pmm} {free : Table ℕ} (hp : p.Initial free) :
    Inv (Pmm.placed p.phyPageNum) ⟨p, []⟩ free [] := by
  have hlt := hp.lt
  refine ⟨hp.represents, rfl, by simp, by simp, ?_, ?_, ?_⟩
  · rw [blockFrames_nil, add_zero, hp.frames_eq]
  · intro hmany a ha
    unfold Pmm.placed at hmany ha
    split at hmany
    · omega
    · exact frameAddr_ne (hp.recorded.frame a (by split at ha <;> omega))
  · unfold Pmm.placed
    split <;> omega

/-- The invariant holds in every state of every run. -/
theorem inv_of_run {total : ℕ} {s t : State} {calls : List Call}
    (hrun : Run Step s calls t)
    (hs : ∃ free blocks, Inv total s free blocks) :
    ∃ free blocks, Inv total t free blocks := by
  refine hrun.invariant (fun s => ∃ free blocks, Inv total s free blocks)
    ?_ hs
  rintro s c t ⟨free, blocks, hinv⟩ ⟨hlegal, hcall⟩
  obtain ⟨u, free', blocks', hu, hinv'⟩ := hinv.call hlegal
  rw [hcall] at hu
  cases hu
  exact ⟨free', blocks', hinv'⟩

/-- `init_buddy` accepts every memory map with fewer than `2 ^ 17` frames. -/
theorem initBuddy_ok {info : BootInfo} {low : Page} {p : Pmm}
    (hpages : Pmm.initPages info (.boot low) = .ok p)
    (hmax : p.phyPageNum < 2 ^ 17) :
    ∃ s free, Pmm.initBuddy info (.boot low) = .ok s ∧ s.Initial free ∧
      s.phyPageNum = p.phyPageNum := by
  have hrecorded := (Pmm.boot_recorded low).recordEntries hpages
  obtain ⟨s, free, hbuild, hinitial, hnum⟩ := hrecorded.buildTable_ok hmax
  refine ⟨s, free, ?_, hinitial, hnum⟩
  rw [Pmm.initBuddy, hpages]
  exact hbuild

/-- No run of clients loses a frame, hands one out twice or leaves the table.
In every state each free list is well linked and has `blk_num` blocks, every
frame of the table is on one list or in one outstanding block, and every legal
call returns. -/
theorem buddy_conserves_frames {info : BootInfo} {low : Page} {p : Pmm}
    (hpages : Pmm.initPages info (.boot low) = .ok p)
    (hmin : 2 ≤ p.phyPageNum) (hmax : p.phyPageNum < 2 ^ 17) :
    ∃ s₀, Pmm.initBuddy info (.boot low) = .ok s₀ ∧
      ∀ calls s, Run Step ⟨s₀, []⟩ calls s →
        ∃ (free : Table ℕ) (blocks : List (List ℕ)),
          (∀ k ≤ 16,
            s.pmm.links.Chain none (s.pmm.pageBlkList k) (free k) ∧
              ((free k).length : ℤ) = s.pmm.blkNum k * 2 ^ k) ∧
          s.held = blocks.map List.head? ∧
          (∀ b ∈ blocks, b ≠ [] ∧ s.pmm.links.Chain none b.head? b) ∧
          frames 17 free + blockFrames blocks =
            (List.range (p.phyPageNum - p.phyPageNum % 2) : Multiset ℕ) ∧
          ∀ c, Legal s c → ∃ t, call s c = .ok t := by
  obtain ⟨s₀, free₀, hinit, hinitial, hnum⟩ := initBuddy_ok hpages hmax
  refine ⟨s₀, hinit, fun calls s hrun => ?_⟩
  obtain ⟨free, blocks, hs⟩ :=
    inv_of_run hrun ⟨free₀, [], inv_of_initial hinitial⟩
  refine ⟨free, blocks, ?_, hs.held, ?_, ?_, ?_⟩
  · exact fun k hk => ⟨hs.represents.chain k (by omega),
      hs.represents.count k (by omega)⟩
  · intro b hb
    refine ⟨?_, hs.chain b hb⟩
    obtain ⟨k, _, hlength⟩ := hs.order b hb
    exact ne_nil_of_length_eq_pow hlength
  · rw [hs.frames_eq, hnum, Pmm.placed, if_neg (by omega)]
  · intro c hlegal
    obtain ⟨t, _, _, hcall, _⟩ := hs.call hlegal
    exact ⟨t, hcall⟩

/-! ## Executing a run -/

/-- The next state, if the call is legal and returns. -/
def next (s : State) (c : Call) : Option State :=
  if Legal s c then (call s c).toOption else none

theorem eq_ok_of_toOption {ε α : Type*} {x : Except ε α} {a : α}
    (hx : x.toOption = some a) : x = .ok a := by
  cases x with
  | error => cases hx
  | ok b =>
      obtain rfl := Option.some.inj hx
      rfl

theorem step_of_next {s t : State} {c : Call} (hnext : next s c = some t) :
    Step s c t := by
  unfold next at hnext
  split at hnext
  next hlegal => exact ⟨hlegal, eq_ok_of_toOption hnext⟩
  next => cases hnext

/-- A memory map with one usable range, which leaves `n` frames behind the
kernel image. -/
def frameMap (n : ℕ) : BootInfo where
  mmapAddr := 0x9000
  mmapLength := 1
  entryAt := fun _ => ⟨0x100000, 0, BitVec.ofNat 32 (4096 * n), 0, 1⟩
  kernStart := 0xC0100000
  kernEnd := 0xC0100000
  image_high := by decide
  image_order := by decide

/-- A zero-filled first frame. -/
def zeroPage : Page := ⟨0, 0, 0, 0, none, none⟩

section Trace

variable {σ ι α : Type*}

/-- Boot, `start` a system on the allocator, run `calls` by `step` and look at
the last state. -/
def traceFrom (start : Pmm → σ) (step : σ → ι → Option σ) (n : ℕ)
    (calls : List ι) (look : σ → Option α) : Option α :=
  (Pmm.initBuddy (frameMap n) (.boot zeroPage)).toOption.bind fun p =>
    (exec step (start p) calls).bind look

theorem run_of_traceFrom {start : Pmm → σ} {step : σ → ι → Option σ} {n : ℕ}
    {calls : List ι} {look : σ → Option α} {a : α}
    (htrace : traceFrom start step n calls look = some a)
    {Step' : σ → ι → σ → Prop}
    (hstep : ∀ s c t, step s c = some t → Step' s c t) :
    ∃ p s, Pmm.initBuddy (frameMap n) (.boot zeroPage) = .ok p ∧
      Run Step' (start p) calls s ∧ look s = some a := by
  simp only [traceFrom, Option.bind_eq_some_iff] at htrace
  obtain ⟨p, hinit, s, hexec, hlook⟩ := htrace
  exact ⟨p, s, eq_ok_of_toOption hinit, Run.of_exec hstep hexec, hlook⟩

/-- Run `calls` of clients from boot by `step` and look at the last state. -/
def trace (step : State → Call → Option State) (n : ℕ) (calls : List Call)
    (look : State → Option α) : Option α :=
  traceFrom (fun p => ⟨p, []⟩) step n calls look

theorem run_of_trace {step : State → Call → Option State} {n : ℕ}
    {calls : List Call} {look : State → Option α} {a : α}
    (htrace : trace step n calls look = some a)
    {Step' : State → Call → State → Prop}
    (hstep : ∀ s c t, step s c = some t → Step' s c t) :
    ∃ p s, Pmm.initBuddy (frameMap n) (.boot zeroPage) = .ok p ∧
      Run Step' ⟨p, []⟩ calls s ∧ look s = some a :=
  run_of_traceFrom htrace hstep

end Trace

/-- Six frames, two blocks handed out and one of them put back. -/
theorem buddy_conserves_six_frames :
    ∃ s₀ s free blocks,
      Pmm.initBuddy (frameMap 6) (.boot zeroPage) = .ok s₀ ∧
      Run Step ⟨s₀, []⟩ [.alloc 8, .alloc 8, .free (some 4)] s ∧
      s.held = blocks.map List.head? ∧
      frames 17 free + blockFrames blocks =
        (List.range 6 : Multiset ℕ) := by
  have hpages : (Pmm.initPages (frameMap 6) (.boot zeroPage)).toOption.map
      Pmm.phyPageNum = some 6 := by decide +kernel
  obtain ⟨p, hp, hnum⟩ := Option.map_eq_some_iff.mp hpages
  obtain ⟨s₀, hinit, hruns⟩ := buddy_conserves_frames
    (eq_ok_of_toOption hp) (by omega) (by omega)
  have htrace : trace next 6 [.alloc 8, .alloc 8, .free (some 4)]
      (fun _ => some ()) = some () := by decide +kernel
  obtain ⟨p', s, hp', hrun, _⟩ :=
    run_of_trace htrace fun _ _ _ => step_of_next
  obtain rfl : s₀ = p' := by
    rw [hinit] at hp'
    exact Except.ok.inj hp'
  obtain ⟨free, blocks, _, hheld, _, hframes, _⟩ := hruns _ s hrun
  rw [hnum] at hframes
  exact ⟨s₀, s, free, blocks, hinit, hrun, hheld, hframes⟩

end BuddySession

end OS32
