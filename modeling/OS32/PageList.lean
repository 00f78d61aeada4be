import OS32.BuddyRepresentation
import OS32.Run

/-!
# The page list of an address space

`mm_insert_page` appends pages to `mm->pglist`.  `mm_delete_page` tests the
node behind the first one in every turn of its loop, as its pointer is never
moved on.
-/

namespace OS32

open NullList Links Transition

/-- The links of the pages and `mm->pglist`. -/
structure PageList where
  links : Links ℕ
  pglist : Option ℕ

namespace PageList

variable {s s' : PageList} {l : List ℕ} {page a b : ℕ}

/-! ## The functions -/

/-- `FindTail` of a list that is not NULL. -/
def findTail (s : PageList) (pglist : Option ℕ) : Except Fault (Option ℕ) :=
  match s.links.tail walkBound pglist with
  | some p => .ok p
  | none => .error .hang

/-- The loop of `FindPage`, ended after `fuel` turns. -/
def findPageFrom (s : PageList) (page : ℕ) : ℕ → Option ℕ → Except Fault Bool
  | 0, _ => .error .hang
  | _ + 1, none => .ok false
  | fuel + 1, some p =>
      if p = page then .ok true
      else s.findPageFrom page fuel (s.links.next (some p))

def findPage (s : PageList) (page : ℕ) : Except Fault Bool :=
  s.findPageFrom page walkBound s.pglist

def mmInsertPage (s : PageList) (page : ℕ) : Except Fault PageList :=
  if s.pglist = none then .ok { s with pglist := some page }
  else do
    if ← s.findPage page then return s
    else
      let p ← s.findTail s.pglist
      return { s with links := s.links.join p (some page) }

/-- What `mm_delete_page` leaves: the pointers it has written through, and
whether it has printed "page not found in current mm". -/
structure Deleted where
  written : List (Option ℕ)
  printed : Bool
  list : PageList

/-- `page->next->prev = p; p->next = page->next;` and NULL for the links of
`page`. -/
def unlinkAfter (s : PageList) (p page : Option ℕ) : Deleted where
  written := [s.links.next page, p, page]
  printed := false
  list :=
    let links := s.links.setPrev (s.links.next page) p
    let links := links.setNext p (links.next page)
    { s with links := (links.setNext page none).setPrev page none }

/-- The loop of `mm_delete_page`, ended after `fuel` turns. -/
def deleteFrom (s : PageList) (page : ℕ) (p : Option ℕ) :
    ℕ → Except Fault Deleted
  | 0 => .error .hang
  | fuel + 1 =>
      if s.links.next p ≠ none then
        if s.links.next p = some page then .ok (s.unlinkAfter p (some page))
        else s.deleteFrom page p fuel
      else .ok ⟨[], true, s⟩

def mmDeletePage (s : PageList) (page : ℕ) : Except Fault Deleted :=
  if s.pglist = none then .ok ⟨[], true, s⟩
  else s.deleteFrom page s.pglist walkBound

/-- `mm->pglist` lists the pages `l`. -/
def Lists (s : PageList) (l : List ℕ) : Prop :=
  s.links.Chain none s.pglist l

/-- `mm_delete_page` returns, writes through no null pointer and leaves the list
without `page`. -/
structure Deletes (s : PageList) (l : List ℕ) (page : ℕ) (d : Deleted) :
    Prop where
  returns : s.mmDeletePage page = .ok d
  no_null : none ∉ d.written
  lists : d.list.Lists (l.erase page)
  unlinked : page ∈ l →
    d.list.links.next (some page) = none ∧ d.list.links.prev (some page) = none
  unchanged : page ∉ l → d.list = s

/-! ## Lists that `mm_insert_page` builds -/

theorem Lists.findPageFrom_eq {fuel : ℕ} {before p : Option ℕ}
    (hl : s.links.Chain before p l) (hfuel : l.length < fuel) :
    s.findPageFrom page fuel p = .ok (decide (page ∈ l)) := by
  induction l generalizing before p fuel with
  | nil =>
      cases fuel with
      | zero => cases hfuel
      | succ fuel =>
          obtain rfl : p = none := hl
          rfl
  | cons a l ih =>
      cases fuel with
      | zero => cases hfuel
      | succ fuel =>
          obtain ⟨rfl, _, hrest⟩ := chain_cons.mp hl
          unfold findPageFrom
          by_cases ha : a = page
          · rw [if_pos ha, decide_eq_true (ha ▸ List.mem_cons_self)]
          · rw [if_neg ha, ih hrest (Nat.lt_of_succ_lt_succ hfuel)]
            have hiff : page ∈ a :: l ↔ page ∈ l := by
              rw [List.mem_cons]
              exact or_iff_right fun h => ha h.symm
            rw [decide_eq_decide.mpr hiff]

/-- Pages are numbers of `phy_pages`, so a list of them ends before the loops
are given up. -/
theorem Lists.length_lt (hl : s.Lists l) (hbound : ∀ a ∈ l, a < MAX_PG_NUM) :
    l.length < walkBound :=
  (Pmm.length_le_of_bound hl.nodup hbound).trans_lt (by decide)

/-- A page that is in no list is appended. -/
theorem Lists.afterInsert (hl : s.Lists l) (hbound : ∀ a ∈ l, a < MAX_PG_NUM)
    (hnext : s.links.next (some page) = none)
    (hprev : s.links.prev (some page) = none) (hpage : page ∉ l) :
    ∃ s', s.mmInsertPage page = .ok s' ∧ s'.Lists (l ++ [page]) := by
  have hlength := hl.length_lt hbound
  unfold mmInsertPage
  by_cases hnone : s.pglist = none
  · rw [if_pos hnone]
    obtain rfl : l = [] := hl.eq_nil hnone
    refine ⟨_, rfl, rfl, hprev, ?_⟩
    exact hnext
  · rw [if_neg hnone]
    have hne : l ≠ [] := hl.ne_nil hnone
    have hfind : s.findPage page = .ok false := by
      rw [findPage, Lists.findPageFrom_eq hl hlength, decide_eq_false hpage]
    have htail : s.findTail s.pglist = .ok (lastPtr none l) := by
      rw [findTail, hl.tail_eq hne hlength.le]
    rw [hfind]
    change ∃ s', (s.findTail s.pglist).bind _ = .ok s' ∧ _
    rw [htail]
    refine ⟨_, rfl, ?_⟩
    change (s.links.join (lastPtr none l) (some page)).Chain none s.pglist _
    have hsingle : s.links.Chain none (some page) [page] :=
      ⟨rfl, hprev, hnext⟩
    obtain ⟨l₁, y, rfl⟩ := (List.eq_nil_or_concat' l).resolve_left hne
    rw [lastPtr_concat]
    refine Chain.join hl hsingle ?_
    intro a ha hmem
    rw [List.mem_singleton.mp hmem] at ha
    exact hpage ha

theorem Lists.insert_listed (hl : s.Lists l)
    (hbound : ∀ a ∈ l, a < MAX_PG_NUM) (hpage : page ∈ l) :
    s.mmInsertPage page = .ok s := by
  have hne : s.pglist ≠ none := fun hnone => by
    rw [hl.eq_nil hnone] at hpage
    cases hpage
  have hfind : s.findPage page = .ok true := by
    rw [findPage, Lists.findPageFrom_eq hl (hl.length_lt hbound),
      decide_eq_true hpage]
  unfold mmInsertPage
  rw [if_neg hne, hfind]
  rfl

/-- A call of `mm_insert_page` that returns, on a page of `phy_pages` that is in
the list or has NULL links. -/
def Inserts (s : PageList) (page : ℕ) (s' : PageList) : Prop :=
  s.mmInsertPage page = .ok s' ∧ page < MAX_PG_NUM ∧
    ((∃ l, s.Lists l ∧ page ∈ l) ∨
      s.links.next (some page) = none ∧ s.links.prev (some page) = none)

/-- The list after `mm_insert_page` of `page`. -/
def insertEnd (l : List ℕ) (page : ℕ) : List ℕ :=
  if page ∈ l then l else l ++ [page]

theorem Lists.inserts (hl : s.Lists l) (hbound : ∀ a ∈ l, a < MAX_PG_NUM)
    (hs : s.Inserts page s') :
    s'.Lists (insertEnd l page) ∧ ∀ a ∈ insertEnd l page, a < MAX_PG_NUM := by
  obtain ⟨hinsert, hlt, hcase⟩ := hs
  unfold insertEnd
  split_ifs with hpage
  · rw [hl.insert_listed hbound hpage] at hinsert
    obtain rfl := Except.ok.inj hinsert
    exact ⟨hl, hbound⟩
  · rcases hcase with ⟨l', hl', hpage'⟩ | ⟨hnext, hprev⟩
    · rw [hl'.unique hl] at hpage'
      exact absurd hpage' hpage
    · obtain ⟨t, ht, hlists⟩ := hl.afterInsert hbound hnext hprev hpage
      obtain rfl := Except.ok.inj (ht.symm.trans hinsert)
      refine ⟨hlists, ?_⟩
      intro a ha
      rcases List.mem_append.mp ha with ha | ha
      · exact hbound a ha
      · rw [List.mem_singleton.mp ha]
        exact hlt

/-- What `mm_insert_page` builds is well linked, in the order of the first
calls. -/
theorem lists_of_inserts {links : Links ℕ} {pages : List ℕ}
    (hrun : Run Inserts ⟨links, none⟩ pages s) :
    s.Lists (pages.foldl insertEnd []) ∧
      ∀ a ∈ pages.foldl insertEnd [], a < MAX_PG_NUM := by
  induction hrun with
  | nil => exact ⟨rfl, by simp⟩
  | snoc _ hstep ih =>
      rw [List.foldl_append]
      exact ih.1.inserts ih.2 hstep

/-! ## `mm_delete_page` -/

/-- A page behind the first one that is not the one to remove keeps the loop
going. -/
theorem deleteFrom_hang {p : Option ℕ} (hsome : s.links.next p ≠ none)
    (hother : s.links.next p ≠ some page) (fuel : ℕ) :
    s.deleteFrom page p fuel = .error .hang := by
  induction fuel with
  | zero => rfl
  | succ fuel ih =>
      unfold deleteFrom
      rw [if_pos hsome, if_neg hother]
      exact ih

theorem mmDeletePage_second (hl : s.Lists (a :: page :: l)) :
    s.mmDeletePage page = .ok (s.unlinkAfter (some a) (some page)) := by
  obtain ⟨hhead, _, hnext, _, _⟩ := hl
  unfold mmDeletePage
  rw [hhead, if_neg nofun]
  change s.deleteFrom page (some a) (4294967295 + 1) = _
  unfold deleteFrom
  rw [if_pos (by rw [hnext]; exact nofun), if_pos hnext]

section Unlink

variable (s) {p q : Option ℕ}

theorem unlinkAfter_next (hqp : q ≠ p) (hq : q ≠ some page) :
    (s.unlinkAfter p (some page)).list.links.next q = s.links.next q := by
  simp [unlinkAfter, setPrev, setNext, hqp, hq]

theorem unlinkAfter_next_before (hp : p ≠ some page) :
    (s.unlinkAfter p (some page)).list.links.next p =
      s.links.next (some page) := by
  simp [unlinkAfter, setPrev, setNext, hp]

theorem unlinkAfter_prev (hqn : q ≠ s.links.next (some page))
    (hq : q ≠ some page) :
    (s.unlinkAfter p (some page)).list.links.prev q = s.links.prev q := by
  simp [unlinkAfter, setPrev, setNext, hqn, hq]

theorem unlinkAfter_prev_behind (hn : s.links.next (some page) ≠ some page) :
    (s.unlinkAfter p (some page)).list.links.prev (s.links.next (some page)) =
      p := by
  simp [unlinkAfter, setPrev, setNext, hn]

end Unlink

/-- The second page is removed, if another one follows. -/
theorem deletes_second (hl : s.Lists (a :: page :: b :: l)) :
    s.Deletes (a :: page :: b :: l) page
      (s.unlinkAfter (some a) (some page)) := by
  have hreturns := mmDeletePage_second hl
  obtain ⟨hahead, hnodup⟩ := List.nodup_cons.mp hl.nodup
  obtain ⟨hpahead, hnodup⟩ := List.nodup_cons.mp hnodup
  obtain ⟨hbl, _⟩ := List.nodup_cons.mp hnodup
  have hap : a ≠ page := fun h => hahead (h ▸ List.mem_cons_self)
  have hab : a ≠ b := fun h =>
    hahead (h ▸ List.mem_cons_of_mem _ List.mem_cons_self)
  have hbp : b ≠ page := fun h => hpahead (h ▸ List.mem_cons_self)
  have hal : a ∉ l := fun h =>
    hahead (List.mem_cons_of_mem _ (List.mem_cons_of_mem _ h))
  have hpl : page ∉ l := fun h => hpahead (List.mem_cons_of_mem _ h)
  have hsome : ∀ {c d : ℕ}, c ≠ d → some c ≠ some d :=
    fun hne heq => hne (Option.some.inj heq)
  obtain ⟨hhead, hprev, hpage, _, hnext, _, hrest⟩ := hl
  refine ⟨hreturns, ?_, ?_, ?_, ?_⟩
  · unfold unlinkAfter
    rw [hnext]
    simp
  · have herase : (a :: page :: b :: l).erase page = a :: b :: l := by
      rw [List.erase_cons_tail (by simpa using hap), List.erase_cons_head]
    have hback := unlinkAfter_prev_behind s (p := some a)
      (hnext ▸ hsome hbp)
    have hahead' := unlinkAfter_next_before s (hsome hap)
    rw [hnext] at hback hahead'
    rw [herase]
    refine ⟨hhead, ?_, ?_⟩
    · rw [unlinkAfter_prev s (hnext ▸ hsome hab) (hsome hap), hprev]
    · rw [hahead']
      refine ⟨rfl, hback, ?_⟩
      rw [unlinkAfter_next s (hsome hab.symm) (hsome hbp)]
      refine Chain.congr hrest ?_ ?_
      · intro c hc
        have hca : c ≠ a := fun h => hal (h ▸ hc)
        have hcp : c ≠ page := fun h => hpl (h ▸ hc)
        exact unlinkAfter_next s (hsome hca) (hsome hcp)
      · intro c hc
        have hcb : c ≠ b := fun h => hbl (h ▸ hc)
        have hcp : c ≠ page := fun h => hpl (h ▸ hc)
        exact unlinkAfter_prev s (hnext ▸ hsome hcb) (hsome hcp)
  · intro _
    exact ⟨setNext_next_self _ _ _, setPrev_prev_self _ _ _⟩
  · intro hout
    exact absurd (List.mem_cons_of_mem _ List.mem_cons_self) hout

/-- A list of at most one page is left as it is. -/
theorem mmDeletePage_short (hl : s.Lists l) (hlength : l.length ≤ 1) :
    s.mmDeletePage page = .ok ⟨[], true, s⟩ := by
  unfold mmDeletePage
  match l, hl, hlength with
  | [], hl, _ =>
      have hnone : s.pglist = none := hl
      rw [if_pos hnone]
  | [a], hl, _ =>
      obtain ⟨hhead, _, hnext⟩ := hl
      have hlast : s.links.next (some a) = none := hnext
      rw [hhead, if_neg nofun]
      change s.deleteFrom page (some a) (4294967295 + 1) = _
      unfold deleteFrom
      rw [hlast, if_neg (not_not.mpr rfl)]

/-- Where there is a second page and it is another one, the walk does not
end. -/
theorem mmDeletePage_hang {a c : ℕ} {rest : List ℕ}
    (hl : s.Lists (a :: c :: rest)) (hc : c ≠ page) :
    s.mmDeletePage page = .error .hang := by
  obtain ⟨hhead, _, hnext, _, _⟩ := hl
  unfold mmDeletePage
  rw [hhead, if_neg nofun, deleteFrom_hang]
  · rw [hnext]
    exact nofun
  · rw [hnext]
    exact fun heq => hc (Option.some.inj heq)

/-- `mm_delete_page` does its work just on the empty list, on a list of one
other page, and on a page that is second and not last. -/
theorem deletes_iff (hl : s.Lists l) (page : ℕ) :
    (∃ d, s.Deletes l page d) ↔ l = [] ∨ (∃ a, l = [a] ∧ a ≠ page) ∨
      ∃ a b rest, l = a :: page :: b :: rest := by
  constructor
  · rintro ⟨d, hd⟩
    match l, hl, hd with
    | [], _, _ => exact .inl rfl
    | [a], hl, hd =>
        refine .inr (.inl ⟨a, rfl, ?_⟩)
        rintro rfl
        have hret := hd.returns
        rw [mmDeletePage_short hl le_rfl] at hret
        obtain rfl := Except.ok.inj hret
        have hlists := hd.lists
        rw [List.erase_cons_head] at hlists
        exact absurd (hl.unique hlists) nofun
    | a :: c :: rest, hl, hd =>
        right
        right
        have hret := hd.returns
        by_cases hc : c = page
        · subst hc
          match rest, hl, hd with
          | [], hl, hd =>
              rw [mmDeletePage_second hl] at hret
              obtain rfl := Except.ok.inj hret
              obtain ⟨_, _, _, _, hlast⟩ := hl
              have hnull := hd.no_null
              unfold unlinkAfter at hnull
              rw [show s.links.next (some c) = none from hlast] at hnull
              exact absurd List.mem_cons_self hnull
          | b :: rest, _, _ => exact ⟨a, b, rest, rfl⟩
        · rw [mmDeletePage_hang hl hc] at hret
          cases hret
  · rintro (rfl | ⟨a, rfl, hne⟩ | ⟨a, b, rest, rfl⟩)
    · exact ⟨_, mmDeletePage_short hl (Nat.zero_le 1), nofun, hl, nofun,
        fun _ => rfl⟩
    · have hout : page ∉ [a] := fun h => hne (List.mem_singleton.mp h).symm
      refine ⟨_, mmDeletePage_short hl le_rfl, nofun, ?_,
        fun h => absurd h hout, fun _ => rfl⟩
      rw [List.erase_of_not_mem hout]
      exact hl
    · exact ⟨_, deletes_second hl⟩

/-- No page has been inserted, and no page is in another list. -/
def empty : PageList := ⟨⟨fun _ => none, fun _ => none⟩, none⟩

theorem three_inserted :
    ∃ s, Run Inserts empty [0, 1, 2] s ∧ s.Lists [0, 1, 2] := by
  have hlow : ∀ a < 3, a < MAX_PG_NUM := fun a ha => ha.trans (by decide)
  have hrun : ∃ s, Run Inserts empty [0, 1, 2] s :=
    ⟨_, .snoc (.snoc (.snoc .nil
      ⟨rfl, hlow 0 (by decide), .inr ⟨rfl, rfl⟩⟩)
      ⟨rfl, hlow 1 (by decide), .inr ⟨rfl, rfl⟩⟩)
      ⟨rfl, hlow 2 (by decide), .inr ⟨rfl, rfl⟩⟩⟩
  obtain ⟨s, hrun⟩ := hrun
  exact ⟨s, hrun, (lists_of_inserts hrun).1⟩

/-- The second of three pages. -/
theorem deletes_middle : ∃ s, Run Inserts empty [0, 1, 2] s ∧
    ∃ d, s.Deletes [0, 1, 2] 1 d := by
  obtain ⟨s, hrun, hlists⟩ := three_inserted
  exact ⟨s, hrun, (deletes_iff hlists 1).mpr (.inr (.inr ⟨0, 2, [], rfl⟩))⟩

/-- The third of three pages is never found. -/
theorem delete_last_hangs : ¬ ∀ (pages : List ℕ) (s : PageList) (l : List ℕ)
    (page : ℕ), Run Inserts empty pages s → s.Lists l →
      ∃ d, s.Deletes l page d := by
  intro hall
  obtain ⟨s, hrun, hlists⟩ := three_inserted
  obtain ⟨d, hd⟩ := hall _ s _ 2 hrun hlists
  have hret := hd.returns
  rw [mmDeletePage_hang hlists (by decide)] at hret
  cases hret

end PageList

end OS32
