import OS32.RingList
import OS32.Run

/-!
# The intrusive list of `list.h`

A `list_t` is a node of a heap of link fields.  The operations are translated
statement by statement; each of them is one insertion or one unlinking on the
ring of its list, so that a heap of lists behaves as a set of separate
sequences.
-/

namespace OS32

open NullList Links Transition

namespace IntrusiveList

variable {α : Type*} [DecidableEq α]

def listInit (m : Links α) (l : Option α) : Links α :=
  let m := m.setNext l l
  m.setPrev l l

def listAddTail (m : Links α) (head ele : Option α) : Links α :=
  if head ≠ none then
    let m := m.setNext (m.prev head) ele
    let m := m.setNext ele head
    let m := m.setPrev ele (m.prev head)
    m.setPrev head ele
  else m

def listAddHead (m : Links α) (head ele : Option α) : Links α :=
  if head ≠ none then
    let m := m.setPrev (m.next head) ele
    let m := m.setNext ele (m.next head)
    let m := m.setNext head ele
    m.setPrev ele head
  else m

def listAddAfter (m : Links α) (ele1 ele2 : Option α) : Links α :=
  let m := m.setPrev (m.next ele1) ele2
  let m := m.setNext ele2 (m.next ele1)
  let m := m.setNext ele1 ele2
  m.setPrev ele2 ele1

def listAddBefore (m : Links α) (ele1 ele2 : Option α) : Links α :=
  let m := m.setNext (m.prev ele1) ele2
  let m := m.setNext ele2 ele1
  let m := m.setPrev ele2 (m.prev ele1)
  m.setPrev ele1 ele2

def listRemove (m : Links α) (ele : Option α) : Links α :=
  let m := m.setNext (m.prev ele) (m.next ele)
  let m := m.setPrev (m.next ele) (m.prev ele)
  let m := m.setPrev ele none
  m.setNext ele none

def listPop (m : Links α) (head : Option α) : Option α × Links α :=
  if m.next head ≠ head then (m.next head, listRemove m (m.next head))
  else (none, m)

def listFront (m : Links α) (head : Option α) : Option α :=
  if m.next head ≠ head then m.next head else none

def listEmpty (m : Links α) (head : Option α) : Bool :=
  if m.next head ≠ head then false else true

/-- The loop of `list_find`, ended after `fuel` turns. -/
def listFindFrom (m : Links α) (head elem : Option α) :
    ℕ → Option α → Option Bool
  | 0, _ => none
  | fuel + 1, p =>
      if p = head then some false
      else if p = elem then some true
      else listFindFrom m head elem fuel (m.next p)

def listFind (m : Links α) (head elem : Option α) (fuel : ℕ) : Option Bool :=
  listFindFrom m head elem fuel (m.next head)

/-! ## Each operation on its ring -/

variable {m : Links α} {h x y : α} {l l₁ l₂ : List α}

theorem insert_comm (m : Links α) {p q : Option α} (hp : p ≠ some x)
    (hq : q ≠ some x) :
    (((m.setPrev q (some x)).setNext (some x) q).setNext p (some x)).setPrev
      (some x) p = m.insert p x q := by
  simp only [Links.insert, setNext, setPrev]
  rw [Function.update_comm hp.symm, Function.update_comm hq]

theorem listAddTail_eq (m : Links α) (h x : α) :
    listAddTail m (some h) (some x) =
      m.insert (m.prev (some h)) x (some h) := rfl

theorem listAddBefore_eq (m : Links α) (y x : α) :
    listAddBefore m (some y) (some x) =
      m.insert (m.prev (some y)) x (some y) := rfl

theorem listAddAfter_eq (hxy : y ≠ x) (hnext : m.next (some y) ≠ some x) :
    listAddAfter m (some y) (some x) =
      m.insert (some y) x (m.next (some y)) := by
  have hcomm := insert_comm m (p := some y) (by simpa using hxy) hnext
  simpa [listAddAfter, Links.insert, setNext, setPrev] using hcomm

theorem listAddHead_eq_addAfter (m : Links α) (h x : α) :
    listAddHead m (some h) (some x) = listAddAfter m (some h) (some x) := rfl

theorem listRemove_eq (hprev : m.prev (some x) ≠ some x) :
    listRemove m (some x) = m.unlink x := by
  simp [listRemove, Links.unlink, setNext, setPrev, Ne.symm hprev]

theorem addTail_ring (hring : m.Ring h l) (hx : x ∉ h :: l) :
    (listAddTail m (some h) (some x)).Ring h (l ++ [x]) := by
  rw [listAddTail_eq]
  exact hring.insertBefore hx

theorem addBefore_ring (hring : m.Ring h (l₁ ++ y :: l₂))
    (hx : x ∉ h :: (l₁ ++ y :: l₂)) :
    (listAddBefore m (some y) (some x)).Ring h (l₁ ++ x :: y :: l₂) := by
  rw [listAddBefore_eq]
  exact hring.insertBeforeMem hx

/-- The node after a node of a ring is not a node outside the ring. -/
theorem listAddAfter_of_ring (hring : m.Ring h l) (hy : y ∈ h :: l)
    (hx : x ∉ h :: l) :
    listAddAfter m (some y) (some x) =
      m.insert (some y) x (m.next (some y)) :=
  listAddAfter_eq (fun heq => hx (heq ▸ hy))
    (fun hnext => hx (hring.next_mem hy hnext))

theorem addHead_ring (hring : m.Ring h l) (hx : x ∉ h :: l) :
    (listAddHead m (some h) (some x)).Ring h (x :: l) := by
  rw [listAddHead_eq_addAfter,
    listAddAfter_of_ring hring List.mem_cons_self hx]
  exact hring.insertAfter hx

theorem addAfter_ring (hring : m.Ring h (l₁ ++ y :: l₂))
    (hx : x ∉ h :: (l₁ ++ y :: l₂)) :
    (listAddAfter m (some y) (some x)).Ring h (l₁ ++ y :: x :: l₂) := by
  rw [listAddAfter_of_ring hring (by simp) hx]
  exact hring.insertAfterMem hx

theorem listRemove_of_ring (hring : m.Ring h (l₁ ++ x :: l₂)) :
    listRemove m (some x) = m.unlink x := by
  apply listRemove_eq
  rw [hring.rotate.prev_head]
  have hnodup := hring.rotate.nodup
  rintro heq
  have hlast : (l₂ ++ h :: l₁).getLastD x ∈ l₂ ++ h :: l₁ := by
    rw [List.getLastD_eq_getLast?, List.getLast?_eq_some_getLast (by simp)]
    exact List.getLast_mem _
  rw [Option.some.inj heq] at hlast
  exact (List.nodup_cons.mp hnodup).1 hlast

theorem remove_ring (hring : m.Ring h (l₁ ++ x :: l₂)) :
    (listRemove m (some x)).Ring h (l₁ ++ l₂) := by
  rw [listRemove_of_ring hring]
  exact hring.unlinkMem

theorem init_ring (m : Links α) (h : α) :
    (listInit m (some h)).Ring h [] :=
  ring_nil (by simp [listInit]) (by simp [listInit])

/-! ## The queries -/

theorem listFront_eq (hring : m.Ring h l) :
    listFront m (some h) = l.head? := by
  have hhead := hring.next_head_eq_iff
  have hnext := hring.next_head
  cases l with
  | nil => simp [listFront, hhead.mpr rfl]
  | cons a l =>
      have hne : m.next (some h) ≠ some h := fun heq => by
        simpa using hhead.mp heq
      rw [listFront, if_pos hne]
      exact hnext

theorem listEmpty_iff (hring : m.Ring h l) :
    listEmpty m (some h) = true ↔ l = [] := by
  rw [← hring.next_head_eq_iff]
  simp [listEmpty]

theorem listPop_nil (hring : m.Ring h []) :
    listPop m (some h) = (none, m) := by
  simp [listPop, hring.next_head]

theorem listPop_cons (hring : m.Ring h (x :: l)) :
    listPop m (some h) = (some x, listRemove m (some x)) := by
  have hne : m.next (some h) ≠ some h := fun heq => by
    simpa using (hring.next_head_eq_iff).mp heq
  rw [listPop, if_pos hne, hring.next_head]
  rfl

theorem listFindFrom_eq {elem : Option α} {fuel : ℕ}
    (hchain : (l ++ [h]).IsChain m.Linked) (hnot : h ∉ l)
    (hfuel : l.length < fuel) :
    listFindFrom m (some h) elem fuel (some (l.headD h)) =
      some (decide (elem ∈ l.map some)) := by
  induction l generalizing fuel with
  | nil =>
      cases fuel with
      | zero => simp at hfuel
      | succ fuel => simp [listFindFrom]
  | cons a l ih =>
      cases fuel with
      | zero => simp at hfuel
      | succ fuel =>
          obtain ⟨hfirst, hrest⟩ := List.isChain_cons.mp hchain
          have hah : a ≠ h := fun heq => hnot (by simp [heq])
          have hnext := (hfirst (l.headD h) concat_head?).1
          have hrec := ih hrest (fun hmem => hnot (by simp [hmem]))
            (Nat.lt_of_succ_lt_succ hfuel)
          by_cases helem : elem = some a
          · simp [listFindFrom, hah, helem]
          · have hne : some a ≠ elem := fun heq => helem heq.symm
            simp only [List.headD_cons, listFindFrom, Option.some.injEq, hah,
              if_false, hne, hnext]
            rw [hrec]
            simp [helem]

theorem listFind_eq (hring : m.Ring h l) (elem : Option α) {fuel : ℕ}
    (hfuel : l.length < fuel) :
    listFind m (some h) elem fuel = some (decide (elem ∈ l.map some)) := by
  rw [listFind, hring.next_head]
  exact listFindFrom_eq (List.isChain_cons.mp hring.linked).2
    (List.nodup_cons.mp hring.nodup).1 hfuel

/-! ## Frames -/

theorem init_agreeOff (m : Links α) (h : α) :
    AgreeOff {a | a ∈ [h]} m (listInit m (some h)) := by
  have hself : ∀ a, some h = some a → a ∈ {a | a ∈ [h]} := by simp
  exact (agreeOff_setNext m _ hself).trans (agreeOff_setPrev _ _ hself)

theorem addBefore_agreeOff (hring : m.Ring h l) (hy : y ∈ h :: l) (x : α) :
    AgreeOff {a | a ∈ x :: h :: l} m (listAddBefore m (some y) (some x)) := by
  apply agreeOff_insert
  · intro a ha
    exact List.mem_cons_of_mem x (hring.prev_mem hy ha)
  · exact List.mem_cons_self
  · rintro a ⟨⟩
    exact List.mem_cons_of_mem x hy

theorem addAfter_agreeOff (hring : m.Ring h l) (hy : y ∈ h :: l)
    (hx : x ∉ h :: l) :
    AgreeOff {a | a ∈ x :: h :: l} m (listAddAfter m (some y) (some x)) := by
  rw [listAddAfter_of_ring hring hy hx]
  apply agreeOff_insert
  · rintro a ⟨⟩
    exact List.mem_cons_of_mem x hy
  · exact List.mem_cons_self
  · intro a ha
    exact List.mem_cons_of_mem x (hring.next_mem hy ha)

theorem remove_agreeOff (hring : m.Ring h (l₁ ++ x :: l₂)) :
    AgreeOff {a | a ∈ h :: (l₁ ++ x :: l₂)} m (listRemove m (some x)) := by
  have hx : x ∈ h :: (l₁ ++ x :: l₂) := by simp
  rw [listRemove_of_ring hring]
  exact agreeOff_unlink m (fun a ha => hring.prev_mem hx ha) hx
    (fun a ha => hring.next_mem hx ha)

/-! ## Runs -/

/-- The calls that write. -/
inductive Call (α : Type*) where
  | init (l : α)
  | addTail (head ele : α)
  | addHead (head ele : α)
  | addAfter (ele1 ele2 : α)
  | addBefore (ele1 ele2 : α)
  | remove (ele : α)
  | pop (head : α)

def Call.exec (m : Links α) : Call α → Links α
  | .init l => listInit m (some l)
  | .addTail head ele => listAddTail m (some head) (some ele)
  | .addHead head ele => listAddHead m (some head) (some ele)
  | .addAfter ele1 ele2 => listAddAfter m (some ele1) (some ele2)
  | .addBefore ele1 ele2 => listAddBefore m (some ele1) (some ele2)
  | .remove ele => listRemove m (some ele)
  | .pop head => (listPop m (some head)).2

/-- The sequence of each list head. -/
abbrev Lists (α : Type*) := α → Option (List α)

/-- `x` is neither a head nor an element of a list. -/
def Unlinked (lists : Lists α) (x : α) : Prop :=
  ∀ h l, lists h = some l → x ∉ h :: l

/-- What a call does to the sequences.  Only unlinked nodes are added, only
elements are removed. -/
inductive Effect (lists : Lists α) : Call α → Lists α → Prop
  | init {h : α} (hfree : Unlinked lists h ∨ lists h = some []) :
      Effect lists (.init h) (Function.update lists h (some []))
  | addTail {h x : α} {l : List α} (hh : lists h = some l)
      (hx : Unlinked lists x) :
      Effect lists (.addTail h x) (Function.update lists h (some (l ++ [x])))
  | addHead {h x : α} {l : List α} (hh : lists h = some l)
      (hx : Unlinked lists x) :
      Effect lists (.addHead h x) (Function.update lists h (some (x :: l)))
  | addAfter {h y x : α} {l₁ l₂ : List α}
      (hh : lists h = some (l₁ ++ y :: l₂)) (hx : Unlinked lists x) :
      Effect lists (.addAfter y x)
        (Function.update lists h (some (l₁ ++ y :: x :: l₂)))
  | addAfterHead {h x : α} {l : List α} (hh : lists h = some l)
      (hx : Unlinked lists x) :
      Effect lists (.addAfter h x) (Function.update lists h (some (x :: l)))
  | addBefore {h y x : α} {l₁ l₂ : List α}
      (hh : lists h = some (l₁ ++ y :: l₂)) (hx : Unlinked lists x) :
      Effect lists (.addBefore y x)
        (Function.update lists h (some (l₁ ++ x :: y :: l₂)))
  | addBeforeHead {h x : α} {l : List α} (hh : lists h = some l)
      (hx : Unlinked lists x) :
      Effect lists (.addBefore h x)
        (Function.update lists h (some (l ++ [x])))
  | remove {h x : α} {l₁ l₂ : List α}
      (hh : lists h = some (l₁ ++ x :: l₂)) :
      Effect lists (.remove x) (Function.update lists h (some (l₁ ++ l₂)))
  | popEmpty {h : α} (hh : lists h = some []) :
      Effect lists (.pop h) lists
  | pop {h x : α} {l : List α} (hh : lists h = some (x :: l)) :
      Effect lists (.pop h) (Function.update lists h (some l))

/-- The heap, and the sequences it is to hold. -/
structure State (α : Type*) where
  links : Links α
  lists : Lists α

def Step (s : State α) (call : Call α) (s' : State α) : Prop :=
  s'.links = call.exec s.links ∧ Effect s.lists call s'.lists

theorem step_of_effect {s : State α} {call : Call α} {lists : Lists α}
    (heffect : Effect s.lists call lists) :
    Step s call ⟨call.exec s.links, lists⟩ := ⟨rfl, heffect⟩

/-- No list has been made yet; the links are arbitrary. -/
def start (m : Links α) : State α := ⟨m, fun _ => none⟩

/-- The list of head `h` answers as the sequence `l` does. -/
structure Reads (m : Links α) (h : α) (l : List α) : Prop where
  nodup : (h :: l).Nodup
  forwards : ∀ fuel, l.length < fuel →
    ringNodes m.next h fuel (m.next (some h)) = some l
  backwards : ∀ fuel, l.length < fuel →
    ringNodes m.prev h fuel (m.prev (some h)) = some l.reverse
  front : listFront m (some h) = l.head?
  pop : (listPop m (some h)).1 = l.head?
  empty : listEmpty m (some h) = true ↔ l = []
  find : ∀ elem fuel, l.length < fuel →
    listFind m (some h) elem fuel = some (decide (elem ∈ l.map some))

/-- The heap holds the sequences, in lists without common nodes. -/
structure Represents (s : State α) : Prop where
  ring : ∀ h l, s.lists h = some l → s.links.Ring h l
  apart : ∀ h l h' l', s.lists h = some l → s.lists h' = some l' → h ≠ h' →
    (h :: l).Disjoint (h' :: l')

variable {s s' : State α}

theorem Represents.reads (hs : Represents s) (hh : s.lists h = some l) :
    Reads s.links h l where
  nodup := (hs.ring h l hh).nodup
  forwards _ hfuel := (hs.ring h l hh).nodes_next hfuel
  backwards _ hfuel := (hs.ring h l hh).nodes_prev hfuel
  front := listFront_eq (hs.ring h l hh)
  pop := by
    have hring := hs.ring h l hh
    cases l with
    | nil => rw [listPop_nil hring]; rfl
    | cons x l => rw [listPop_cons hring]; rfl
  empty := listEmpty_iff (hs.ring h l hh)
  find elem _ hfuel := listFind_eq (hs.ring h l hh) elem hfuel

/-- A call that turns one list into a ring of its old nodes and possibly some
that were in no list, and writes no other links. -/
theorem Represents.afterWrite (hs : Represents s) {S : List α}
    {m : Links α} (hring : m.Ring h l)
    (hagree : AgreeOff {a | a ∈ S} s.links m)
    (hnodes : ∀ a ∈ h :: l, a ∈ S)
    (hothers : ∀ h' l', h' ≠ h → s.lists h' = some l' →
      (h' :: l').Disjoint S) :
    Represents ⟨m, Function.update s.lists h (some l)⟩ := by
  constructor
  · intro h' l' hh'
    by_cases heq : h' = h
    · subst heq
      obtain rfl : l = l' := by simpa using hh'
      exact hring
    · have hold : s.lists h' = some l' := by
        simpa [Function.update_of_ne heq] using hh'
      refine hagree.ring (fun a ha haS => ?_) (hs.ring h' l' hold)
      exact hothers h' l' heq hold ha haS
  · intro h₁ l₁ h₂ l₂ hh₁ hh₂ hne
    by_cases heq₁ : h₁ = h
    · have heq₂ : h₂ ≠ h := fun heq => hne (heq₁.trans heq.symm)
      subst heq₁
      obtain rfl : l = l₁ := by simpa using hh₁
      have hold : s.lists h₂ = some l₂ := by
        simpa [Function.update_of_ne heq₂] using hh₂
      exact fun a ha hb => hothers h₂ l₂ heq₂ hold hb (hnodes a ha)
    · have hold₁ : s.lists h₁ = some l₁ := by
        simpa [Function.update_of_ne heq₁] using hh₁
      by_cases heq₂ : h₂ = h
      · subst heq₂
        obtain rfl : l = l₂ := by simpa using hh₂
        exact fun a ha hb => hothers h₁ l₁ heq₁ hold₁ ha (hnodes a hb)
      · have hold₂ : s.lists h₂ = some l₂ := by
          simpa [Function.update_of_ne heq₂] using hh₂
        exact hs.apart h₁ l₁ h₂ l₂ hold₁ hold₂ hne

omit [DecidableEq α] in
/-- An unlinked node and the nodes of one list are met in no other list. -/
theorem Represents.disjoint_cons (hs : Represents s)
    (hh : s.lists h = some l) (hx : Unlinked s.lists x) {h' : α}
    {l' : List α} (hne : h' ≠ h) (hh' : s.lists h' = some l') :
    (h' :: l').Disjoint (x :: h :: l) := by
  intro a ha hb
  rcases List.mem_cons.mp hb with rfl | hb
  · exact hx h' l' hh' ha
  · exact hs.apart h' l' h l hh' hh hne ha hb

/-- Adding a node, anywhere in the list of head `h`. -/
theorem Represents.afterAdd (hs : Represents s) {m : Links α}
    {l' : List α} (hh : s.lists h = some l) (hx : Unlinked s.lists x)
    (hring : m.Ring h l') (hnodes : ∀ a ∈ h :: l', a ∈ x :: h :: l)
    (hagree : AgreeOff {a | a ∈ x :: h :: l} s.links m) :
    Represents ⟨m, Function.update s.lists h (some l')⟩ :=
  hs.afterWrite hring hagree hnodes
    (fun _ _ hne hh' => hs.disjoint_cons hh hx hne hh')

theorem Represents.afterInit (hs : Represents s)
    (hfree : Unlinked s.lists h ∨ s.lists h = some []) :
    Represents ⟨listInit s.links (some h),
      Function.update s.lists h (some [])⟩ := by
  refine hs.afterWrite (init_ring s.links h) (init_agreeOff s.links h)
    (fun a ha => ha) ?_
  intro h' l' hne hh'
  rcases hfree with hfree | hh
  · intro a ha hb
    obtain rfl : a = h := by simpa using hb
    exact hfree h' l' hh' ha
  · exact hs.apart h' l' h [] hh' hh hne

theorem Represents.afterRemove (hs : Represents s)
    (hh : s.lists h = some (l₁ ++ x :: l₂)) :
    Represents ⟨listRemove s.links (some x),
      Function.update s.lists h (some (l₁ ++ l₂))⟩ := by
  have hring := hs.ring h _ hh
  refine hs.afterWrite (remove_ring hring) (remove_agreeOff hring) ?_
    (fun h' l' hne hh' => hs.apart h' l' h _ hh' hh hne)
  intro a ha
  simp only [List.mem_cons, List.mem_append] at ha ⊢
  tauto

theorem Represents.afterStep (hs : Represents s) {call : Call α}
    (hstep : Step s call s') : Represents s' := by
  obtain ⟨m', lists'⟩ := s'
  obtain ⟨hm : m' = call.exec s.links, heffect⟩ := hstep
  subst hm
  cases heffect with
  | init hfree => exact hs.afterInit hfree
  | addTail hh hx =>
      have hring := hs.ring _ _ hh
      exact hs.afterAdd hh hx (addTail_ring hring (hx _ _ hh)) (by grind)
        (addBefore_agreeOff hring List.mem_cons_self _)
  | addHead hh hx =>
      have hring := hs.ring _ _ hh
      exact hs.afterAdd hh hx (addHead_ring hring (hx _ _ hh)) (by grind)
        (addAfter_agreeOff hring List.mem_cons_self (hx _ _ hh))
  | addAfter hh hx =>
      have hring := hs.ring _ _ hh
      exact hs.afterAdd hh hx (addAfter_ring hring (hx _ _ hh)) (by grind)
        (addAfter_agreeOff hring (by simp) (hx _ _ hh))
  | addAfterHead hh hx =>
      have hring := hs.ring _ _ hh
      exact hs.afterAdd hh hx (addHead_ring hring (hx _ _ hh)) (by grind)
        (addAfter_agreeOff hring List.mem_cons_self (hx _ _ hh))
  | addBefore hh hx =>
      have hring := hs.ring _ _ hh
      exact hs.afterAdd hh hx (addBefore_ring hring (hx _ _ hh)) (by grind)
        (addBefore_agreeOff hring (by simp) _)
  | addBeforeHead hh hx =>
      have hring := hs.ring _ _ hh
      exact hs.afterAdd hh hx (addTail_ring hring (hx _ _ hh)) (by grind)
        (addBefore_agreeOff hring List.mem_cons_self _)
  | remove hh => exact hs.afterRemove hh
  | popEmpty hh =>
      simp only [Call.exec, listPop_nil (hs.ring _ _ hh)]
      exact hs
  | pop hh =>
      simp only [Call.exec, listPop_cons (hs.ring _ _ hh)]
      exact hs.afterRemove (show _ = some ([] ++ _ :: _) from hh)

/-- The heap reached by any calls holds the sequences the calls make, each
list on its own. -/
theorem lists_refine_sequences {m : Links α} {calls : List (Call α)}
    {s : State α} (hrun : Run Step (start m) calls s) :
    (∀ h l, s.lists h = some l → Reads s.links h l) ∧
      ∀ h l h' l', s.lists h = some l → s.lists h' = some l' → h ≠ h' →
        (h :: l).Disjoint (h' :: l') := by
  have hs : Represents s :=
    hrun.invariant Represents (fun _ _ _ hs hstep => hs.afterStep hstep)
      ⟨by simp [start], by simp [start]⟩
  exact ⟨fun h l hh => hs.reads hh, hs.apart⟩

theorem Unlinked.update {lists : Lists α} (hx : Unlinked lists x)
    (hnot : x ∉ h :: l) :
    Unlinked (Function.update lists h (some l)) x := by
  intro h' l' hh'
  by_cases heq : h' = h
  · subst heq
    obtain rfl : l = l' := by simpa using hh'
    exact hnot
  · exact hx h' l' (by simpa [Function.update_of_ne heq] using hh')

/-- Two lists; the second element of the first one is left after a `pop`. -/
theorem lists_refine_two_lists :
    ∃ s : State ℕ, Run Step (start ⟨fun _ => none, fun _ => none⟩)
      [.init 0, .init 1, .addTail 0 2, .addAfter 2 3, .pop 0] s ∧
      s.lists 0 = some [3] ∧ Reads s.links 0 [3] ∧ Reads s.links 1 [] := by
  have hstart : ∀ x : ℕ, Unlinked (fun _ => none) x := by
    intro x h l hh
    cases hh
  have hfresh : ∀ x : ℕ, 1 < x → Unlinked (Function.update
      (Function.update (fun _ => none) 0 (some [])) 1 (some [])) x := by
    intro x hx
    exact ((hstart x).update (by simp; omega)).update (by simp; omega)
  have hinit : Run Step (start ⟨fun _ => none, fun _ => none⟩) [.init 0, .init 1]
      ⟨_, Function.update (Function.update (fun _ => none) 0 (some [])) 1
        (some [])⟩ :=
    .snoc (.snoc .nil (step_of_effect (s := start _) (.init (.inl (hstart 0)))))
      (step_of_effect (.init (.inl ((hstart 1).update (h := 0) (by simp)))))
  have hrun := ((hinit.snoc
    (step_of_effect (.addTail (h := 0) (x := 2) rfl (hfresh 2 (by omega))))).snoc
    (step_of_effect (@Effect.addAfter _ _ _ 0 2 3 [] [] rfl
      ((hfresh 3 (by omega)).update (by simp))))).snoc
    (step_of_effect (.pop (h := 0) rfl))
  have hreads := (lists_refine_sequences hrun).1
  exact ⟨_, hrun, rfl, hreads 0 [3] rfl, hreads 1 [] rfl⟩

end IntrusiveList
end OS32
