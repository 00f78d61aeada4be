import Mathlib.Tactic

/-!
# Doubly linked, NULL-terminated lists

Nodes of an arbitrary type `α` carry a `next` and a `prev` pointer; a pointer
is an `Option α` and `none` is the null pointer.  A memory of links is total
on pointers: the entry at `none` is what an access through the null pointer
reads or writes, so the surgery below needs no side condition to be run.

The predicate `Links.Seg` says that a stretch of memory lists given nodes,
forwards by `next` and backwards by `prev`.  The operations are the usual
statements on such lists: walking, cutting a list in front of a node, and
joining two lists.
-/

namespace NullList

variable {α : Type*}

/-- The link fields of all nodes. -/
structure Links (α : Type*) where
  next : Option α → Option α
  prev : Option α → Option α

namespace Links

section Operations

variable [DecidableEq α]

/-- `p->next = q;` -/
def setNext (m : Links α) (p q : Option α) : Links α :=
  { m with next := Function.update m.next p q }

/-- `p->prev = q;` -/
def setPrev (m : Links α) (p q : Option α) : Links α :=
  { m with prev := Function.update m.prev p q }

/-- `p->prev->next = NULL; p->prev = NULL;` -/
def cutBefore (m : Links α) (p : Option α) : Links α :=
  (m.setNext (m.prev p) none).setPrev p none

/-- `p->prev->next = v; v->prev = p->prev; p->prev = v; v->next = p;` -/
def insertBefore (m : Links α) (p v : Option α) : Links α :=
  (((m.setNext (m.prev p) v).setPrev v (m.prev p)).setPrev p v).setNext v p

/-- `p->next = q; q->prev = p;` -/
def join (m : Links α) (p q : Option α) : Links α :=
  (m.setNext p q).setPrev q p

end Operations

/-- `p = p->next;`, `n` times. -/
def advance (m : Links α) : ℕ → Option α → Option α
  | 0, p => p
  | n + 1, p => m.advance n (m.next p)

/-- `while(p->next != NULL) p = p->next;`, ended after `fuel` steps. -/
def tail (m : Links α) : ℕ → Option α → Option (Option α)
  | 0, _ => none
  | fuel + 1, p =>
      match m.next p with
      | none => some p
      | some a => m.tail fuel (some a)

/-- The nodes met by `while(p != NULL) p = p->next;`, ended after `fuel`
steps. -/
def nodes (m : Links α) : ℕ → Option α → Option (List α)
  | 0, _ => none
  | _ + 1, none => some []
  | fuel + 1, some a => (m.nodes fuel (m.next (some a))).map (a :: ·)

theorem mem_of_nodes {m : Links α} {fuel : ℕ} {a : α} {l : List α}
    (hnodes : m.nodes fuel (some a) = some l) : a ∈ l := by
  cases fuel with
  | zero => cases hnodes
  | succ fuel =>
      obtain ⟨rest, _, rfl⟩ := Option.map_eq_some_iff.mp hnodes
      exact List.mem_cons_self

/-! ## Segments and chains -/

/-- From the pointer `p`, reached from `before`, the links list exactly the
nodes `l` and lead on to `after`. -/
def Seg (m : Links α) : Option α → Option α → List α → Option α → Prop
  | _, p, [], after => p = after
  | before, p, a :: l, after =>
      p = some a ∧ m.prev (some a) = before ∧
        m.Seg (some a) (m.next (some a)) l after

/-- A segment which ends in the null pointer. -/
def Chain (m : Links α) (before p : Option α) (l : List α) : Prop :=
  m.Seg before p l none

/-- The pointer to the last node of `l`, or `before` if there is none. -/
def lastPtr (before : Option α) (l : List α) : Option α :=
  l.getLast?.or before

@[simp] theorem seg_nil {m : Links α} {before p after : Option α} :
    m.Seg before p [] after ↔ p = after := Iff.rfl

@[simp] theorem seg_cons {m : Links α} {before p after : Option α}
    {a : α} {l : List α} :
    m.Seg before p (a :: l) after ↔
      p = some a ∧ m.prev (some a) = before ∧
        m.Seg (some a) (m.next (some a)) l after := Iff.rfl

@[simp] theorem chain_nil {m : Links α} {before p : Option α} :
    m.Chain before p [] ↔ p = none := Iff.rfl

@[simp] theorem chain_cons {m : Links α} {before p : Option α}
    {a : α} {l : List α} :
    m.Chain before p (a :: l) ↔
      p = some a ∧ m.prev (some a) = before ∧
        m.Chain (some a) (m.next (some a)) l := Iff.rfl

@[simp] theorem lastPtr_nil (before : Option α) :
    lastPtr before ([] : List α) = before := rfl

@[simp] theorem lastPtr_concat (before : Option α) (l : List α) (a : α) :
    lastPtr before (l ++ [a]) = some a := by
  simp [lastPtr]

theorem lastPtr_cons (before : Option α) (a : α) (l : List α) :
    lastPtr before (a :: l) = lastPtr (some a) l := by
  cases l using List.reverseRecOn with
  | nil => rfl
  | append_singleton l b =>
      rw [← List.cons_append, lastPtr_concat, lastPtr_concat]

theorem Chain.head? {m : Links α} {before p : Option α} {l : List α}
    (hchain : m.Chain before p l) : p = l.head? := by
  cases l with
  | nil => exact hchain
  | cons a l => exact hchain.1

theorem Chain.ne_nil {m : Links α} {before p : Option α} {l : List α}
    (hchain : m.Chain before p l) (hp : p ≠ none) : l ≠ [] := by
  rintro rfl
  exact hp hchain

theorem Chain.eq_nil {m : Links α} {before p : Option α} {l : List α}
    (hchain : m.Chain before p l) (hp : p = none) : l = [] := by
  cases l with
  | nil => rfl
  | cons a l => exact absurd (hchain.1.symm.trans hp) nofun

theorem seg_append {m : Links α} {before p after : Option α}
    {l₁ l₂ : List α} :
    m.Seg before p (l₁ ++ l₂) after ↔
      ∃ q, m.Seg before p l₁ q ∧
        m.Seg (lastPtr before l₁) q l₂ after := by
  induction l₁ generalizing before p with
  | nil => simp
  | cons a l₁ ih =>
      simp only [List.cons_append, seg_cons, ih, lastPtr_cons]
      constructor
      · rintro ⟨hp, hprev, q, hfirst, hsecond⟩
        exact ⟨q, ⟨hp, hprev, hfirst⟩, hsecond⟩
      · rintro ⟨q, ⟨hp, hprev, hfirst⟩, hsecond⟩
        exact ⟨hp, hprev, q, hfirst, hsecond⟩

theorem chain_append {m : Links α} {before p : Option α}
    {l₁ l₂ : List α} :
    m.Chain before p (l₁ ++ l₂) ↔
      ∃ q, m.Seg before p l₁ q ∧ m.Chain (lastPtr before l₁) q l₂ :=
  seg_append

/-- A segment depends only on the links of the nodes it lists. -/
theorem Seg.congr {m m' : Links α} {before p after : Option α} {l : List α}
    (hseg : m.Seg before p l after)
    (hnext : ∀ a ∈ l, m'.next (some a) = m.next (some a))
    (hprev : ∀ a ∈ l, m'.prev (some a) = m.prev (some a)) :
    m'.Seg before p l after := by
  induction l generalizing before p with
  | nil => exact hseg
  | cons a l ih =>
      obtain ⟨hp, hbefore, hrest⟩ := hseg
      refine ⟨hp, (hprev a (by simp)).trans hbefore, ?_⟩
      rw [hnext a (by simp)]
      exact ih hrest (fun b hb => hnext b (by simp [hb]))
        (fun b hb => hprev b (by simp [hb]))

theorem Chain.congr {m m' : Links α} {before p : Option α} {l : List α}
    (hchain : m.Chain before p l)
    (hnext : ∀ a ∈ l, m'.next (some a) = m.next (some a))
    (hprev : ∀ a ∈ l, m'.prev (some a) = m.prev (some a)) :
    m'.Chain before p l :=
  Seg.congr hchain hnext hprev

/-- The nodes of a chain are determined by its first pointer. -/
theorem Chain.unique {m : Links α} {before before' p : Option α}
    {l l' : List α} (hl : m.Chain before p l) (hl' : m.Chain before' p l') :
    l = l' := by
  induction l generalizing before before' p l' with
  | nil =>
      cases l' with
      | nil => rfl
      | cons a l' => simp_all
  | cons a l ih =>
      cases l' with
      | nil => simp_all
      | cons b l' =>
          obtain ⟨hp, _, hrest⟩ := hl
          obtain ⟨hp', _, hrest'⟩ := hl'
          have hab : a = b := by simpa [hp] using hp'
          subst hab
          rw [ih hrest hrest']

/-- A chain ends in the null pointer, so no node occurs twice in it: the
nodes that follow two occurrences would be the same list. -/
theorem Chain.nodup {m : Links α} {before p : Option α} {l : List α}
    (hchain : m.Chain before p l) : l.Nodup := by
  induction l generalizing before p with
  | nil => exact List.nodup_nil
  | cons a l ih =>
      obtain ⟨_, _, hrest⟩ := chain_cons.mp hchain
      refine List.nodup_cons.mpr ⟨?_, ih hrest⟩
      intro hmem
      obtain ⟨l₁, l₂, rfl⟩ := List.append_of_mem hmem
      obtain ⟨q, _, htail⟩ := chain_append.mp hrest
      obtain ⟨_, _, hend⟩ := chain_cons.mp htail
      have hsame : l₂ = l₁ ++ a :: l₂ := hend.unique hrest
      have hlength := congrArg List.length hsame
      simp at hlength
      omega

/-! ## Walking -/

theorem Seg.advance {m : Links α} {before p after : Option α} {l : List α}
    (hseg : m.Seg before p l after) : m.advance l.length p = after := by
  induction l generalizing before p with
  | nil => exact hseg
  | cons a l ih =>
      obtain ⟨rfl, _, hrest⟩ := hseg
      exact ih hrest

theorem Chain.nodes_eq {m : Links α} {before p : Option α} {l : List α}
    (hchain : m.Chain before p l) {fuel : ℕ} (hfuel : l.length < fuel) :
    m.nodes fuel p = some l := by
  induction l generalizing before p fuel with
  | nil =>
      cases fuel with
      | zero => simp at hfuel
      | succ fuel => rw [chain_nil.mp hchain]; rfl
  | cons a l ih =>
      obtain ⟨rfl, _, hrest⟩ := hchain
      cases fuel with
      | zero => simp at hfuel
      | succ fuel =>
          simp only [nodes]
          rw [ih hrest (by simpa using hfuel)]
          rfl

theorem Chain.tail_eq {m : Links α} {before p : Option α} {l : List α}
    (hchain : m.Chain before p l) (hl : l ≠ []) {fuel : ℕ}
    (hfuel : l.length ≤ fuel) :
    m.tail fuel p = some (lastPtr before l) := by
  induction l generalizing before p fuel with
  | nil => exact absurd rfl hl
  | cons a l ih =>
      obtain ⟨rfl, _, hrest⟩ := hchain
      cases fuel with
      | zero => simp at hfuel
      | succ fuel =>
          simp only [tail]
          cases l with
          | nil => rw [chain_nil.mp hrest]; rfl
          | cons b l =>
              have hb : m.next (some a) = some b := hrest.1
              rw [hb] at hrest ⊢
              simp only
              rw [ih hrest (by simp) (by simpa using hfuel),
            lastPtr_cons before]

/-! ## Frames -/

/-- The links of the nodes outside `S` are the same in both memories. -/
def AgreeOff (S : Set α) (m m' : Links α) : Prop :=
  ∀ a ∉ S, m'.next (some a) = m.next (some a) ∧
    m'.prev (some a) = m.prev (some a)

theorem AgreeOff.refl (S : Set α) (m : Links α) : AgreeOff S m m :=
  fun _ _ => ⟨rfl, rfl⟩

theorem AgreeOff.trans {S : Set α} {m₁ m₂ m₃ : Links α}
    (h₁ : AgreeOff S m₁ m₂) (h₂ : AgreeOff S m₂ m₃) :
    AgreeOff S m₁ m₃ :=
  fun a ha => ⟨(h₂ a ha).1.trans (h₁ a ha).1,
    (h₂ a ha).2.trans (h₁ a ha).2⟩

theorem AgreeOff.mono {S T : Set α} {m m' : Links α} (hST : S ⊆ T)
    (h : AgreeOff S m m') : AgreeOff T m m' :=
  fun a ha => h a (fun haS => ha (hST haS))

theorem AgreeOff.chain {S : Set α} {m m' : Links α}
    (h : AgreeOff S m m') {before p : Option α} {l : List α}
    (hl : ∀ a ∈ l, a ∉ S) (hchain : m.Chain before p l) :
    m'.Chain before p l :=
  hchain.congr (fun a ha => (h a (hl a ha)).1)
    (fun a ha => (h a (hl a ha)).2)

/-! ## Surgery -/

section Surgery

variable [DecidableEq α]

@[simp] theorem setNext_prev (m : Links α) (p q : Option α) :
    (m.setNext p q).prev = m.prev := rfl

@[simp] theorem setPrev_next (m : Links α) (p q : Option α) :
    (m.setPrev p q).next = m.next := rfl

@[simp] theorem setNext_next_self (m : Links α) (p q : Option α) :
    (m.setNext p q).next p = q := by simp [setNext]

@[simp] theorem setPrev_prev_self (m : Links α) (p q : Option α) :
    (m.setPrev p q).prev p = q := by simp [setPrev]

theorem setNext_next_of_ne (m : Links α) {p r : Option α} (q : Option α)
    (h : r ≠ p) : (m.setNext p q).next r = m.next r := by
  simp [setNext, h]

theorem setPrev_prev_of_ne (m : Links α) {p r : Option α} (q : Option α)
    (h : r ≠ p) : (m.setPrev p q).prev r = m.prev r := by
  simp [setPrev, h]

/-- Writing a `next` field outside a segment leaves the segment alone. -/
theorem Seg.setNext {m : Links α} {before p after : Option α} {l : List α}
    (hseg : m.Seg before p l after) {r : Option α} (q : Option α)
    (hr : ∀ a ∈ l, some a ≠ r) : (m.setNext r q).Seg before p l after :=
  hseg.congr (fun a ha => m.setNext_next_of_ne q (hr a ha))
    (fun _ _ => rfl)

/-- Writing a `prev` field outside a segment leaves the segment alone. -/
theorem Seg.setPrev {m : Links α} {before p after : Option α} {l : List α}
    (hseg : m.Seg before p l after) {r : Option α} (q : Option α)
    (hr : ∀ a ∈ l, some a ≠ r) : (m.setPrev r q).Seg before p l after :=
  hseg.congr (fun _ _ => rfl)
    (fun a ha => m.setPrev_prev_of_ne q (hr a ha))

theorem Chain.setNext {m : Links α} {before p : Option α} {l : List α}
    (hchain : m.Chain before p l) {r : Option α} (q : Option α)
    (hr : ∀ a ∈ l, some a ≠ r) : (m.setNext r q).Chain before p l :=
  Seg.setNext hchain q hr

theorem Chain.setPrev {m : Links α} {before p : Option α} {l : List α}
    (hchain : m.Chain before p l) {r : Option α} (q : Option α)
    (hr : ∀ a ∈ l, some a ≠ r) : (m.setPrev r q).Chain before p l :=
  Seg.setPrev hchain q hr

/-- Overwriting the `prev` field of the first node changes what the chain is
reached from. -/
theorem Chain.setPrev_head {m : Links α} {before p : Option α} {a : α}
    {l : List α} (hchain : m.Chain before p (a :: l)) (q : Option α) :
    (m.setPrev (some a) q).Chain q p (a :: l) := by
  have hnodup := hchain.nodup
  obtain ⟨hp, _, hrest⟩ := hchain
  refine ⟨hp, by simp, ?_⟩
  apply Chain.setPrev hrest
  rintro b hb heq
  obtain rfl : b = a := by simpa using heq
  exact (List.nodup_cons.mp hnodup).1 hb

/-- Overwriting the `next` field of the last node of a segment redirects the
segment. -/
theorem Seg.setNext_last {m : Links α} {before p after : Option α} {a : α}
    {l : List α} (hseg : m.Seg before p (l ++ [a]) after)
    (ha : a ∉ l) (q : Option α) :
    (m.setNext (some a) q).Seg before p (l ++ [a]) q := by
  obtain ⟨r, hfirst, hr, hprev, _⟩ := seg_append.mp hseg
  refine seg_append.mpr ⟨r, hfirst.setNext q ?_, hr, hprev, by simp⟩
  rintro b hb heq
  obtain rfl : b = a := by simpa using heq
  exact ha hb

/-- Cutting a chain in front of one of its nodes leaves the nodes before the
cut in one chain and the others in a chain of their own. -/
theorem Chain.cutBefore {m : Links α} {before p : Option α} {l₁ l₂ : List α}
    {x : α} (hl₁ : l₁ ≠ [])
    (hchain : m.Chain before p (l₁ ++ x :: l₂)) :
    (m.cutBefore (some x)).Chain before p l₁ ∧
      (m.cutBefore (some x)).Chain none (some x) (x :: l₂) := by
  have hnodup := hchain.nodup
  obtain ⟨l, y, rfl⟩ : ∃ l y, l₁ = l ++ [y] :=
    ⟨_, _, (List.dropLast_append_getLast hl₁).symm⟩
  have hxnot : ∀ a ∈ l ++ [y], a ≠ x := by
    rintro a ha rfl
    exact (List.nodup_append.mp hnodup).2.2 a ha a (by simp) rfl
  have hynot : ∀ a ∈ x :: l₂, a ≠ y := by
    rintro a ha rfl
    exact (List.nodup_append.mp hnodup).2.2 a (by simp) a ha rfl
  obtain ⟨q, hfirst, hsecond⟩ := chain_append.mp hchain
  have hq : q = some x := hsecond.1
  have hprev : m.prev (some x) = some y := by
    simpa using hsecond.2.1
  have hylast : y ∉ l := by
    have := (List.nodup_append.mp hnodup).1
    rw [List.nodup_append] at this
    intro hy
    exact this.2.2 y hy y (by simp) rfl
  unfold Links.cutBefore
  rw [hprev]
  constructor
  · refine Seg.setPrev (hfirst.setNext_last hylast none) none ?_
    intro a ha
    simpa using hxnot a ha
  · rw [hq] at hsecond
    have hkept : (m.setNext (some y) none).Chain
        (lastPtr before (l ++ [y])) (some x) (x :: l₂) :=
      hsecond.setNext none (fun a ha => by simpa using hynot a ha)
    exact hkept.setPrev_head none

/-- Joining the last node of a segment to the first node of a chain, whatever
the segment led to. -/
theorem Seg.join {m : Links α} {before before' p after : Option α}
    {l₁ l₂ : List α} {y x : α}
    (hfirst : m.Seg before p (l₁ ++ [y]) after)
    (hsecond : m.Chain before' (some x) (x :: l₂))
    (hnodup : (l₁ ++ [y] ++ x :: l₂).Nodup) :
    (m.join (some y) (some x)).Chain before p (l₁ ++ [y] ++ x :: l₂) := by
  obtain ⟨hfirstNodup, _, hdisjoint⟩ := List.nodup_append.mp hnodup
  have hylast : y ∉ l₁ := fun hy =>
    (List.nodup_append.mp hfirstNodup).2.2 y hy y (by simp) rfl
  refine chain_append.mpr ⟨some x, ?_, ?_⟩
  · refine Seg.setPrev (hfirst.setNext_last hylast (some x)) (some y) ?_
    rintro a ha heq
    exact hdisjoint a ha x (by simp) (Option.some.inj heq)
  · rw [lastPtr_concat]
    have hkept : (m.setNext (some y) (some x)).Chain before' (some x)
        (x :: l₂) := by
      refine hsecond.setNext (some x) ?_
      rintro a ha heq
      exact hdisjoint y (by simp) a ha (Option.some.inj heq).symm
    exact hkept.setPrev_head (some y)

/-- Joining the last node of one chain to the first node of another. -/
theorem Chain.join {m : Links α} {before before' p : Option α}
    {l₁ l₂ : List α} {y x : α}
    (hfirst : m.Chain before p (l₁ ++ [y]))
    (hsecond : m.Chain before' (some x) (x :: l₂))
    (hdisjoint : ∀ a ∈ l₁ ++ [y], a ∉ x :: l₂) :
    (m.join (some y) (some x)).Chain before p (l₁ ++ [y] ++ x :: l₂) := by
  refine Seg.join hfirst hsecond ?_
  refine List.nodup_append.mpr ⟨hfirst.nodup, hsecond.nodup, ?_⟩
  rintro a ha b hb rfl
  exact hdisjoint a ha hb

/-- A node of no chain goes in front of the first one of a chain. -/
theorem Chain.insert_head {m : Links α} {before p : Option α} {l : List α}
    {a v : α} (hchain : m.Chain before p (a :: l)) (hv : v ∉ a :: l) :
    ((m.setNext (some v) p).setPrev p (some v)).Chain
      (m.prev (some v)) (some v) (v :: a :: l) := by
  obtain rfl : p = some a := hchain.1
  have hva : some v ≠ some a := fun heq =>
    hv (Option.some.inj heq ▸ List.mem_cons_self)
  refine ⟨rfl, setPrev_prev_of_ne _ _ hva, ?_⟩
  rw [setPrev_next, setNext_next_self]
  refine (hchain.setNext (some a) ?_).setPrev_head (some v)
  rintro b hb heq
  exact hv (Option.some.inj heq ▸ hb)

/-- A node of no chain goes in front of a later one of a chain. -/
theorem Chain.insertBefore {m : Links α} {before p : Option α}
    {l₁ l₂ : List α} {y a v : α}
    (hchain : m.Chain before p (l₁ ++ [y] ++ a :: l₂))
    (hv : v ∉ l₁ ++ [y] ++ a :: l₂) :
    (m.insertBefore (some a) (some v)).Chain before p
      (l₁ ++ [y] ++ v :: a :: l₂) := by
  have hnodup := hchain.nodup
  obtain ⟨q, hfirst, hsecond⟩ := chain_append.mp hchain
  obtain ⟨rfl, hprev, _⟩ := chain_cons.mp hsecond
  rw [lastPtr_concat] at hprev hsecond
  obtain ⟨hfirstNodup, hsecondNodup, hacross⟩ := List.nodup_append.mp hnodup
  have hylast : y ∉ l₁ := fun hy =>
    (List.nodup_append.mp hfirstNodup).2.2 y hy y (List.mem_singleton.mpr rfl)
      rfl
  have hva : some v ≠ some a := by
    rintro heq
    exact hv (Option.some.inj heq ▸ by simp)
  have hvfirst : ∀ b ∈ l₁ ++ [y], some b ≠ some v := by
    rintro b hb heq
    exact hv (Option.some.inj heq ▸ List.mem_append_left _ hb)
  have hvsecond : ∀ b ∈ a :: l₂, some b ≠ some v := by
    rintro b hb heq
    exact hv (Option.some.inj heq ▸ List.mem_append_right _ hb)
  have hafirst : ∀ b ∈ l₁ ++ [y], some b ≠ some a := by
    rintro b hb heq
    exact hacross b hb a List.mem_cons_self (Option.some.inj heq)
  have hysecond : ∀ b ∈ a :: l₂, some b ≠ some y := by
    rintro b hb heq
    exact hacross y (by simp) b hb (Option.some.inj heq).symm
  unfold Links.insertBefore
  rw [hprev]
  refine chain_append.mpr ⟨some v, ?_, rfl, ?_, ?_⟩
  · exact (((hfirst.setNext_last hylast (some v)).setPrev (some y)
      hvfirst).setPrev (some v) hafirst).setNext (some a) hvfirst
  · rw [lastPtr_concat, setNext_prev, setPrev_prev_of_ne _ _ hva,
      setPrev_prev_self]
  · rw [setNext_next_self]
    exact (((hsecond.setNext (some v) hysecond).setPrev (some y)
      hvsecond).setPrev_head (some v)).setNext (some a) hvsecond

/-- Writing the links of a node of `S`, or those of the null node, is not seen
outside `S`. -/
theorem agreeOff_setNext {S : Set α} (m : Links α) {p : Option α}
    (q : Option α) (hp : ∀ a, p = some a → a ∈ S) :
    AgreeOff S m (m.setNext p q) := by
  intro a ha
  refine ⟨m.setNext_next_of_ne q ?_, rfl⟩
  rintro rfl
  exact ha (hp a rfl)

theorem agreeOff_setPrev {S : Set α} (m : Links α) {p : Option α}
    (q : Option α) (hp : ∀ a, p = some a → a ∈ S) :
    AgreeOff S m (m.setPrev p q) := by
  intro a ha
  refine ⟨rfl, m.setPrev_prev_of_ne q ?_⟩
  rintro rfl
  exact ha (hp a rfl)

theorem agreeOff_join {S : Set α} (m : Links α) {p q : Option α}
    (hp : ∀ a, p = some a → a ∈ S) (hq : ∀ a, q = some a → a ∈ S) :
    AgreeOff S m (m.join p q) :=
  (agreeOff_setNext m q hp).trans (agreeOff_setPrev _ p hq)

theorem Chain.agreeOff_cutBefore {m : Links α} {p : Option α}
    {l₁ l₂ : List α} {x : α}
    (hchain : m.Chain none p (l₁ ++ x :: l₂)) :
    AgreeOff {a | a ∈ l₁ ++ x :: l₂} m (m.cutBefore (some x)) := by
  have hx : ∀ a, some x = some a → a ∈ {a | a ∈ l₁ ++ x :: l₂} := by
    rintro a heq
    obtain rfl : x = a := by simpa using heq
    simp
  refine (agreeOff_setNext m none ?_).trans (agreeOff_setPrev _ none hx)
  intro a ha
  obtain ⟨_, _, hsecond⟩ := chain_append.mp hchain
  rw [hsecond.2.1] at ha
  have hmem : a ∈ l₁ := by
    rw [lastPtr, Option.or_none] at ha
    exact List.mem_of_getLast? ha
  simp [hmem]

end Surgery

end Links

end NullList
