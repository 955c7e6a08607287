import Simmis.Library.Runs
import Simmis.Library.Table
import Simmis.Library.Forest

/-!
# The outline of a wiki

A block names its parent, a block or a page, and its place among the children of the parent is its
order key. All that is used of the generator of keys is that a new key is strictly between its
neighbours.
-/

namespace Simmis.Wiki

open List Option Table

/-- `generate-key-between`; an absent neighbour is the end of the list. -/
structure KeyGenerator (K : Type) [LinearOrder K] where
  between : Option K → Option K → K
  between_spec : ∀ a b : Option K, (∀ x ∈ a, ∀ y ∈ b, x < y) →
    (∀ x ∈ a, x < between a b) ∧ ∀ y ∈ b, between a b < y

/-- An entity. A page is one that has a title. -/
structure Block (U K T : Type) where
  id : U
  parent : Option U
  order : Option K
  title : Option T
deriving DecidableEq, Repr

abbrev Outline (U K T : Type) [DecidableEq U] := Table (Block.id (U := U) (K := K) (T := T))

section

variable {U K T : Type} [DecidableEq U] [LinearOrder K] (keys : KeyGenerator K)
  (t : Outline U K T)

namespace Outline

def parent (u : U) : Option U := (t.get u).bind Block.parent

/-- The order keys of the children of `p`. -/
def childOrders (p : U) : List K := (t.select fun r ↦ r.parent = some p).filterMap Block.order

def maxOrder (p : U) : Option K := (t.childOrders p).max?

/-- The least key of a child of `p` above `after`; every key is above nil. -/
def nextOrder (p : U) (after : Option K) : Option K :=
  ((t.childOrders p).filter fun o ↦ after.all (· < o)).min?

variable (parent : Option U)

/-- The other children of `parent` with a key on one side; none for nil. -/
def siblings (current : U) (side : K → Bool) : List (Block U K T) :=
  t.select fun r ↦ parent.isSome && r.parent = parent && r.order.any side && r.id ≠ current

/-- A sibling on one side such that no other one there is nearer. -/
def nearest (current : U) (side : K → Bool) (nearer : K → K → Bool) : Option (Block U K T) :=
  (t.siblings parent current side).find? fun r ↦
    (t.siblings parent current side).all fun other ↦
      !(other.order.any fun o ↦ r.order.any (nearer o))

/-- The last sibling before `position`; nothing is before nil. -/
def prevSibling (position : Option K) (current : U) : Option (Block U K T) :=
  t.nearest parent current (fun o ↦ position.any (o < ·)) fun o r ↦ r < o

/-- The first sibling after `position`. -/
def nextSibling (position : Option K) (current : U) : Option (Block U K T) :=
  t.nearest parent current (fun o ↦ position.all (· < o)) fun o r ↦ o < r

/-- `create-block!` under a parent that is there, with an unused id. -/
def createBlock (parent id : U) (order : K) : Option (Outline U K T) :=
  if (t.get parent).isSome && (t.get id).isNone then
    some (t.put { id, parent := some parent, order := some order, title := none })
  else none

/-- `create-block` without a position. -/
def append (parent id : U) : Option (Outline U K T) :=
  t.createBlock parent id (keys.between (t.maxOrder parent) none)

/-- `create-block` after the position `after`. -/
def insertAfter (parent : U) (after : K) (id : U) : Option (Outline U K T) :=
  t.createBlock parent id (keys.between (some after) (t.nextOrder parent (some after)))

/-- `create-sibling-after`. -/
def createSiblingAfter (block id : U) : Option (Outline U K T) :=
  match t.get block with
  | some { parent := some parent, order := some current, .. } =>
    t.createBlock parent id (keys.between (some current) (t.nextOrder parent (some current)))
  | _ => none

/-- Block edits answer whether they did anything; a missing block throws. -/
def indentBlock (block : U) : Option (Bool × Outline U K T) :=
  match t.get block with
  | some b =>
    match t.prevSibling b.parent b.order block with
    | some prev => some (true, t.set { b with
        parent := some prev.id, order := some (keys.between (t.maxOrder prev.id) none) })
    | none => some (false, t)
  | none => none

def outdentBlock (block : U) : Option (Bool × Outline U K T) :=
  match t.get block with
  | some b =>
    match b.parent with
    | some p =>
      let position := (t.get p).bind Block.order
      match t.parent p with
      | some grandparent => some (true, t.set { b with
          parent := some grandparent
          order := some (keys.between position (t.nextOrder grandparent position)) })
      | none => some (true, t.set { b with
          parent := none, order := some (keys.between position none) })
    | none => some (false, t)
  | none => none

def moveBlockUp (block : U) : Option (Bool × Outline U K T) :=
  match t.get block with
  | some b =>
    match t.prevSibling b.parent b.order block with
    | some prev =>
      let prevPrev := t.prevSibling b.parent prev.order block
      some (true, t.set { b with
        order := some (keys.between (prevPrev.bind Block.order) prev.order) })
    | none => some (false, t)
  | none => none

def moveBlockDown (block : U) : Option (Bool × Outline U K T) :=
  match t.get block with
  | some b =>
    match t.nextSibling b.parent b.order block with
    | some next =>
      let nextNext := t.nextSibling b.parent next.order block
      some (true, t.set { b with
        order := some (keys.between next.order (nextNext.bind Block.order)) })
    | none => some (false, t)
  | none => none

/-- The blocks of `listed` become the last children of `page`, one after the other. -/
def moveAll (page : U) : Outline U K T → Option K → List U → Outline U K T
  | t, _, [] => t
  | t, prev, block :: rest =>
    let order := keys.between prev none
    moveAll page (t.modify block fun b ↦ { b with parent := some page, order := some order })
      (some order) rest

/-- `update-page-title!` with `:merge?`: the page that has the title gives its blocks to `page`. The
queries choose what they answer. -/
def updatePageTitle (page : U) (title : T) (existing : Option U) (listed : List U) :
    Outline U K T :=
  match existing with
  | none => t.modify page fun b ↦ { b with title := some title }
  | some other =>
    ((moveAll keys page t (t.maxOrder page) listed).remove other).modify page fun b ↦
      { b with title := some title }

end Outline

end

inductive Event (U K T : Type)
  | append (parent id : U)
  | insertAfter (parent : U) (after : K) (id : U)
  | createSiblingAfter (block id : U)
  | indent (block : U)
  | outdent (block : U)
  | moveUp (block : U)
  | moveDown (block : U)
  | merge (page : U) (title : T) (existing : Option U) (listed : List U)

namespace Outline

section

variable {U K T : Type} [DecidableEq U] [LinearOrder K] [DecidableEq T] (keys : KeyGenerator K)
  (t : Outline U K T)

def isPage (u : U) : Bool := (t.get u).any fun b ↦ b.title.isSome

/-- Another page with the title, if there is one, and the children of that page in any order. -/
def Answers (page : U) (title : T) (existing : Option U) (listed : List U) : Prop :=
  t.isPage page ∧
    match existing with
    | some other => other ≠ page ∧ (t.get other).bind Block.title = some title ∧
      listed.Perm ((t.select fun r ↦ r.parent = some other).map Block.id)
    | none => ∀ r ∈ t.rows, r.title = some title → r.id = page

instance (page : U) (title : T) (existing : Option U) (listed : List U) :
    Decidable (t.Answers page title existing listed) :=
  match existing with
  | some _ => inferInstanceAs (Decidable (_ ∧ _ ∧ _ ∧ _))
  | none => inferInstanceAs (Decidable (_ ∧ _))

/-- What an edit answers, if it does not throw, and the store after it. -/
def perform : Event U K T → Option (Bool × Outline U K T)
  | .append parent id => (t.append keys parent id).map (true, ·)
  | .insertAfter parent after id => (t.insertAfter keys parent after id).map (true, ·)
  | .createSiblingAfter block id => (t.createSiblingAfter keys block id).map (true, ·)
  | .indent block => t.indentBlock keys block
  | .outdent block => t.outdentBlock keys block
  | .moveUp block => t.moveBlockUp keys block
  | .moveDown block => t.moveBlockDown keys block
  | .merge page title existing listed =>
    if t.Answers page title existing listed then
      some (true, t.updatePageTitle keys page title existing listed)
    else none

def step (event : Event U K T) : Outline U K T := ((t.perform keys event).map Prod.snd).getD t

end

variable {U K T : Type} [DecidableEq U] [LinearOrder K] {keys : KeyGenerator K}
  {t : Outline U K T}

variable {p u : U}

omit [LinearOrder K] in
theorem parent_eq_some : t.parent u = some p ↔ ∃ b, t.get u = some b ∧ b.parent = some p := by
  simp [parent, bind_eq_some_iff]

variable {o : K}

omit [LinearOrder K] in
theorem mem_childOrders :
    o ∈ t.childOrders p ↔ ∃ u b, t.get u = some b ∧ b.parent = some p ∧ b.order = some o := by
  simp only [childOrders, mem_filterMap, mem_select, decide_eq_true_eq]
  constructor
  · rintro ⟨b, ⟨hb, hparent⟩, horder⟩
    exact ⟨b.id, b, hb, hparent, horder⟩
  · rintro ⟨u, b, hb, hparent, horder⟩
    obtain rfl := key_of_get hb
    exact ⟨b, ⟨hb, hparent⟩, horder⟩

/-- A key after the last child is above every child. -/
theorem max_lt (keys : KeyGenerator K) (ho : o ∈ t.childOrders p) :
    o < keys.between (t.maxOrder p) none := by
  cases hmax : t.maxOrder p with
  | none =>
    rw [maxOrder, max?_eq_none_iff] at hmax
    rw [hmax] at ho
    exact nomatch ho
  | some m =>
    have hle := (max?_eq_some_iff.mp hmax).2 o ho
    have hlt := (keys.between_spec (some m) none (fun _ _ _ hy ↦ nomatch hy)).1 m rfl
    exact lt_of_le_of_lt hle hlt

/-- A key after a position is below the next child, so that no child is in between. -/
theorem next_spec (keys : KeyGenerator K) (p : U) (after : Option K) :
    (∀ a ∈ after, a < keys.between after (t.nextOrder p after)) ∧
      ∀ o ∈ t.childOrders p, (∀ a ∈ after, a < o) →
        keys.between after (t.nextOrder p after) < o := by
  have hlt : ∀ a ∈ after, ∀ n ∈ t.nextOrder p after, a < n := by
    intro a ha n hn
    obtain ⟨hmem, -⟩ := min?_eq_some_iff.mp hn
    have hsome := (mem_filter.mp hmem).2
    rw [mem_def.mp ha] at hsome
    simpa using hsome
  obtain ⟨hafter, hbefore⟩ := keys.between_spec after (t.nextOrder p after) hlt
  refine ⟨hafter, fun o ho habove ↦ ?_⟩
  have hmem : o ∈ (t.childOrders p).filter fun o ↦ after.all (· < o) := by
    refine mem_filter.mpr ⟨ho, ?_⟩
    cases after with
    | none => rfl
    | some a => simpa using habove a rfl
  cases hnext : t.nextOrder p after with
  | none =>
    rw [nextOrder, min?_eq_none_iff] at hnext
    rw [hnext] at hmem
    exact nomatch hmem
  | some n =>
    rw [hnext] at hbefore
    exact lt_of_lt_of_le (hbefore n rfl) ((min?_eq_some_iff.mp hnext).2 o hmem)

variable {current : U} {r : Block U K T} {side : K → Bool} {nearer : K → K → Bool}

section

omit [LinearOrder K]

theorem mem_siblings {parent : Option U} :
    r ∈ t.siblings parent current side ↔ t.get r.id = some r ∧ parent.isSome ∧ r.parent = parent ∧
      (∃ o, r.order = some o ∧ side o) ∧ r.id ≠ current := by
  simp only [siblings, mem_select, Bool.and_eq_true, decide_eq_true_eq, Option.any_eq_true]
  grind

theorem nearest_some {parent : Option U} (h : t.nearest parent current side nearer = some r) :
    r ∈ t.siblings parent current side ∧ ∀ other ∈ t.siblings parent current side, ∀ o o',
      other.order = some o → r.order = some o' → nearer o o' = false := by
  refine ⟨mem_of_find?_eq_some h, fun other hother o o' ho ho' ↦ ?_⟩
  have hall := find?_some h
  rw [List.all_eq_true] at hall
  simpa [ho, ho'] using hall other hother

/-- In a list with a strict order some element has no other before it. -/
theorem exists_first {α : Type} {before : α → α → Prop} (hirrefl : ∀ a, ¬ before a a)
    (htrans : ∀ a b c, before a b → before b c → before a c) {l : List α} (hl : l ≠ []) :
    ∃ a ∈ l, ∀ b ∈ l, ¬ before b a := by
  induction l with
  | nil => exact absurd rfl hl
  | cons x l ih =>
    by_cases hnil : l = []
    · subst hnil
      exact ⟨x, mem_cons_self, by simpa using hirrefl x⟩
    · obtain ⟨a, ha, hfirst⟩ := ih hnil
      by_cases hx : before x a
      · refine ⟨x, mem_cons_self, fun b hb ↦ ?_⟩
        rcases mem_cons.mp hb with rfl | hb
        · exact hirrefl b
        · exact fun hbx ↦ hfirst b hb (htrans b x a hbx hx)
      · refine ⟨a, mem_cons_of_mem x ha, fun b hb ↦ ?_⟩
        rcases mem_cons.mp hb with rfl | hb
        · exact hx
        · exact hfirst b hb

theorem nearest_none {parent : Option U} (hirrefl : ∀ o, nearer o o = false)
    (htrans : ∀ o o' o'', nearer o o' → nearer o' o'' → nearer o o'')
    (h : t.nearest parent current side nearer = none) : t.siblings parent current side = [] := by
  by_contra hsome
  have hself (r : Block U K T) : ¬ r.order.any (fun o ↦ r.order.any (nearer o)) := by
    cases hr : r.order with
    | none => simp
    | some o => simp [hirrefl o]
  have hbefore (a b c : Block U K T)
      (hab : a.order.any (fun o ↦ b.order.any (nearer o)))
      (hbc : b.order.any (fun o ↦ c.order.any (nearer o))) :
      a.order.any (fun o ↦ c.order.any (nearer o)) := by
    simp only [Option.any_eq_true] at hab hbc ⊢
    obtain ⟨o, ho, o', ho', h₁⟩ := hab
    obtain ⟨p, hp, o'', ho'', h₂⟩ := hbc
    obtain rfl := some.inj (ho'.symm.trans hp)
    exact ⟨o, ho, o'', ho'', htrans o o' o'' h₁ h₂⟩
  obtain ⟨r, hr, hfirst⟩ := exists_first hself hbefore hsome
  rw [nearest, find?_eq_none] at h
  refine h r hr ?_
  rw [List.all_eq_true]
  intro other hother
  simpa using hfirst other hother

end

variable {position : Option K}

/-- The previous sibling is the last one before the position. -/
theorem prev_some (h : t.prevSibling (some p) position current = some r) :
    t.get r.id = some r ∧ r.parent = some p ∧ r.id ≠ current ∧
      ∃ o, r.order = some o ∧ (∃ x ∈ position, o < x) ∧
        ∀ u b o', t.get u = some b → b.parent = some p → u ≠ current → b.order = some o' →
          o' ≤ o ∨ ∀ x ∈ position, x ≤ o' := by
  obtain ⟨hmem, hnearest⟩ := nearest_some h
  obtain ⟨hr, -, hparent, ⟨o, ho, hside⟩, hne⟩ := mem_siblings.mp hmem
  refine ⟨hr, hparent, hne, o, ho, by simpa [Option.any_eq_true] using hside, ?_⟩
  intro u b o' hb hbparent hu ho'
  obtain rfl := key_of_get hb
  by_cases hbefore : position.any (o' < ·)
  · left
    have hmem' : b ∈ t.siblings (some p) current fun o ↦ position.any (o < ·) :=
      mem_siblings.mpr ⟨hb, rfl, hbparent, ⟨o', ho', hbefore⟩, hu⟩
    simpa using hnearest b hmem' o' o ho' ho
  · right
    intro x hx
    rw [mem_def.mp hx] at hbefore
    simpa using hbefore

theorem prev_none (h : t.prevSibling (some p) position current = none) {b : Block U K T}
    (hb : t.get u = some b) (hparent : b.parent = some p) (hu : u ≠ current)
    (ho : b.order = some o) : ∀ x ∈ position, x ≤ o := by
  intro x hx
  by_contra hlt
  have hnil := nearest_none (fun _ ↦ by simp) (fun a b c hab hbc ↦ by
    simp only [decide_eq_true_eq] at hab hbc ⊢
    exact lt_trans hbc hab) h
  have hmem : b ∈ t.siblings (some p) current fun o ↦ position.any (o < ·) := by
    obtain rfl := key_of_get hb
    refine mem_siblings.mpr ⟨hb, rfl, hparent, ⟨o, ho, ?_⟩, hu⟩
    rw [mem_def.mp hx]
    simpa using hlt
  rw [hnil] at hmem
  exact nomatch hmem

/-- The next sibling is the first one after the position. -/
theorem next_some (h : t.nextSibling (some p) position current = some r) :
    t.get r.id = some r ∧ r.parent = some p ∧ r.id ≠ current ∧
      ∃ o, r.order = some o ∧ (∀ x ∈ position, x < o) ∧
        ∀ u b o', t.get u = some b → b.parent = some p → u ≠ current → b.order = some o' →
          o ≤ o' ∨ ∃ x ∈ position, o' ≤ x := by
  obtain ⟨hmem, hnearest⟩ := nearest_some h
  obtain ⟨hr, -, hparent, ⟨o, ho, hside⟩, hne⟩ := mem_siblings.mp hmem
  refine ⟨hr, hparent, hne, o, ho, fun x hx ↦ ?_, fun u b o' hb hbparent hu ho' ↦ ?_⟩
  · rw [mem_def.mp hx] at hside
    simpa using hside
  · obtain rfl := key_of_get hb
    by_cases hafter : position.all (· < o')
    · left
      have hmem' : b ∈ t.siblings (some p) current fun o ↦ position.all (· < o) :=
        mem_siblings.mpr ⟨hb, rfl, hbparent, ⟨o', ho', hafter⟩, hu⟩
      simpa using hnearest b hmem' o' o ho' ho
    · right
      cases position with
      | none => exact absurd rfl hafter
      | some x => exact ⟨x, rfl, by simpa using hafter⟩

theorem next_none (h : t.nextSibling (some p) position current = none) {b : Block U K T}
    (hb : t.get u = some b) (hparent : b.parent = some p) (hu : u ≠ current)
    (ho : b.order = some o) : ∃ x ∈ position, o ≤ x := by
  have hnil := nearest_none (fun _ ↦ by simp) (fun a b c hab hbc ↦ by
    simp only [decide_eq_true_eq] at hab hbc ⊢
    exact lt_trans hab hbc) h
  by_cases hafter : position.all (· < o)
  · obtain rfl := key_of_get hb
    have hmem : b ∈ t.siblings (some p) current fun o ↦ position.all (· < o) :=
      mem_siblings.mpr ⟨hb, rfl, hparent, ⟨o, ho, hafter⟩, hu⟩
    rw [hnil] at hmem
    exact nomatch hmem
  · cases position with
    | none => exact absurd rfl hafter
    | some x => exact ⟨x, rfl, by simpa using hafter⟩

omit [LinearOrder K] in
/-- A page has no siblings. -/
theorem nearest_root : t.nearest none current side nearer = none := by
  have hnil : t.siblings none current side = [] := by
    rw [eq_nil_iff_forall_not_mem]
    intro r hr
    exact absurd (mem_siblings.mp hr).2.1 (by simp)
  rw [nearest, hnil]
  rfl

/-- A key between a position and the last sibling before it is just before the position. -/
theorem before_spec (keys : KeyGenerator K) (p current : U) (o : K) :
    let key := keys.between ((t.prevSibling (some p) (some o) current).bind Block.order) (some o)
    key < o ∧ ∀ u b o', t.get u = some b → b.parent = some p → u ≠ current → b.order = some o' →
      o' < key ∨ o ≤ o' := by
  intro key
  cases hprev : t.prevSibling (some p) (some o) current with
  | none =>
    have hkey : key = keys.between none (some o) := by simp only [key, hprev, bind_none]
    obtain ⟨-, hlt⟩ := keys.between_spec none (some o) (fun _ hx ↦ nomatch hx)
    refine ⟨hkey ▸ hlt o rfl, fun u b o' hb hparent hu ho' ↦ ?_⟩
    exact .inr (prev_none hprev hb hparent hu ho' o rfl)
  | some r =>
    obtain ⟨-, -, -, m, hm, ⟨x, hx, hlt⟩, hlast⟩ := prev_some hprev
    obtain rfl := some.inj hx
    have hkey : key = keys.between (some m) (some o) := by
      simp only [key, hprev, bind_some, hm]
    obtain ⟨habove, hbelow⟩ := keys.between_spec (some m) (some o) (by
      rintro _ ⟨⟩ _ ⟨⟩
      exact hlt)
    rw [← hkey] at habove hbelow
    refine ⟨hbelow o rfl, fun u b o' hb hparent hu ho' ↦ ?_⟩
    rcases hlast u b o' hb hparent hu ho' with hle | hle
    · exact .inl (lt_of_le_of_lt hle (habove m rfl))
    · exact .inr (hle o rfl)

/-- A key between a position and the first sibling after it is just after the position. -/
theorem after_spec (keys : KeyGenerator K) (p current : U) (o : K) :
    let key := keys.between (some o) ((t.nextSibling (some p) (some o) current).bind Block.order)
    o < key ∧ ∀ u b o', t.get u = some b → b.parent = some p → u ≠ current → b.order = some o' →
      o' ≤ o ∨ key < o' := by
  intro key
  cases hnext : t.nextSibling (some p) (some o) current with
  | none =>
    have hkey : key = keys.between (some o) none := by simp only [key, hnext, bind_none]
    obtain ⟨hlt, -⟩ := keys.between_spec (some o) none (fun _ _ _ hy ↦ nomatch hy)
    refine ⟨hkey ▸ hlt o rfl, fun u b o' hb hparent hu ho' ↦ ?_⟩
    obtain ⟨x, hx, hle⟩ := next_none hnext hb hparent hu ho'
    exact .inl (some.inj hx ▸ hle)
  | some r =>
    obtain ⟨-, -, -, m, hm, hlt, hfirst⟩ := next_some hnext
    have hkey : key = keys.between (some o) (some m) := by
      simp only [key, hnext, bind_some, hm]
    obtain ⟨habove, hbelow⟩ := keys.between_spec (some o) (some m) (by
      rintro _ ⟨⟩ _ ⟨⟩
      exact hlt o rfl)
    rw [← hkey] at habove hbelow
    refine ⟨habove o rfl, fun u b o' hb hparent hu ho' ↦ ?_⟩
    rcases hfirst u b o' hb hparent hu ho' with hle | ⟨x, hx, hle⟩
    · exact .inr (lt_of_lt_of_le (hbelow m rfl) hle)
    · exact .inl (some.inj hx ▸ hle)

end Outline

end Simmis.Wiki
