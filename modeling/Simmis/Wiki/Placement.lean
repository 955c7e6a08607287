import Simmis.Wiki.Outline
import Mathlib.Tactic.Linarith

/-!
# Where the blocks of an outline are

Every edit but a merge puts one block under a parent, at a key that no other child has. This keeps
the outline a forest and every block below one page, unless a child of a page is outdented.
-/

namespace Simmis.Wiki

open List Option Runs Forest Relation Table Prod

namespace Outline

section

variable {U K T : Type} [DecidableEq U]

def order (t : Outline U K T) (u : U) : Option K := (t.get u).bind Block.order

/-- A forest of pages and blocks. -/
structure IsForest (t : Outline U K T) : Prop where
  parents : ∀ {u p}, t.parent u = some p → (t.get p).isSome
  pages : ∀ {u}, t.isPage u → t.parent u = none
  distinct : ∀ {u v p o}, t.parent u = some p → t.parent v = some p → t.order u = some o →
    t.order v = some o → u = v
  acyclic : Acyclic t.parent

/-- `x` is reached from a page. -/
def Under (t : Outline U K T) (x : U) : Prop := ∃ page, t.isPage page ∧ Below t.parent x page

def UnderOne (t : Outline U K T) (x : U) : Prop := ∃! page, t.isPage page ∧ Below t.parent x page

variable {t t' : Outline U K T} {b : U}

theorem IsForest.underOne (h : t.IsForest) {x : U} (hx : t.Under x) : t.UnderOne x := by
  obtain ⟨page, hpage, hbelow⟩ := hx
  refine ⟨page, ⟨hpage, hbelow⟩, ?_⟩
  rintro page' ⟨hpage', hbelow'⟩
  exact root_unique (h.pages hpage') (h.pages hpage) (within_of_below hbelow')
    (within_of_below hbelow)

/-- The ancestors of a node that is there are there. -/
theorem IsForest.within_isSome (h : t.IsForest) {x a : U} (hx : (t.get x).isSome)
    (hwithin : Within t.parent x a) : (t.get a).isSome := by
  cases hwithin with
  | refl => exact hx
  | tail _ hedge => exact h.parents hedge

section

variable {row : Block U K T} (hb : t.get b = some row)
include hb

theorem parent_of_get : t.parent b = row.parent := by
  rw [parent, hb]
  rfl

theorem order_of_get : t.order b = row.order := by
  rw [order, hb]
  rfl

theorem isPage_of_get : t.isPage b = row.title.isSome := by
  rw [isPage, hb]
  rfl

end

theorem isSome_of_isPage (h : t.isPage b) : (t.get b).isSome := by
  cases hb : t.get b with
  | none => simp [isPage, hb] at h
  | some row => rfl

theorem not_isPage (hforest : t.IsForest) {p : U} (hp : t.parent b = some p) : ¬ t.isPage b :=
  fun h ↦ nomatch (hforest.pages h).symm.trans hp

theorem mem_childOrders_iff {p : U} {o : K} :
    o ∈ t.childOrders p ↔ ∃ u, t.parent u = some p ∧ t.order u = some o := by
  rw [mem_childOrders]
  constructor
  · rintro ⟨u, c, hc, hparent, horder⟩
    exact ⟨u, (parent_of_get hc).trans hparent, (order_of_get hc).trans horder⟩
  · rintro ⟨u, hparent, horder⟩
    obtain ⟨c, hc, hp⟩ := parent_eq_some.mp hparent
    exact ⟨u, c, hc, hp, (order_of_get hc).symm.trans horder⟩

/-- `row` is written and nothing else. -/
def Wrote (t t' : Outline U K T) (row : Block U K T) : Prop :=
  ∀ u, t'.get u = if u = row.id then some row else t.get u

theorem wrote_put (row : Block U K T) : Wrote t (t.put row) row := t.get_put row

theorem wrote_set (row : Block U K T) {old : Block U K T} (hold : t.get row.id = some old) :
    Wrote t (t.set row) row := get_set hold

variable {row : Block U K T}

section

variable (h : Wrote t t' row)
include h

theorem Wrote.self : t'.get row.id = some row := by
  rw [h, if_pos rfl]

theorem Wrote.other {u : U} (hu : u ≠ row.id) : t'.get u = t.get u := by
  rw [h, if_neg hu]

theorem Wrote.moved : Moved t.parent t'.parent row.id := by
  intro u hu
  rw [parent, parent, h.other hu]

theorem Wrote.order_other {u : U} (hu : u ≠ row.id) : t'.order u = t.order u := by
  rw [order, order, h.other hu]

theorem Wrote.isPage (hrow : row.title = none) (hold : ¬ t.isPage row.id) (u : U) :
    t'.isPage u = t.isPage u := by
  by_cases hu : u = row.id
  · subst hu
    rw [isPage_of_get h.self, hrow]
    exact (Bool.eq_false_iff.mpr hold).symm
  · rw [Outline.isPage, Outline.isPage, h.other hu]

theorem Wrote.isSome {u : U} (hu : (t.get u).isSome) : (t'.get u).isSome := by
  rw [h]
  split
  · rfl
  · exact hu

end

/-- A block is put under `p`, not below itself, at a key of its own. -/
structure Placed (t t' : Outline U K T) (row : Block U K T) (p : U) : Prop where
  wrote : Wrote t t' row
  parent : row.parent = some p
  title : row.title = none
  notPage : ¬ t.isPage row.id
  exists_parent : (t.get p).isSome
  outside : ¬ Within t.parent p row.id
  fresh : ∀ o, row.order = some o → ∀ u, u ≠ row.id → t.parent u = some p → t.order u ≠ some o
  stays : t.Under row.id → ∃ page, t.isPage page ∧ Within t.parent p page

/-- A node is in the subtree, or its page is above the block. -/
theorem within_or_below (ht : t.IsForest) {x page : U} (hb : ¬ t.isPage b) (hpage : t.isPage page)
    (hx : Below t.parent x page) : ¬ Within t.parent x b ∨ Below t.parent b page := by
  by_cases hwithin : Within t.parent x b
  · right
    have hne : page ≠ b := by
      rintro rfl
      exact hb hpage
    rcases within_total hwithin (within_of_below hx) with h | h
    · exact (within_iff.mp h).resolve_left hne
    · exact absurd (within_root (ht.pages hpage) h) hne.symm
  · exact .inl hwithin

/-- The outline stays a forest and every block stays below a page. -/
def Keeps (t t' : Outline U K T) : Prop := t'.IsForest ∧ ∀ x, t.Under x → t'.Under x

theorem Keeps.refl (ht : t.IsForest) : Keeps t t := ⟨ht, fun _ hx ↦ hx⟩

theorem Keeps.trans {t₁ t₂ t₃ : Outline U K T} (h₁ : Keeps t₁ t₂) (h₂ : Keeps t₂ t₃) :
    Keeps t₁ t₃ := ⟨h₂.1, fun x hx ↦ h₂.2 x (h₁.2 x hx)⟩

section

variable {p : U} (h : Placed t t' row p) (ht : t.IsForest)
include h ht

theorem Placed.isForest : t'.IsForest where
  parents := by
    intro u q hq
    by_cases hu : u = row.id
    · subst hu
      rw [parent_of_get h.wrote.self, h.parent] at hq
      exact h.wrote.isSome (some.inj hq ▸ h.exists_parent)
    · rw [h.wrote.moved u hu] at hq
      exact h.wrote.isSome (ht.parents hq)
  pages := by
    intro u hu
    rw [h.wrote.isPage h.title h.notPage] at hu
    have hne : u ≠ row.id := by
      rintro rfl
      exact h.notPage hu
    rw [h.wrote.moved u hne]
    exact ht.pages hu
  distinct := by
    have hself {v q o} (hv : v ≠ row.id) (hb : t'.parent row.id = some q)
        (hbo : t'.order row.id = some o) (hq : t'.parent v = some q) : t'.order v ≠ some o := by
      rw [parent_of_get h.wrote.self, h.parent] at hb
      rw [order_of_get h.wrote.self] at hbo
      rw [h.wrote.moved v hv, ← some.inj hb] at hq
      rw [h.wrote.order_other hv]
      exact h.fresh o hbo v hv hq
    intro u v q o hu hv huo hvo
    by_cases hub : u = row.id
    · by_cases hvb : v = row.id
      · exact hub.trans hvb.symm
      · subst hub
        exact absurd hvo (hself hvb hu huo hv)
    · by_cases hvb : v = row.id
      · subst hvb
        exact absurd huo (hself hub hv hvo hu)
      · rw [h.wrote.moved u hub] at hu
        rw [h.wrote.moved v hvb] at hv
        rw [h.wrote.order_other hub] at huo
        rw [h.wrote.order_other hvb] at hvo
        exact ht.distinct hu hv huo hvo
  acyclic := by
    refine acyclic_moved h.wrote.moved ht.acyclic fun s hs ↦ ?_
    rw [parent_of_get h.wrote.self, h.parent] at hs
    exact some.inj hs ▸ h.outside

theorem Placed.under {x : U} (hx : t.Under x) : t'.Under x := by
  obtain ⟨page, hpage, hbelow⟩ := hx
  have hpages := h.wrote.isPage h.title h.notPage
  by_cases hwithin : Within t.parent x row.id
  · have hrow := (within_or_below ht h.notPage hpage hbelow).resolve_left (not_not_intro hwithin)
    obtain ⟨page', hpage', hp⟩ := h.stays ⟨page, hpage, hrow⟩
    have hnew : t'.parent row.id = some p := (parent_of_get h.wrote.self).trans h.parent
    exact ⟨page', (hpages page').trans hpage', below_moved h.wrote.moved hnew h.outside hwithin hp⟩
  · exact ⟨page, (hpages page).trans hpage, below_avoid h.wrote.moved hbelow hwithin⟩

theorem Placed.keeps : Keeps t t' :=
  ⟨h.isForest ht, fun _ hx ↦ h.under ht hx⟩

end

end

section

variable {U K T : Type} [DecidableEq U] [LinearOrder K] {keys : KeyGenerator K}
  {t t' : Outline U K T} {b : U}

section

omit [LinearOrder K]

theorem createBlock_some {parent id : U} {o : K} (h : t.createBlock parent id o = some t') :
    (t.get parent).isSome ∧ t.get id = none ∧
      t' = t.put { id, parent := some parent, order := some o, title := none } := by
  unfold createBlock at h
  split at h
  · next hcond =>
    rw [Bool.and_eq_true, isNone_iff_eq_none] at hcond
    exact ⟨hcond.1, hcond.2, (some.inj h).symm⟩
  · cases h

theorem createBlock_keeps (ht : t.IsForest) {parent id : U} {o : K}
    (hfresh : o ∉ t.childOrders parent) (h : t.createBlock parent id o = some t') : Keeps t t' := by
  obtain ⟨hparent, hid, rfl⟩ := createBlock_some h
  have hnone : t.parent id = none := by
    rw [Outline.parent, hid]
    rfl
  refine Placed.keeps ⟨wrote_put _, rfl, rfl, ?_, hparent, ?_, ?_, ?_⟩ ht
  · simp [isPage, hid]
  · intro hwithin
    have hsome := ht.within_isSome hparent hwithin
    rw [hid] at hsome
    cases hsome
  · intro o' ho' u _ hu huo
    rw [← some.inj ho'] at huo
    exact hfresh (mem_childOrders_iff.mpr ⟨u, hu, huo⟩)
  · rintro ⟨page, -, hbelow⟩
    obtain ⟨p, hp, -⟩ := below_iff.mp hbelow
    cases hnone.symm.trans hp

/-- A block moves to a parent that is not in its subtree and is below the same page. -/
theorem set_placed (ht : t.IsForest) {row : Block U K T} {p q : U} {o : K}
    (hb : t.get b = some row) (hp : row.parent = some p) (hq : (t.get q).isSome)
    (hout : ¬ Within t.parent q b) (hfresh : ∀ u, u ≠ b → t.parent u = some q → t.order u ≠ some o)
    (hstays : (∃ page, t.isPage page ∧ Within t.parent p page) →
      ∃ page, t.isPage page ∧ Within t.parent q page) :
    Placed t (t.set { row with parent := some q, order := some o })
      { row with parent := some q, order := some o } q := by
  obtain rfl := key_of_get hb
  have hparent : t.parent row.id = some p := (parent_of_get hb).trans hp
  have hnot := not_isPage ht hparent
  refine ⟨wrote_set _ hb, rfl, ?_, hnot, hq, hout, ?_, ?_⟩
  · rw [isPage_of_get hb] at hnot
    simpa using hnot
  · intro o' ho' u hu hup
    rw [← some.inj ho']
    exact hfresh u hu hup
  · rintro ⟨page, hpage, hbelow⟩
    obtain ⟨p', hp', hwithin⟩ := below_iff.mp hbelow
    rw [hparent] at hp'
    exact hstays ⟨page, hpage, some.inj hp' ▸ hwithin⟩

theorem not_within_self (ht : t.IsForest) {p : U} (hp : t.parent b = some p) :
    ¬ Within t.parent p b :=
  fun h ↦ ht.acyclic b (below_iff.mpr ⟨p, hp, h⟩)

/-- A new key for a block under its own parent. -/
theorem reorder_keeps (ht : t.IsForest) {row : Block U K T} {p : U} {o : K}
    (hb : t.get b = some row) (hp : row.parent = some p)
    (hfresh : ∀ u, u ≠ b → t.parent u = some p → t.order u ≠ some o) :
    Keeps t (t.set { row with parent := some p, order := some o }) := by
  have hparent : t.parent b = some p := (parent_of_get hb).trans hp
  have h := set_placed ht hb hp (ht.parents hparent) (not_within_self ht hparent) hfresh
    fun hunder ↦ hunder
  exact h.keeps ht

end

section

variable (ht : t.IsForest) {answer : Bool}
include ht

theorem indentBlock_keeps (h : t.indentBlock keys b = some (answer, t')) : Keeps t t' := by
  unfold indentBlock at h
  split at h
  · next row hb =>
    split at h
    · next prev hprev =>
      obtain ⟨-, rfl⟩ := mk.inj (some.inj h)
      cases hp : row.parent with
      | none =>
        rw [hp, prevSibling, nearest_root] at hprev
        exact nomatch hprev
      | some p =>
        rw [hp] at hprev
        obtain ⟨hget, hparent, hother, -⟩ := prev_some hprev
        have hrow : t.parent b = some p := (parent_of_get hb).trans hp
        have hup : t.parent prev.id = some p := (parent_of_get hget).trans hparent
        refine Placed.keeps (set_placed ht hb hp (hget ▸ rfl) ?_ ?_ ?_) ht
        · intro hwithin
          rcases within_iff.mp hwithin with heq | hbelow
          · exact hother heq.symm
          · obtain ⟨q, hq, hqb⟩ := below_iff.mp hbelow
            rw [hup] at hq
            exact not_within_self ht hrow (some.inj hq ▸ hqb)
        · intro u _ hu huo
          exact lt_irrefl _ (max_lt keys (mem_childOrders_iff.mpr ⟨u, hu, huo⟩))
        · rintro ⟨page, hpage, hwithin⟩
          exact ⟨page, hpage, .head hup hwithin⟩
    · obtain ⟨-, rfl⟩ := mk.inj (some.inj h)
      exact .refl ht
  · exact nomatch h

theorem moveBlockUp_keeps (h : t.moveBlockUp keys b = some (answer, t')) : Keeps t t' := by
  unfold moveBlockUp at h
  split at h
  · next row hb =>
    split at h
    · next prev hprev =>
      obtain ⟨-, rfl⟩ := mk.inj (some.inj h)
      cases hp : row.parent with
      | none =>
        rw [hp, prevSibling, nearest_root] at hprev
        exact nomatch hprev
      | some p =>
        rw [hp] at hprev
        obtain ⟨-, -, -, o, ho, -⟩ := prev_some hprev
        obtain ⟨hlt, hother⟩ := before_spec keys (t := t) p b o
        refine reorder_keeps ht hb hp fun u hu hup huo ↦ ?_
        obtain ⟨c, hc, hcp⟩ := parent_eq_some.mp hup
        rw [ho, order_of_get hc] at huo
        rcases hother u c _ hc hcp hu huo with h | h
        · exact lt_irrefl _ h
        · exact not_le_of_gt hlt h
    · obtain ⟨-, rfl⟩ := mk.inj (some.inj h)
      exact .refl ht
  · exact nomatch h

theorem moveBlockDown_keeps (h : t.moveBlockDown keys b = some (answer, t')) : Keeps t t' := by
  unfold moveBlockDown at h
  split at h
  · next row hb =>
    split at h
    · next next hnext =>
      obtain ⟨-, rfl⟩ := mk.inj (some.inj h)
      cases hp : row.parent with
      | none =>
        rw [hp, nextSibling, nearest_root] at hnext
        exact nomatch hnext
      | some p =>
        rw [hp] at hnext
        obtain ⟨-, -, -, o, ho, -⟩ := next_some hnext
        obtain ⟨hlt, hother⟩ := after_spec keys (t := t) p b o
        refine reorder_keeps ht hb hp fun u hu hup huo ↦ ?_
        obtain ⟨c, hc, hcp⟩ := parent_eq_some.mp hup
        rw [ho, order_of_get hc] at huo
        rcases hother u c _ hc hcp hu huo with h | h
        · exact not_le_of_gt hlt h
        · exact lt_irrefl _ h
    · obtain ⟨-, rfl⟩ := mk.inj (some.inj h)
      exact .refl ht
  · exact nomatch h

end

omit [LinearOrder K] in
/-- A child of a root that is no page becomes a root. -/
theorem drop_keeps (ht : t.IsForest) {row : Block U K T} {p : U} {o : K}
    (hb : t.get b = some row) (hp : row.parent = some p) (hroot : t.parent p = none)
    (hpage : ¬ t.isPage p) : Keeps t (t.set { row with parent := none, order := some o }) := by
  obtain rfl := key_of_get hb
  have hparent : t.parent row.id = some p := (parent_of_get hb).trans hp
  have hnot := not_isPage ht hparent
  have hwrote := wrote_set { row with parent := none, order := some o } hb
  have hmoved := hwrote.moved
  have hnone := parent_of_get hwrote.self
  have hpages := hwrote.isPage (by rw [isPage_of_get hb] at hnot; simpa using hnot) hnot
  have hne {u q : U} (hu : parent (t.set { row with parent := none, order := some o }) u = some q) :
      u ≠ row.id := by
    rintro rfl
    rw [hnone] at hu
    exact nomatch hu
  constructor
  · constructor
    · intro u q hu
      rw [hmoved u (hne hu)] at hu
      exact hwrote.isSome (ht.parents hu)
    · intro u hu
      rw [hpages] at hu
      by_cases heq : u = row.id
      · exact heq ▸ hnone
      · exact (hmoved u heq).trans (ht.pages hu)
    · intro u v q o' hu hv huo hvo
      rw [hwrote.order_other (hne hu)] at huo
      rw [hwrote.order_other (hne hv)] at hvo
      rw [hmoved u (hne hu)] at hu
      rw [hmoved v (hne hv)] at hv
      exact ht.distinct hu hv huo hvo
    · refine acyclic_moved hmoved ht.acyclic fun s hs ↦ ?_
      rw [hnone] at hs
      exact nomatch hs
  · rintro x ⟨page, hpg, hbelow⟩
    refine ⟨page, (hpages page).trans hpg, below_avoid hmoved hbelow ?_⟩
    refine (within_or_below ht hnot hpg hbelow).resolve_right fun hrow ↦ hpage ?_
    obtain ⟨q, hq, hwithin⟩ := below_iff.mp hrow
    obtain rfl := some.inj (hq.symm.trans hparent)
    exact within_root hroot hwithin ▸ hpg

theorem outdentBlock_keeps (ht : t.IsForest) {answer : Bool}
    (hpage : ¬ (t.parent b).any t.isPage) (h : t.outdentBlock keys b = some (answer, t')) :
    Keeps t t' := by
  unfold outdentBlock at h
  split at h
  · next row hb =>
    have hparent := parent_of_get hb
    split at h
    · next p hp =>
      rw [hp] at hparent
      split at h
      · next g hg =>
        obtain ⟨-, rfl⟩ := mk.inj (some.inj h)
        refine Placed.keeps (set_placed ht hb hp (ht.parents hg) ?_ ?_ ?_) ht
        · intro hwithin
          exact ht.acyclic g (TransGen.trans_right hwithin (.tail (.single hparent) hg))
        · intro u _ hu huo
          obtain ⟨hafter, hbefore⟩ := next_spec (t := t) keys g ((t.get p).bind Block.order)
          exact lt_irrefl _ (hbefore _ (mem_childOrders_iff.mpr ⟨u, hu, huo⟩) hafter)
        · rintro ⟨page, hpg, hwithin⟩
          rcases within_iff.mp hwithin with rfl | hbelow
          · exact absurd hpg (not_isPage ht hg)
          · obtain ⟨q, hq, hqp⟩ := below_iff.mp hbelow
            exact ⟨page, hpg, some.inj (hg.symm.trans hq) ▸ hqp⟩
      · next hg =>
        obtain ⟨-, rfl⟩ := mk.inj (some.inj h)
        rw [hparent] at hpage
        exact drop_keeps ht hb hp hg hpage
    · obtain ⟨-, rfl⟩ := mk.inj (some.inj h)
      exact .refl ht
  · cases h

omit [LinearOrder K] in
/-- A page gets another title. -/
theorem retitle_keeps (ht : t.IsForest) {page : U} (hpage : t.isPage page) {title : T}
    (hget : ∀ u, t'.get u =
      if u = page then (t.get page).map fun b ↦ { b with title := some title } else t.get u) :
    Keeps t t' := by
  obtain ⟨row, hrow⟩ := isSome_iff_exists.mp (isSome_of_isPage hpage)
  have htitle := (isPage_of_get hrow).symm.trans hpage
  have hparent : t'.parent = t.parent := by
    funext u
    simp only [parent, hget]
    split
    · next h => simp [h, hrow]
    · rfl
  have horder : t'.order = t.order := by
    funext u
    simp only [order, hget]
    split
    · next h => simp [h, hrow]
    · rfl
  have hpages : t'.isPage = t.isPage := by
    funext u
    simp only [isPage, hget]
    split
    · next h => simp [h, hrow, htitle]
    · rfl
  constructor
  · constructor
    · intro u p hp
      rw [hparent] at hp
      have hsome := ht.parents hp
      rw [hget]
      split
      · simp [hrow]
      · exact hsome
    · rw [hpages, hparent]
      exact ht.pages
    · rw [hparent, horder]
      exact ht.distinct
    · rw [hparent]
      exact ht.acyclic
  · intro x hx
    rwa [Under, hpages, hparent]

omit [LinearOrder K] in
/-- A root without children goes. -/
theorem remove_keeps (ht : t.IsForest) {other : U} (hroot : t.parent other = none)
    (hleaf : ∀ u, t.parent u ≠ some other)
    (hget : ∀ u, t'.get u = if u = other then none else t.get u) : Keeps t t' := by
  have hparent : t'.parent = t.parent := by
    funext u
    simp only [parent, hget]
    split
    · next h => exact h ▸ hroot.symm
    · rfl
  have hpages {u : U} (hu : u ≠ other) : t'.isPage u = t.isPage u := by
    rw [isPage, isPage, hget, if_neg hu]
  have hstays {u : U} (hu : (t'.get u).isSome) : u ≠ other := by
    rintro rfl
    rw [hget, if_pos rfl] at hu
    cases hu
  have horder {u : U} {o : K} (hu : t'.order u = some o) : t.order u = some o := by
    have hne : u ≠ other := by
      apply hstays
      cases hrow : t'.get u with
      | none => simp [order, hrow] at hu
      | some row => rfl
    rwa [order, hget, if_neg hne] at hu
  constructor
  · constructor
    · intro u p hp
      rw [hparent] at hp
      have hne : p ≠ other := by
        rintro rfl
        exact hleaf u hp
      rw [hget, if_neg hne]
      exact ht.parents hp
    · intro u hu
      rw [hpages (hstays (isSome_of_isPage hu))] at hu
      exact hparent ▸ ht.pages hu
    · rw [hparent]
      intro u v p o hu hv huo hvo
      exact ht.distinct hu hv (horder huo) (horder hvo)
    · rw [hparent]
      exact ht.acyclic
  · rintro x ⟨page, hpage, hbelow⟩
    have hne : page ≠ other := by
      rintro rfl
      obtain ⟨u, -, hu⟩ := TransGen.tail'_iff.mp hbelow
      exact hleaf u hu
    exact ⟨page, (hpages hne).trans hpage, hparent ▸ hbelow⟩

/-- No child of `p` has a key above `prev`. -/
def Bounded (t : Outline U K T) (p : U) (prev : Option K) : Prop :=
  ∀ u o, t.parent u = some p → t.order u = some o → ∃ m, prev = some m ∧ o ≤ m

theorem bounded_max (p : U) : Bounded t p (t.maxOrder p) := by
  intro u o hu huo
  have ho := mem_childOrders_iff.mpr ⟨u, hu, huo⟩
  cases hmax : t.maxOrder p with
  | none =>
    rw [maxOrder, max?_eq_none_iff] at hmax
    rw [hmax] at ho
    cases ho
  | some m => exact ⟨m, rfl, (max?_eq_some_iff.mp hmax).2 o ho⟩

theorem Bounded.lt {p : U} {prev : Option K} (h : Bounded t p prev) (keys : KeyGenerator K)
    {u : U} {o : K} (hu : t.parent u = some p) (huo : t.order u = some o) :
    o < keys.between prev none := by
  obtain ⟨m, rfl, hle⟩ := h u o hu huo
  exact lt_of_le_of_lt hle ((keys.between_spec (some m) none fun _ _ _ hy ↦ nomatch hy).1 m rfl)

theorem moveAll_keeps (keys : KeyGenerator K) {page other : U} {listed : List U}
    {prev : Option K} (ht : t.IsForest) (hpage : t.isPage page)
    (hprev : Bounded t page prev) (hnodup : listed.Nodup)
    (hlisted : ∀ u ∈ listed, t.parent u = some other) : Keeps t (moveAll keys page t prev listed) ∧
      (∀ u, (moveAll keys page t prev listed).isPage u = t.isPage u) ∧
      ∀ u, (moveAll keys page t prev listed).parent u =
        if u ∈ listed then some page else t.parent u := by
  induction listed generalizing t prev with
  | nil => exact ⟨.refl ht, fun _ ↦ rfl, fun u ↦ by simp [moveAll]⟩
  | cons b rest ih =>
    obtain ⟨hb, hrestNodup⟩ := nodup_cons.mp hnodup
    have hparent := hlisted b mem_cons_self
    obtain ⟨row, hrow, hp⟩ := parent_eq_some.mp hparent
    obtain rfl := key_of_get hrow
    have hroot := ht.pages hpage
    have hplaced := set_placed (o := keys.between prev none) ht hrow hp (isSome_of_isPage hpage)
      (fun hwithin ↦ by
        rw [within_root hroot hwithin, hroot] at hparent
        exact nomatch hparent)
      (fun u _ hu huo ↦ lt_irrefl _ (hprev.lt keys hu huo))
      (fun _ ↦ ⟨page, hpage, .refl⟩)
    have hstep : (t.modify row.id fun b ↦
        { b with parent := some page, order := some (keys.between prev none) }) =
        t.set { row with parent := some page, order := some (keys.between prev none) } := by
      apply modify_eq_set (t := t)
        (r := { row with parent := some page, order := some (keys.between prev none) })
      intro old hold
      obtain rfl := some.inj (hold.symm.trans hrow)
      rfl
    have hmoved := hplaced.wrote.moved
    have hself := parent_of_get hplaced.wrote.self
    have hpages := hplaced.wrote.isPage hplaced.title hplaced.notPage
    have hkeeps := hplaced.keeps ht
    have hmem {u : U} (hu : u ∈ rest) : u ≠ row.id := by
      rintro rfl
      exact hb hu
    rw [moveAll, hstep]
    have hbounded : Bounded
        (t.set { row with parent := some page, order := some (keys.between prev none) }) page
        (some (keys.between prev none)) := by
      intro u o hu huo
      refine ⟨_, rfl, ?_⟩
      by_cases heq : u = row.id
      · subst heq
        rw [order_of_get hplaced.wrote.self] at huo
        exact le_of_eq (some.inj huo).symm
      · rw [hmoved u heq] at hu
        rw [hplaced.wrote.order_other heq] at huo
        exact le_of_lt (hprev.lt keys hu huo)
    obtain ⟨hrest, hrestPages, hrestParent⟩ := ih hkeeps.1 ((hpages page).trans hpage) hbounded
      hrestNodup
      (fun u hu ↦ (hmoved u (hmem hu)).trans (hlisted u (mem_cons_of_mem _ hu)))
    refine ⟨hkeeps.trans hrest, fun u ↦ (hrestPages u).trans (hpages u), fun u ↦ ?_⟩
    rw [hrestParent]
    by_cases heq : u = row.id
    · subst heq
      rw [if_neg hb, if_pos mem_cons_self]
      exact hself
    · rw [hmoved u heq]
      simp [heq]

theorem updatePageTitle_keeps [DecidableEq T] (keys : KeyGenerator K) (ht : t.IsForest) {page : U}
    {title : T} {existing : Option U} {listed : List U} (h : t.Answers page title existing listed) :
    Keeps t (t.updatePageTitle keys page title existing listed) := by
  obtain ⟨hpage, hanswer⟩ := h
  have hretitled (s : Outline U K T) (u : U) := get_modify (t := s) (k := page)
    (f := fun b : Block U K T ↦ { b with title := some title }) (fun _ ↦ rfl) u
  cases existing with
  | none => exact retitle_keeps ht hpage (hretitled t)
  | some other =>
    obtain ⟨hne, htitle, hperm⟩ := hanswer
    have hother : t.isPage other := by
      obtain ⟨row, hrow, hrowTitle⟩ := bind_eq_some_iff.mp htitle
      rw [isPage_of_get hrow, hrowTitle]
      rfl
    have hroot := ht.pages hother
    have hmem (u : U) : u ∈ listed ↔ t.parent u = some other := by
      rw [hperm.mem_iff, List.mem_map, parent_eq_some]
      constructor
      · rintro ⟨row, hrow, rfl⟩
        obtain ⟨hget, hparent⟩ := mem_select.mp hrow
        exact ⟨row, hget, by simpa using hparent⟩
      · rintro ⟨row, hget, hparent⟩
        obtain rfl := key_of_get hget
        exact ⟨row, mem_select.mpr ⟨hget, by simpa using hparent⟩, rfl⟩
    have hnodup : listed.Nodup := by
      rw [hperm.nodup_iff]
      exact t.nodup.sublist (filter_sublist.map Block.id)
    obtain ⟨hmoved, hpages, hparents⟩ := moveAll_keeps keys ht hpage (bounded_max page) hnodup
      fun u hu ↦ (hmem u).mp hu
    have hremoved : Keeps (moveAll keys page t (t.maxOrder page) listed)
        ((moveAll keys page t (t.maxOrder page) listed).remove other) := by
      refine remove_keeps hmoved.1 ?_ (fun u ↦ ?_) (get_remove _ other)
      · rw [hparents, if_neg (fun hin ↦ by rw [(hmem other).mp hin] at hroot; exact nomatch hroot)]
        exact hroot
      · rw [hparents]
        split
        · exact fun heq ↦ hne (some.inj heq).symm
        · next hu => exact fun heq ↦ hu ((hmem u).mpr heq)
    refine (hmoved.trans hremoved).trans (retitle_keeps hremoved.1 ?_ fun u ↦ hretitled _ u)
    rw [isPage, get_remove, if_neg hne.symm]
    exact (hpages page).trans hpage

variable [DecidableEq T]

/-- The edit outdents a child of a page. -/
def LeavesPage (t : Outline U K T) : Event U K T → Prop
  | .outdent block => (t.parent block).any t.isPage
  | _ => False

omit [LinearOrder K] [DecidableEq T] in
theorem createBlock_step (ht : t.IsForest) {parent id : U} {o : K}
    (hfresh : o ∉ t.childOrders parent) {answer : Bool}
    (h : (t.createBlock parent id o).map (true, ·) = some (answer, t')) : Keeps t t' := by
  obtain ⟨s, hs, heq⟩ := map_eq_some_iff.mp h
  obtain ⟨-, rfl⟩ := mk.inj heq
  exact createBlock_keeps ht hfresh hs

omit [DecidableEq T] in
theorem next_fresh (keys : KeyGenerator K) (p : U) (after : Option K) :
    keys.between after (t.nextOrder p after) ∉ t.childOrders p := by
  intro hmem
  obtain ⟨hafter, hbefore⟩ := next_spec (t := t) keys p after
  exact lt_irrefl _ (hbefore _ hmem hafter)

/-- An edit that answers false does nothing. -/
theorem perform_false {event : Event U K T} (h : t.perform keys event = some (false, t')) :
    t' = t := by
  have hmap {o : Option (Outline U K T)} (ho : o.map (true, ·) = some (false, t')) : t' = t := by
    obtain ⟨s, -, heq⟩ := map_eq_some_iff.mp ho
    exact nomatch (mk.inj heq).1
  cases event with
  | append | insertAfter | createSiblingAfter => exact hmap h
  | indent block | outdent block | moveUp block | moveDown block =>
    simp only [perform, indentBlock, outdentBlock, moveBlockUp, moveBlockDown] at h
    grind
  | merge page title existing listed =>
    simp only [perform] at h
    grind

/-- What an edit owes to the outline. -/
structure Intact (keys : KeyGenerator K) (t : Outline U K T) (event : Event U K T) : Prop where
  acyclic : Acyclic (t.step keys event).parent
  distinct : ∀ u v p o, (t.step keys event).parent u = some p →
    (t.step keys event).parent v = some p → (t.step keys event).order u = some o →
    (t.step keys event).order v = some o → u = v
  reachable : ∀ x, t.Under x → (t.step keys event).UnderOne x
  unchanged : ∀ t', t.perform keys event = some (false, t') → t' = t

theorem Keeps.intact {event : Event U K T} (h : Keeps t (t.step keys event)) :
    Intact keys t event where
  acyclic := h.1.acyclic
  distinct _ _ _ _ := h.1.distinct
  reachable x hx := h.1.underOne (h.2 x hx)
  unchanged _ := perform_false

section

variable (ht : t.IsForest) {event : Event U K T}
include ht

theorem perform_keeps {answer : Bool} (hevent : ¬ t.LeavesPage event)
    (h : t.perform keys event = some (answer, t')) : Keeps t t' := by
  cases event with
  | append parent id => exact createBlock_step ht (fun hmem ↦ lt_irrefl _ (max_lt keys hmem)) h
  | insertAfter parent after id => exact createBlock_step ht (next_fresh keys parent (some after)) h
  | createSiblingAfter block id =>
    simp only [perform, createSiblingAfter] at h
    split at h
    · next parent current _ _ => exact createBlock_step ht (next_fresh keys parent (some current)) h
    · cases h
  | indent block => exact indentBlock_keeps ht h
  | outdent block => exact outdentBlock_keeps ht hevent h
  | moveUp block => exact moveBlockUp_keeps ht h
  | moveDown block => exact moveBlockDown_keeps ht h
  | merge page title existing listed =>
    simp only [perform] at h
    split at h
    · next hanswers =>
      obtain ⟨-, rfl⟩ := mk.inj (some.inj h)
      exact updatePageTitle_keeps keys ht hanswers
    · cases h

theorem step_keeps (hevent : ¬ t.LeavesPage event) : Keeps t (t.step keys event) := by
  rw [step]
  cases h : t.perform keys event with
  | none => exact .refl ht
  | some result => exact perform_keeps ht hevent h

/-- Outdenting a child of a page leaves it without a page. -/
theorem leavesPage_lost (hevent : t.LeavesPage event) : ¬ Intact keys t event := by
  cases event with
  | outdent b =>
    intro hintact
    obtain ⟨p, hp, hpage⟩ := (any_eq_true _ _).mp hevent
    obtain ⟨row, hb, hparent⟩ := parent_eq_some.mp hp
    obtain rfl := key_of_get hb
    have hroot := ht.pages hpage
    obtain ⟨page, ⟨-, hbelow⟩, -⟩ := hintact.reachable row.id ⟨p, hpage, .single hp⟩
    have hstep : (t.step keys (.outdent row.id)).parent row.id = none := by
      simp only [step, perform, outdentBlock, hb, hparent, hroot, map_some, getD_some]
      exact parent_of_get (wrote_set { row with parent := none, order := _ } hb).self
    obtain ⟨q, hq, -⟩ := below_iff.mp hbelow
    cases hstep.symm.trans hq
  | append | insertAfter | createSiblingAfter | indent | moveUp | moveDown | merge =>
    exact hevent.elim

end

end

end Outline

/-- Keys that are rational numbers. -/
def KeyGenerator.rational : KeyGenerator ℚ where
  between
    | some a, some b => (a + b) / 2
    | some a, none => a + 1
    | none, some b => b - 1
    | none, none => 0
  between_spec a b hab := by
    cases a with
    | none => cases b <;> simp
    | some a =>
      cases b with
      | none => simp
      | some b =>
        have hlt : a < b := hab a rfl b rfl
        simp only [Option.mem_def, Option.some.injEq, forall_eq']
        constructor <;> linarith

namespace Outline

/-- A page with one block. -/
def page : Outline ℕ ℚ Unit where
  rows := [⟨0, none, none, some ()⟩, ⟨1, some 0, some 0, none⟩]
  nodup := by decide

theorem page_get (u : ℕ) : page.get u = if u = 0 then some ⟨0, none, none, some ()⟩
    else if u = 1 then some ⟨1, some 0, some 0, none⟩ else none := by
  simp only [page, Table.get, find?_cons, find?_nil]
  rcases u with - | - | u <;> simp

theorem page_parent (u : ℕ) : page.parent u = if u = 1 then some 0 else none := by
  rw [parent, page_get]
  rcases u with - | - | u <;> simp

theorem page_isForest : page.IsForest where
  parents := by
    intro u p hp
    rw [page_parent] at hp
    split at hp
    · obtain rfl := some.inj hp
      rfl
    · exact nomatch hp
  pages := by
    intro u hu
    rw [isPage, page_get] at hu
    rw [page_parent]
    rcases u with - | - | u <;> simp_all
  distinct := by
    intro u v p o hu hv _ _
    rw [page_parent] at hu hv
    split at hu <;> split at hv <;> simp_all
  acyclic := by
    have hedge {u v : ℕ} (h : Edge page.parent u v) : v < u := by
      rw [Edge, page_parent] at h
      split at h <;> simp_all
    have hbelow {u v : ℕ} (h : Below page.parent u v) : v < u := by
      induction h with
      | single h => exact hedge h
      | tail _ h ih => exact (hedge h).trans ih
    exact fun u h ↦ lt_irrefl u (hbelow h)

end Outline

end Simmis.Wiki
