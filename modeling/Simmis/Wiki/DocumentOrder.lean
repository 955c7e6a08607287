import Simmis.Wiki.Placement

/-!
# Document order

The children of a block follow it, sorted by their keys, each one with what is below it. An edit
writes one block, so the sorted children of a block change by the removal or the insertion of that
block.
-/

namespace Simmis.Wiki

open List Option Forest Relation OrderedForest

namespace Outline

section

variable {U K T : Type} [DecidableEq U] [LinearOrder K]

/-- The order of `sort-by`: nil is below every key. -/
def sortsBefore : Option K → Option K → Bool
  | none, _ => true
  | some _, none => false
  | some a, some b => a ≤ b

variable (t : Outline U K T)

/-- The children of `p` in `build-children-index`, sorted by their keys. -/
def kids (p : U) : List U :=
  ((t.select fun r ↦ r.parent = some p).insertionSort fun a b ↦
    sortsBefore a.order b.order).map Block.id

/-- The blocks below `root` with their depths. -/
def flattenToDocumentOrder (root : U) : List (U × ℕ) := flatten t.kids t.rows.length 0 root

/-- A block and what is below it, at a depth. -/
def subtree (depth : ℕ) (block : U) : List (U × ℕ) :=
  (block, depth) :: flatten t.kids t.rows.length (depth + 1) block

/-- What the store has of a page: references name entities, the page has no parent, and the siblings
below it have distinct keys. -/
structure IsPageTree (t : Outline U K T) (page : U) : Prop where
  parents : ∀ {u p}, t.parent u = some p → (t.get p).isSome
  isPage : t.isPage page
  root : t.parent page = none
  keyed : ∀ {u p}, Within t.parent p page → t.parent u = some p → (t.order u).isSome
  distinct : ∀ {u v p o}, Within t.parent p page → t.parent u = some p → t.parent v = some p →
    t.order u = some o → t.order v = some o → u = v

variable {t t' : Outline U K T} {page p b : U}

theorem mem_kids {u : U} : u ∈ t.kids p ↔ t.parent u = some p := by
  simp only [kids, List.mem_map, List.mem_insertionSort, Table.mem_select, decide_eq_true_eq,
    parent_eq_some]
  constructor
  · rintro ⟨r, ⟨hr, hparent⟩, rfl⟩
    exact ⟨r, hr, hparent⟩
  · rintro ⟨r, hr, hparent⟩
    obtain rfl := Table.key_of_get hr
    exact ⟨r, ⟨hr, hparent⟩, rfl⟩

theorem nodup_kids (p : U) : (t.kids p).Nodup := by
  have hperm := (perm_insertionSort (fun a b : Block U K T ↦ sortsBefore a.order b.order)
    (t.select fun r ↦ r.parent = some p)).map Block.id
  rw [kids, hperm.nodup_iff]
  exact t.nodup.sublist (filter_sublist.map Block.id)

theorem sortsBefore_total (a b : Option K) : sortsBefore a b ∨ sortsBefore b a := by
  cases a with
  | none => exact .inl rfl
  | some a =>
    cases b with
    | none => exact .inr rfl
    | some b => simpa [sortsBefore] using le_total a b

theorem sortsBefore_trans {a b c : Option K} (hab : sortsBefore a b) (hbc : sortsBefore b c) :
    sortsBefore a c := by
  cases a with
  | none => rfl
  | some a =>
    cases b with
    | none => exact nomatch hab
    | some b =>
      cases c with
      | none => exact nomatch hbc
      | some c =>
        simp only [sortsBefore, decide_eq_true_eq] at hab hbc ⊢
        exact le_trans hab hbc

/-- Both have keys, and the key of `u` is less. -/
def KeyLT (u v : U) : Prop := ∃ o o', t.order u = some o ∧ t.order v = some o' ∧ o < o'

theorem kids_pairwise (p : U) :
    (t.kids p).Pairwise fun u v ↦ sortsBefore (t.order u) (t.order v) := by
  have : Std.Total fun a b : Block U K T ↦ (sortsBefore a.order b.order : Prop) :=
    ⟨fun a b ↦ sortsBefore_total a.order b.order⟩
  have : IsTrans (Block U K T) fun a b ↦ (sortsBefore a.order b.order : Prop) :=
    ⟨fun _ _ _ ↦ sortsBefore_trans⟩
  have hsorted := pairwise_insertionSort
    (fun a b : Block U K T ↦ (sortsBefore a.order b.order : Prop))
    (t.select fun r ↦ r.parent = some p)
  rw [kids, pairwise_map]
  refine hsorted.imp_of_mem fun {a b} ha hb hab ↦ ?_
  rw [mem_insertionSort, Table.mem_select] at ha hb
  rwa [order_of_get ha.1, order_of_get hb.1]

/-- The children in the order of their keys are the sorted children. -/
theorem kids_eq {l : List U} (hl : l.Pairwise t.KeyLT) (hmem : ∀ u, u ∈ l ↔ t.parent u = some p) :
    t.kids p = l := by
  have hirrefl {u v : U} (h : t.KeyLT u v) : u ≠ v := by
    rintro rfl
    obtain ⟨o, o', ho, ho', hlt⟩ := h
    exact hlt.ne (some.inj (ho.symm.trans ho'))
  have hnodup : l.Nodup := hl.imp hirrefl
  have hperm : (t.kids p).Perm l :=
    (perm_ext_iff_of_nodup (t.nodup_kids p) hnodup).mpr fun u ↦ mem_kids.trans (hmem u).symm
  have hsorted : l.Pairwise fun u v ↦ sortsBefore (t.order u) (t.order v) :=
    hl.imp fun {u v} h ↦ by
      obtain ⟨o, o', ho, ho', hlt⟩ := h
      rw [ho, ho', sortsBefore]
      exact decide_eq_true hlt.le
  refine hperm.eq_of_pairwise (fun u v hu hv huv hvu ↦ ?_) (t.kids_pairwise p) hsorted
  by_contra hne
  have hcomparable : l.Pairwise fun u v ↦ t.KeyLT u v ∨ t.KeyLT v u := hl.imp .inl
  have : Std.Symm fun u v ↦ t.KeyLT u v ∨ t.KeyLT v u := ⟨fun _ _ h ↦ h.symm⟩
  rcases hcomparable.forall (hperm.subset hu) hv hne with h | h
  · obtain ⟨o, o', ho, ho', hlt⟩ := h
    rw [ho, ho', sortsBefore, decide_eq_true_eq] at hvu
    exact not_le_of_gt hlt hvu
  · obtain ⟨o, o', ho, ho', hlt⟩ := h
    rw [ho, ho', sortsBefore, decide_eq_true_eq] at huv
    exact not_le_of_gt hlt huv

theorem IsPageTree.kids_sorted (h : t.IsPageTree page) (hp : Within t.parent p page) :
    (t.kids p).Pairwise t.KeyLT := by
  refine ((t.kids_pairwise p).and (t.nodup_kids p)).imp_of_mem fun {u v} hu hv huv ↦ ?_
  rw [mem_kids] at hu hv
  obtain ⟨o, ho⟩ := isSome_iff_exists.mp (h.keyed hp hu)
  obtain ⟨o', ho'⟩ := isSome_iff_exists.mp (h.keyed hp hv)
  refine ⟨o, o', ho, ho', ?_⟩
  rw [ho, ho', sortsBefore, decide_eq_true_eq] at huv
  refine lt_of_le_of_ne huv.1 fun heq ↦ huv.2 ?_
  exact h.distinct hp hu hv ho (heq ▸ ho')

/-- `u` has a key, and it is before `o`. -/
def Before (o : K) (u : U) : Prop := ∃ x, t.order u = some x ∧ x < o

/-- `u` has a key, and it is after `o`. -/
def After (o : K) (u : U) : Prop := ∃ x, t.order u = some x ∧ o < x

theorem split_keys {l r : List U} {a : U} {o : K} (h : (l ++ a :: r).Pairwise t.KeyLT)
    (ho : t.order a = some o) : (∀ u ∈ l, t.Before o u) ∧ ∀ u ∈ r, t.After o u := by
  obtain ⟨-, hr, hl⟩ := pairwise_append.mp h
  constructor
  · intro u hu
    obtain ⟨x, x', hx, hx', hlt⟩ := hl u hu a mem_cons_self
    rw [ho] at hx'
    exact ⟨x, hx, some.inj hx' ▸ hlt⟩
  · intro u hu
    obtain ⟨x, x', hx, hx', hlt⟩ := (pairwise_cons.mp hr).1 u hu
    rw [ho] at hx
    exact ⟨x', hx', some.inj hx ▸ hlt⟩

section

variable {row : Block U K T}

theorem Wrote.keyLT (h : Wrote t t' row) {u v : U} (hu : u ≠ row.id) (hv : v ≠ row.id) :
    t'.KeyLT u v ↔ t.KeyLT u v := by
  rw [KeyLT, KeyLT, h.order_other hu, h.order_other hv]

/-- The written block comes where its key is among the others. -/
theorem Wrote.kids_place (h : Wrote t t' row) (hp : row.parent = some p) {o : K}
    (ho : row.order = some o) (hsorted : (t.kids p).Pairwise t.KeyLT) {l r : List U}
    (hsplit : (t.kids p).filter (· ≠ row.id) = l ++ r) (hl : ∀ u ∈ l, t.Before o u)
    (hr : ∀ u ∈ r, t.After o u) : t'.kids p = l ++ row.id :: r := by
  have hothers : ∀ u ∈ l ++ r, u ≠ row.id := by
    intro u hu
    rw [← hsplit] at hu
    simpa using (mem_filter.mp hu).2
  have hpairs : (l ++ r).Pairwise t'.KeyLT := by
    rw [← hsplit]
    refine (hsorted.filter _).imp_of_mem fun {u v} hu hv huv ↦ ?_
    rw [hsplit] at hu hv
    exact (h.keyLT (hothers u hu) (hothers v hv)).mpr huv
  have hself := (order_of_get h.self).trans ho
  apply kids_eq
  · obtain ⟨hpl, hpr, hlr⟩ := pairwise_append.mp hpairs
    refine pairwise_append.mpr ⟨hpl, pairwise_cons.mpr ⟨fun u hu ↦ ?_, hpr⟩, ?_⟩
    · obtain ⟨x, hx, hlt⟩ := hr u hu
      have hne := hothers u (mem_append_right l hu)
      exact ⟨o, x, hself, (h.order_other hne).trans hx, hlt⟩
    · intro u hu v hv
      rcases mem_cons.mp hv with rfl | hv
      · obtain ⟨x, hx, hlt⟩ := hl u hu
        have hne := hothers u (mem_append_left r hu)
        exact ⟨x, o, (h.order_other hne).trans hx, hself, hlt⟩
      · exact hlr u hu v hv
  · intro u
    have hmem : u ∈ l ++ r ↔ u ≠ row.id ∧ t.parent u = some p := by
      rw [← hsplit, mem_filter, mem_kids]
      simp [and_comm]
    by_cases hu : u = row.id
    · subst hu
      rw [parent_of_get h.self, hp]
      simp
    · rw [h.moved u hu]
      rw [mem_append] at hmem
      rw [mem_append, mem_cons]
      simp only [hu, false_or]
      rw [hmem]
      exact and_iff_right hu

/-- Under another parent the written block is missed. -/
theorem Wrote.kids_other (h : Wrote t t' row) {q : U} (hp : row.parent = some q) (hne : p ≠ q)
    (hsorted : (t.kids p).Pairwise t.KeyLT) : t'.kids p = (t.kids p).filter (· ≠ row.id) := by
  have hothers {u : U} (hu : u ∈ (t.kids p).filter (· ≠ row.id)) : u ≠ row.id := by
    simpa using (mem_filter.mp hu).2
  apply kids_eq
  · exact (hsorted.filter _).imp_of_mem fun {u v} hu hv huv ↦
      (h.keyLT (hothers hu) (hothers hv)).mpr huv
  · intro u
    rw [mem_filter, mem_kids, decide_eq_true_eq]
    by_cases hu : u = row.id
    · subst hu
      rw [parent_of_get h.self, hp]
      simp [hne.symm]
    · rw [h.moved u hu]
      exact and_iff_left hu

/-- A block is written under `q`, which is below the page but not below the block, between two
stretches of children. -/
structure Moves (t t' : Outline U K T) (page : U) (row : Block U K T) (q : U) (o : K)
    (l r : List U) : Prop where
  wrote : Wrote t t' row
  parent : row.parent = some q
  order : row.order = some o
  target : Within t.parent q page
  outside : ¬ Within t.parent q row.id
  old : t.get row.id = none ∨ Below t.parent row.id page
  split : (t.kids q).filter (· ≠ row.id) = l ++ r
  before : ∀ u ∈ l, t.Before o u
  after : ∀ u ∈ r, t.After o u

variable {q : U} {o : K} {l r : List U}

omit [LinearOrder K] in
theorem IsPageTree.no_child (h : t.IsPageTree page) (hb : t.get b = none) (u : U) :
    t.parent u ≠ some b := by
  intro hu
  have hsome := h.parents hu
  rw [hb] at hsome
  exact nomatch hsome

section

variable (h : Moves t t' page row q o l r)
include h

theorem Moves.fresh {u : U} (hu : u ≠ row.id) (hq : t.parent u = some q) : t.order u ≠ some o := by
  have hmem : u ∈ (t.kids q).filter (· ≠ row.id) :=
    mem_filter.mpr ⟨mem_kids.mpr hq, decide_eq_true hu⟩
  rw [h.split] at hmem
  intro huo
  rcases mem_append.mp hmem with hmem | hmem
  · obtain ⟨x, hx, hlt⟩ := h.before u hmem
    exact hlt.ne (some.inj (hx.symm.trans huo))
  · obtain ⟨x, hx, hlt⟩ := h.after u hmem
    exact hlt.ne (some.inj (huo.symm.trans hx))

theorem Moves.self : t'.parent row.id = some q := (parent_of_get h.wrote.self).trans h.parent

/-- What was below the page is below it. -/
theorem Moves.stays {y : U} (hy : Within t.parent y page) : Within t'.parent y page := by
  have hmoved := h.wrote.moved
  by_cases hb : Within t.parent y row.id
  · have htarget := within_avoid hmoved h.target h.outside
    exact (within_to hmoved hb).trans (.head h.self htarget)
  · exact within_avoid hmoved hy hb

section

variable (ht : t.IsPageTree page)
include ht

theorem Moves.ne_page : page ≠ row.id := by
  rintro rfl
  rcases h.old with hnone | hbelow
  · have hsome := isSome_of_isPage ht.isPage
    rw [hnone] at hsome
    exact nomatch hsome
  · obtain ⟨p, hp, -⟩ := below_iff.mp hbelow
    exact nomatch ht.root.symm.trans hp

/-- Nothing but a new block comes below the page. -/
theorem Moves.was {y : U} (hne : y ≠ row.id) (hy : Within t'.parent y page) :
    Within t.parent y page := by
  have hmoved := h.wrote.moved
  by_cases hb : Within t'.parent y row.id
  · have hb' := within_to hmoved.symm hb
    rcases h.old with hnone | hbelow
    · have hy' := (within_iff.mp hb').resolve_left hne.symm
      obtain ⟨u, -, hu⟩ := TransGen.tail'_iff.mp hy'
      exact absurd hu (ht.no_child hnone u)
    · exact hb'.trans (within_of_below hbelow)
  · exact within_avoid hmoved.symm hy hb

/-- An edge below the page is an old one or the new one. -/
theorem Moves.edge {u p : U} (hne : u ≠ row.id) (hu : t'.parent u = some p)
    (hp : Within t'.parent p page) : t.parent u = some p ∧ Within t.parent p page := by
  rw [h.wrote.moved u hne] at hu
  refine ⟨hu, ?_⟩
  by_cases hrow : p = row.id
  · subst hrow
    rcases h.old with hnone | hbelow
    · exact absurd hu (ht.no_child hnone u)
    · exact within_of_below hbelow
  · exact h.was ht hrow hp

theorem Moves.isPageTree : t'.IsPageTree page where
  parents := by
    intro u p hp
    by_cases hu : u = row.id
    · subst hu
      rw [h.self] at hp
      obtain rfl := some.inj hp
      rcases Relation.ReflTransGen.cases_head h.target with heq | ⟨c, hc, -⟩
      · exact h.wrote.isSome (heq ▸ isSome_of_isPage ht.isPage)
      · obtain ⟨r, hr, -⟩ := parent_eq_some.mp hc
        exact h.wrote.isSome (hr ▸ rfl)
    · rw [h.wrote.moved u hu] at hp
      exact h.wrote.isSome (ht.parents hp)
  isPage := by
    rw [Outline.isPage, h.wrote.other (h.ne_page ht)]
    exact ht.isPage
  root := (h.wrote.moved page (h.ne_page ht)).trans ht.root
  keyed := by
    intro u p hp hu
    by_cases hne : u = row.id
    · subst hne
      rw [order_of_get h.wrote.self, h.order]
      rfl
    · obtain ⟨hu', hp'⟩ := h.edge ht hne hu hp
      rw [h.wrote.order_other hne]
      exact ht.keyed hp' hu'
  distinct := by
    have hself {v x : U} {o' : K} (hv : v ≠ row.id) (hx : Within t'.parent x page)
        (hb : t'.parent row.id = some x) (hbo : t'.order row.id = some o')
        (hvx : t'.parent v = some x) : t'.order v ≠ some o' := by
      rw [h.self] at hb
      rw [order_of_get h.wrote.self, h.order] at hbo
      obtain rfl := some.inj hb
      obtain rfl := some.inj hbo
      rw [h.wrote.order_other hv]
      exact h.fresh hv (h.edge ht hv hvx hx).1
    intro u v x o' hx hu hv huo hvo
    by_cases hub : u = row.id
    · by_cases hvb : v = row.id
      · exact hub.trans hvb.symm
      · subst hub
        exact absurd hvo (hself hvb hx hu huo hv)
    · by_cases hvb : v = row.id
      · subst hvb
        exact absurd huo (hself hub hx hv hvo hu)
      · obtain ⟨hu', hx'⟩ := h.edge ht hub hu hx
        rw [h.wrote.order_other hub] at huo
        rw [h.wrote.order_other hvb] at hvo
        exact ht.distinct hx' hu' (h.edge ht hvb hv hx).1 huo hvo

end

end

variable (h : t.IsPageTree page)

/-- The blocks below the page, as an ordered forest. -/
noncomputable def IsPageTree.forest : OrderedForest U :=
  .ofRoot t.parent t.kids page (t.rows.map Block.id) h.root (fun _ _ _ ↦ mem_kids)
    (fun x _ ↦ t.nodup_kids x) (fun x hx ↦ by
      obtain ⟨p, hp, -⟩ := below_iff.mp hx
      obtain ⟨r, hr, -⟩ := parent_eq_some.mp hp
      obtain ⟨hmem, rfl⟩ := Table.get_eq_some_iff.mp hr
      exact List.mem_map_of_mem hmem)

theorem IsPageTree.forest_within {x y : U} (hy : Within t.parent y page)
    (hx : Within t.parent x y) : Within h.forest.parent x y := ofRoot_within hy hx

theorem filter_self {x : U} (hx : t.parent b ≠ some x) : (t.kids x).filter (· ≠ b) = t.kids x := by
  rw [filter_eq_self]
  intro u hu
  rw [decide_eq_true_eq]
  rintro rfl
  exact hx (mem_kids.mp hu)

theorem Moves.kids_target (h : Moves t t' page row q o l r) (ht : t.IsPageTree page) :
    t'.kids q = l ++ row.id :: r :=
  h.wrote.kids_place h.parent h.order (ht.kids_sorted h.target) h.split h.before h.after

/-- A new block has no children. -/
theorem Moves.leaf (h : Moves t t' page row q o l r) (ht : t.IsPageTree page)
    (hnone : t.get row.id = none) : t'.kids row.id = [] := by
  rw [eq_nil_iff_forall_not_mem]
  intro u hu
  rw [mem_kids] at hu
  by_cases heq : u = row.id
  · subst heq
    rw [h.self] at hu
    exact h.outside (some.inj hu ▸ .refl)
  · rw [h.wrote.moved u heq] at hu
    exact ht.no_child hnone u hu

/-- Children of other nodes than the two parents stay as they are. -/
theorem Moves.kids_same (h : Moves t t' page row q o l r) (ht : t.IsPageTree page) {x : U}
    (hx : Within t.parent x page) (hq : x ≠ q) (hold : t.parent row.id ≠ some x) :
    t'.kids x = t.kids x := by
  rw [h.wrote.kids_other h.parent hq (ht.kids_sorted hx), filter_self hold]

section

variable {x : U} (hx : Within t.parent x page)
include hx

theorem IsPageTree.forest_kids :
    h.forest.kids x = t.kids x := ofRoot_kids hx

theorem IsPageTree.forest_doc (d : ℕ) : h.forest.doc d x = flatten t.kids t.rows.length d x := by
  rw [forest, ofRoot_doc hx, length_map]

theorem IsPageTree.subtree_eq (d : ℕ) : t.subtree d x = h.forest.seg d [x] := by
  rw [subtree, seg_cons, seg_nil, append_nil, h.forest_doc hx]

end

theorem IsPageTree.flatten_eq :
    t.flattenToDocumentOrder page = h.forest.doc 0 page := (h.forest_doc .refl 0).symm

/-- The recursion of the source has no bound; the one here is never reached. -/
theorem IsPageTree.flatten_bound (h : t.IsPageTree page) {n : ℕ} (hn : t.rows.length ≤ n) :
    flatten t.kids n 0 page = t.flattenToDocumentOrder page := by
  have hsame : ∀ x, Within t.parent x page →
      t.kids x = h.forest.kids x ∧ ∀ c ∈ h.forest.kids x, Within t.parent c page := by
    intro x hx
    rw [h.forest_kids hx]
    exact ⟨rfl, fun c hc ↦ .head (mem_kids.mp hc) hx⟩
  have hbound : h.forest.rank page ≤ t.rows.length := by
    simpa [forest, ofRoot] using h.forest.rank_le page
  rw [flattenToDocumentOrder, flatten_congr _ hsame .refl, flatten_congr _ hsame .refl]
  exact flatten_stable h.forest.rank_lt (hbound.trans hn) hbound

theorem IsPageTree.flatten_congr (h : t.IsPageTree page) (h' : t'.IsPageTree page)
    (hsame : ∀ x, Within t.parent x page → t'.kids x = t.kids x) :
    t'.flattenToDocumentOrder page = t.flattenToDocumentOrder page := by
  rw [← h.flatten_bound (le_max_left _ t'.rows.length),
    ← h'.flatten_bound (le_max_right t.rows.length _)]
  refine Forest.flatten_congr (fun x ↦ Within t.parent x page) (fun x hx ↦ ⟨hsame x hx, ?_⟩) .refl
    _ _
  exact fun c hc ↦ .head (mem_kids.mp hc) hx

theorem Moves.forest_same (h : Moves t t' page row q o l r) (ht : t.IsPageTree page) {x : U}
    (hq : x ≠ q) (hold : t.parent row.id ≠ some x) :
    (h.isPageTree ht).forest.kids x = ht.forest.kids x := by
  have houtside {s : Outline U K T} (hs : s.IsPageTree page) (hx : ¬ Within s.parent x page) :
      hs.forest.kids x = [] := ofRoot_kids_outside hx
  by_cases hx : Within t.parent x page
  · rw [ht.forest_kids hx, (h.isPageTree ht).forest_kids (h.stays hx), h.kids_same ht hx hq hold]
  · rw [houtside ht hx]
    by_cases hrow : x = row.id
    · subst hrow
      have hnone := h.old.resolve_right fun hbelow ↦ hx (within_of_below hbelow)
      rw [(h.isPageTree ht).forest_kids (.head h.self (h.stays h.target)), h.leaf ht hnone]
    · exact houtside _ fun hx' ↦ hx (h.was ht hrow hx')

end

end

end Outline

end Simmis.Wiki
