import Simmis.Wiki.DocumentOrder

/-!
# Edits of the document

Creating, indenting, outdenting and moving a block, as operations on the ordered tree of a page: what
each one does to the sorted children of a block and to the document.
-/

namespace Simmis.Wiki

open List Option Forest Relation OrderedForest Table Prod

namespace Outline

section

variable {U K T : Type} [DecidableEq U] [LinearOrder K] {keys : KeyGenerator K}
  {t t' : Outline U K T} {page p q b : U} {row : Block U K T} {o : K} {l r : List U}

/-- `n` is the next sibling of `a`, and nothing else has changed. -/
structure Inserted (t t' : Outline U K T) (page a n : U) : Prop where
  kids : ∃ p l r, t.kids p = l ++ a :: r ∧ t'.kids p = l ++ a :: n :: r ∧ t'.kids n = [] ∧
    ∀ x, Within t.parent x page → x ≠ p → t'.kids x = t.kids x
  document : ∃ before after e,
    t.flattenToDocumentOrder page = before ++ t.subtree e a ++ after ∧
      t'.flattenToDocumentOrder page = before ++ t.subtree e a ++ (n, e) :: after

theorem createBlock_inserted (h : t.IsPageTree page) {a n : U} {key : K}
    (ha : t.parent a = some p) (hp : Within t.parent p page) (ho : t.order a = some o)
    (hlt : o < key) (hnext : ∀ x ∈ t.childOrders p, o < x → key < x)
    (hcreate : t.createBlock p n key = some t') : Inserted t t' page a n := by
  obtain ⟨-, hnone, rfl⟩ := createBlock_some hcreate
  have hparent : t.parent n = none := by
    rw [Outline.parent, hnone]
    rfl
  obtain ⟨l, r, hkids⟩ := append_of_mem (mem_kids.mpr ha)
  have hsorted := h.kids_sorted hp
  rw [hkids] at hsorted
  obtain ⟨hl, hr⟩ := split_keys hsorted ho
  have hmoves : Moves t (t.put { id := n, parent := some p, order := some key, title := none })
      page { id := n, parent := some p, order := some key, title := none } p key (l ++ [a]) r := by
    refine ⟨wrote_put _, rfl, rfl, hp, ?_, .inl hnone, ?_, ?_, ?_⟩
    · intro hwithin
      rcases ReflTransGen.cases_tail hwithin with heq | ⟨c, -, hc⟩
      · exact h.no_child hnone a (ha.trans (congrArg some heq.symm))
      · exact h.no_child hnone c hc
    · rw [filter_self (by simp [hparent]), hkids]
      simp
    · intro u hu
      rcases mem_append.mp hu with hu | hu
      · obtain ⟨x, hx, hxo⟩ := hl u hu
        exact ⟨x, hx, hxo.trans hlt⟩
      · obtain rfl := mem_singleton.mp hu
        exact ⟨o, ho, hlt⟩
    · intro u hu
      obtain ⟨x, hx, hox⟩ := hr u hu
      have hup : t.parent u = some p := mem_kids.mp (by rw [hkids]; simp [hu])
      exact ⟨x, hx, hnext x (mem_childOrders_iff.mpr ⟨u, hup, hx⟩) hox⟩
  have hkids' := hmoves.kids_target h
  rw [append_assoc, singleton_append] at hkids'
  have hleaf := hmoves.leaf h hnone
  have hn : Within (parent (t.put { id := n, parent := some p, order := some key, title := none })) n
      page := .head hmoves.self (hmoves.stays hp)
  have hold (x : U) : t.parent n ≠ some x := by simp [hparent]
  refine ⟨⟨p, l, r, hkids, hkids', hleaf, fun x hx hne ↦ hmoves.kids_same h hx hne (hold x)⟩, ?_⟩
  obtain ⟨before, after, e, hdoc, hdoc'⟩ := doc_insert (F := h.forest)
    (G := (hmoves.isPageTree h).forest) (p := p) (x := page) (n := n) (l := l ++ [a]) (r := r)
    (by simp [h.forest_kids hp, hkids])
    (by simp [(hmoves.isPageTree h).forest_kids (hmoves.stays hp), hkids'])
    (by rw [(hmoves.isPageTree h).forest_kids hn, hleaf])
    (fun y hy ↦ hmoves.forest_same h hy (hold y)) (h.forest_within .refl hp) 0
  have ha' : Within t.parent a page := .head ha hp
  refine ⟨before ++ h.forest.seg e l, h.forest.seg e r ++ after, e, ?_, ?_⟩
  · rw [h.flatten_eq, hdoc, h.subtree_eq ha', seg_append]
    simp
  · rw [(hmoves.isPageTree h).flatten_eq, hdoc', h.subtree_eq ha', seg_append]
    simp

theorem kid_of_split {l r : List U} {a : U} (h : t.kids p = l ++ a :: r) : t.parent a = some p := by
  rw [← mem_kids, h]
  simp

theorem filter_split {l r : List U} (hkids : t.kids p = l ++ b :: r) :
    (t.kids p).filter (· ≠ b) = l ++ r := by
  have hnodup := t.nodup_kids p
  rw [hkids] at hnodup ⊢
  obtain ⟨-, hr, hl⟩ := nodup_append.mp hnodup
  rw [filter_append, filter_cons_of_neg (by simp)]
  congr 1
  · rw [filter_eq_self]
    intro u hu
    exact decide_eq_true (hl u hu b mem_cons_self)
  · rw [filter_eq_self]
    intro u hu
    refine decide_eq_true ?_
    rintro rfl
    exact (nodup_cons.mp hr).1 hu

section

variable (h : t.IsPageTree page) (hp : Within t.parent p page) {l r : List U}
  (hkids : t.kids p = l ++ b :: r) (ho : t.order b = some o)
include h hp hkids ho

theorem IsPageTree.sibling_keys : (∀ u ∈ l, t.Before o u) ∧ ∀ u ∈ r, t.After o u := by
  have hsorted := h.kids_sorted hp
  rw [hkids] at hsorted
  exact split_keys hsorted ho

/-- The previous sibling is the one before the block among the sorted children. -/
theorem IsPageTree.prevSibling_eq :
    (t.prevSibling (some p) (some o) b).map Block.id = l.getLast? := by
  obtain ⟨hl, hr⟩ := h.sibling_keys hp hkids ho
  have hchild {u : U} (hu : u ∈ l) : ∃ c, t.get u = some c ∧ c.parent = some p :=
    parent_eq_some.mp (mem_kids.mp (by simp [hkids, hu]))
  have hne {u : U} (hu : u ∈ l) : u ≠ b := by
    have hnodup := t.nodup_kids p
    rw [hkids] at hnodup
    exact (nodup_append.mp hnodup).2.2 u hu b mem_cons_self
  cases hprev : t.prevSibling (some p) (some o) b with
  | none =>
    rw [map_none, eq_comm, getLast?_eq_none_iff, eq_nil_iff_forall_not_mem]
    intro u hu
    obtain ⟨x, hx, hlt⟩ := hl u hu
    obtain ⟨c, hc, hcp⟩ := hchild hu
    exact not_le_of_gt hlt (prev_none hprev hc hcp (hne hu) ((order_of_get hc).symm.trans hx) o rfl)
  | some prev =>
    obtain ⟨hget, hparent, hother, m, hm, ⟨x, hx, hlt⟩, hlast⟩ := prev_some hprev
    obtain rfl := some.inj hx
    have hmem : prev.id ∈ l := by
      have hin := mem_kids.mpr ((parent_of_get hget).trans hparent)
      rw [hkids] at hin
      rcases mem_append.mp hin with hin | hin
      · exact hin
      · rcases mem_cons.mp hin with heq | hin
        · exact absurd heq hother
        · obtain ⟨y, hy, hoy⟩ := hr _ hin
          rw [order_of_get hget, hm] at hy
          exact absurd (some.inj hy ▸ hoy) (not_lt_of_gt hlt)
    rcases eq_nil_or_concat l with rfl | ⟨l', a, rfl⟩
    · exact nomatch hmem
    · rw [map_some, concat_eq_append, getLast?_append, getLast?_singleton, some_or, some.injEq]
      rw [concat_eq_append] at *
      rcases mem_append.mp hmem with hin | hin
      · have hsorted := h.kids_sorted hp
        rw [hkids, append_assoc] at hsorted
        obtain ⟨m', x, hm', hx, hmx⟩ := (pairwise_append.mp hsorted).2.2 _ hin a (by simp)
        rw [order_of_get hget, hm] at hm'
        obtain ⟨c, hc, hcp⟩ := hchild (u := a) (by simp)
        obtain ⟨x', hx', hxo⟩ := hl a (by simp)
        rw [hx] at hx'
        rcases hlast a c x hc hcp (hne (by simp)) ((order_of_get hc).symm.trans hx) with hle | hle
        · exact absurd (some.inj hm' ▸ hmx) (not_lt_of_ge hle)
        · exact absurd (hle o rfl) (not_le_of_gt (some.inj hx' ▸ hxo))
      · exact mem_singleton.mp hin

/-- The next sibling is the one after the block among the sorted children. -/
theorem IsPageTree.nextSibling_eq : (t.nextSibling (some p) (some o) b).map Block.id = r.head? := by
  obtain ⟨hl, hr⟩ := h.sibling_keys hp hkids ho
  have hchild {u : U} (hu : u ∈ r) : ∃ c, t.get u = some c ∧ c.parent = some p :=
    parent_eq_some.mp (mem_kids.mp (by simp [hkids, hu]))
  have hne {u : U} (hu : u ∈ r) : u ≠ b := by
    have hnodup := t.nodup_kids p
    rw [hkids] at hnodup
    rintro rfl
    exact (nodup_cons.mp (nodup_append.mp hnodup).2.1).1 hu
  cases hnext : t.nextSibling (some p) (some o) b with
  | none =>
    rw [map_none, eq_comm, head?_eq_none_iff, eq_nil_iff_forall_not_mem]
    intro u hu
    obtain ⟨x, hx, hlt⟩ := hr u hu
    obtain ⟨c, hc, hcp⟩ := hchild hu
    obtain ⟨y, hy, hle⟩ := next_none hnext hc hcp (hne hu) ((order_of_get hc).symm.trans hx)
    exact not_le_of_gt hlt (some.inj hy ▸ hle)
  | some next =>
    obtain ⟨hget, hparent, hother, m, hm, hlt, hfirst⟩ := next_some hnext
    have hmem : next.id ∈ r := by
      have hin := mem_kids.mpr ((parent_of_get hget).trans hparent)
      rw [hkids] at hin
      rcases mem_append.mp hin with hin | hin
      · obtain ⟨y, hy, hyo⟩ := hl _ hin
        rw [order_of_get hget, hm] at hy
        exact absurd (some.inj hy ▸ hyo) (not_lt_of_gt (hlt o rfl))
      · exact (mem_cons.mp hin).resolve_left hother
    cases r with
    | nil => exact nomatch hmem
    | cons a r' =>
      rw [map_some, head?_cons, some.injEq]
      rcases mem_cons.mp hmem with heq | hin
      · exact heq
      · have hsorted := h.kids_sorted hp
        rw [hkids] at hsorted
        obtain ⟨-, htail, -⟩ := pairwise_append.mp hsorted
        obtain ⟨x, m', hx, hm', hxm⟩ :=
          (pairwise_cons.mp (pairwise_cons.mp htail).2).1 _ hin
        rw [order_of_get hget, hm] at hm'
        obtain ⟨c, hc, hcp⟩ := hchild (u := a) mem_cons_self
        obtain ⟨x', hx', hox⟩ := hr a mem_cons_self
        rw [hx] at hx'
        have hac := (order_of_get hc).symm.trans hx
        rcases hfirst a c x hc hcp (hne mem_cons_self) hac with hle | ⟨y, hy, hle⟩
        · exact absurd (some.inj hm' ▸ hxm) (not_lt_of_ge hle)
        · rw [← some.inj hy] at hle
          exact absurd hle (not_le_of_gt (some.inj hx' ▸ hox))

end

omit [LinearOrder K] in
theorem IsPageTree.outside (h : t.IsPageTree page) (hb : t.parent b = some p)
    (hp : Within t.parent p page) : ¬ Within t.parent p b := by
  intro hwithin
  have hcycle := cycle_within (below_iff.mpr ⟨p, hb, hwithin⟩) (.head hb hp)
  obtain ⟨q, hq, -⟩ := below_iff.mp hcycle
  exact nomatch h.root.symm.trans hq

theorem set_moves {old : Block U K T} {key : K} (hold : t.get b = some old)
    (hbelow : Below t.parent b page) (hq : Within t.parent q page) (hout : ¬ Within t.parent q b)
    (hsplit : (t.kids q).filter (· ≠ b) = l ++ r) (hl : ∀ u ∈ l, t.Before key u)
    (hr : ∀ u ∈ r, t.After key u) :
    Moves t (t.set { old with parent := some q, order := some key }) page
      { old with parent := some q, order := some key } q key l r := by
  obtain rfl := key_of_get hold
  exact ⟨wrote_set _ hold, rfl, rfl, hq, hout, .inr hbelow, hsplit, hl, hr⟩

/-- Only `a` and its next sibling `b` have changed places. -/
structure Swapped (t t' : Outline U K T) (page a b : U) : Prop where
  kids : ∃ p l r, Within t.parent p page ∧ t.kids p = l ++ a :: b :: r ∧
    t'.kids p = l ++ b :: a :: r ∧ ∀ x, Within t.parent x page → x ≠ p → t'.kids x = t.kids x
  document : ∃ before after e,
    t.flattenToDocumentOrder page = before ++ t.subtree e a ++ t.subtree e b ++ after ∧
      t'.flattenToDocumentOrder page = before ++ t.subtree e b ++ t.subtree e a ++ after

/-- A new key for a block, among the keys of its siblings. -/
theorem Moves.swapped (h : Moves t t' page row q o l r) (ht : t.IsPageTree page) {a c : U}
    {l' r' : List U} (hrow : t.parent row.id = some q) (hkids : t.kids q = l' ++ a :: c :: r')
    (hkids' : t'.kids q = l' ++ c :: a :: r') : Swapped t t' page a c := by
  have hedge (x : U) (hx : x ≠ q) : t.parent row.id ≠ some x := fun heq ↦
    hx (some.inj (heq.symm.trans hrow))
  have ha : t.parent a = some q := kid_of_split hkids
  have hc : t.parent c = some q := by
    rw [← mem_kids, hkids]
    simp
  refine ⟨⟨q, l', r', h.target, hkids, hkids', fun x hx hne ↦ h.kids_same ht hx hne (hedge x hne)⟩,
    ?_⟩
  obtain ⟨before, after, e, hdoc, hdoc'⟩ := doc_swap (F := ht.forest)
    (G := (h.isPageTree ht).forest) ((ht.forest_kids h.target).trans hkids)
    (((h.isPageTree ht).forest_kids (h.stays h.target)).trans hkids')
    (fun y hy ↦ h.forest_same ht hy (hedge y hy)) (ht.forest_within .refl h.target) 0
  refine ⟨before, after, e, ?_, ?_⟩
  · rw [ht.flatten_eq, hdoc, ht.subtree_eq (.head ha h.target), ht.subtree_eq (.head hc h.target)]
  · rw [(h.isPageTree ht).flatten_eq, hdoc', ht.subtree_eq (.head ha h.target),
      ht.subtree_eq (.head hc h.target)]

/-- A block below the page with its row, its place among its siblings and its key. -/
theorem IsPageTree.place (h : t.IsPageTree page) (hb : Below t.parent b page) :
    ∃ p row o l r, t.get b = some row ∧ row.parent = some p ∧ row.order = some o ∧
      t.parent b = some p ∧ Within t.parent p page ∧ t.kids p = l ++ b :: r ∧
      (∀ u ∈ l, t.Before o u) ∧ ∀ u ∈ r, t.After o u := by
  obtain ⟨p, hp, hwithin⟩ := below_iff.mp hb
  obtain ⟨row, hrow, hparent⟩ := parent_eq_some.mp hp
  obtain ⟨o, ho⟩ := isSome_iff_exists.mp (h.keyed hwithin hp)
  obtain ⟨l, r, hkids⟩ := append_of_mem (mem_kids.mpr hp)
  obtain ⟨hl, hr⟩ := h.sibling_keys hwithin hkids ho
  exact ⟨p, row, o, l, r, hrow, hparent, (order_of_get hrow).symm.trans ho, hp, hwithin, hkids, hl,
    hr⟩

theorem Before.trans {u : U} {o o' : K} (h : t.Before o u) (hlt : o < o') : t.Before o' u := by
  obtain ⟨x, hx, hxo⟩ := h
  exact ⟨x, hx, hxo.trans hlt⟩

/-- `b` is now the last child of `a`, the sibling before it; nothing else changed. -/
structure Indented (t t' : Outline U K T) (page a b : U) : Prop where
  kids : ∃ p l r, Within t.parent p page ∧ t.kids p = l ++ a :: b :: r ∧ t'.kids p = l ++ a :: r ∧
    t'.kids a = t.kids a ++ [b] ∧
    ∀ x, Within t.parent x page → x ≠ p → x ≠ a → t'.kids x = t.kids x
  document : ∃ before after e,
    t.flattenToDocumentOrder page = before ++ t.subtree e b ++ after ∧
      t'.flattenToDocumentOrder page =
        before ++ (t.subtree e b).map (fun entry ↦ (entry.1, entry.2 + 1)) ++ after

/-- The same blocks follow each other. -/
theorem Indented.sequence {a : U} (h : Indented t t' page a b) :
    (t'.flattenToDocumentOrder page).map fst = (t.flattenToDocumentOrder page).map fst := by
  obtain ⟨before, after, e, hdoc, hdoc'⟩ := h.document
  rw [hdoc, hdoc']
  simp only [List.map_append, List.map_map]
  rfl

/-- `b` has come out of `p` as the next sibling of it, and nothing else has changed. -/
structure Outdented (t t' : Outline U K T) (page p b : U) : Prop where
  kids : ∃ g l r l' r', t.kids g = l ++ p :: r ∧ t'.kids g = l ++ p :: b :: r ∧
    t.kids p = l' ++ b :: r' ∧ t'.kids p = l' ++ r' ∧
    ∀ x, Within t.parent x page → x ≠ g → x ≠ p → t'.kids x = t.kids x
  parents : ∀ u, u ≠ b → t'.parent u = t.parent u
  document : ∃ before after e left right,
    t.subtree e p = (p, e) :: left ++ t.subtree (e + 1) b ++ right ∧
      t.flattenToDocumentOrder page = before ++ t.subtree e p ++ after ∧
      t'.flattenToDocumentOrder page =
        before ++ (p, e) :: left ++ right ++ t.subtree e b ++ after

/-- Outdenting a block that is not a child of the page puts it after its parent. -/
theorem outdentBlock_spec (keys : KeyGenerator K) (h : t.IsPageTree page)
    (hb : t.parent b = some p) (hp : Below t.parent p page) :
    ∃ t', t.outdentBlock keys b = some (true, t') ∧ Outdented t t' page p b := by
  have hwithin := within_of_below hp
  have hbelow : Below t.parent b page := below_iff.mpr ⟨p, hb, hwithin⟩
  obtain ⟨row, hrow, hparent⟩ := parent_eq_some.mp hb
  obtain ⟨g, prow, m, l, r, hprow, -, hm, hg, hgwithin, hgkids, hl, hr⟩ := h.place hp
  obtain ⟨l', r', hpkids⟩ := append_of_mem (mem_kids.mpr hb)
  have hgp : g ≠ p := fun heq ↦ h.outside hg hgwithin (heq ▸ .refl)
  have hout : ¬ Within t.parent g b := fun hin ↦
    h.outside hg hgwithin (hin.tail hb)
  have hnot (x : U) (hx : x ≠ p) : t.parent b ≠ some x := fun heq ↦
    hx (some.inj (heq.symm.trans hb))
  obtain ⟨hafter, hbefore⟩ := next_spec (t := t) keys g (some m)
  have hsplit : (t.kids g).filter (· ≠ b) = (l ++ [p]) ++ r := by
    rw [filter_self (hnot g hgp), hgkids]
    simp
  have hmoves := set_moves hrow hbelow hgwithin hout hsplit
    (fun u hu ↦ by
      rcases mem_append.mp hu with hu | hu
      · exact (hl u hu).trans (hafter m rfl)
      · obtain rfl := mem_singleton.mp hu
        exact ⟨m, (order_of_get hprow).trans hm, hafter m rfl⟩)
    (fun u hu ↦ by
      obtain ⟨x, hx, hmx⟩ := hr u hu
      have hug : t.parent u = some g := mem_kids.mp (by simp [hgkids, hu])
      refine ⟨x, hx, hbefore x (mem_childOrders_iff.mpr ⟨u, hug, hx⟩) fun a ha ↦ ?_⟩
      exact some.inj ha ▸ hmx)
  have hid := key_of_get hrow
  have hg' := (hmoves.kids_target h).trans (by simp [hid] : _ = l ++ p :: b :: r)
  have hp' := (hmoves.wrote.kids_other hmoves.parent hgp.symm (h.kids_sorted hwithin)).trans
    (hid ▸ filter_split hpkids)
  have hedge (x : U) (hx : x ≠ p) : t.parent row.id ≠ some x := hid ▸ hnot x hx
  obtain ⟨before, after, e, hdoc, hdoc'⟩ := doc_outdent (F := h.forest)
    (G := (hmoves.isPageTree h).forest) ((h.forest_kids hgwithin).trans hgkids)
    (((hmoves.isPageTree h).forest_kids (hmoves.stays hgwithin)).trans hg')
    ((h.forest_kids hwithin).trans hpkids)
    (((hmoves.isPageTree h).forest_kids (hmoves.stays hwithin)).trans hp')
    (fun y hyg hyp ↦ hmoves.forest_same h hyg (hedge y hyp)) (h.forest_within .refl hgwithin) 0
  have hsub (d : ℕ) := h.subtree_eq (within_of_below hbelow) d
  have hpsub : t.subtree e p = (p, e) :: h.forest.seg (e + 1) l' ++ t.subtree (e + 1) b ++
      h.forest.seg (e + 1) r' := by
    rw [h.subtree_eq hwithin, seg_cons, doc_eq, h.forest_kids hwithin, hpkids, hsub]
    simp
  refine ⟨_, ?_, ⟨g, l, r, l', r', hgkids, hg', hpkids, hp', fun x hx hxg hxp ↦
    hmoves.kids_same h hx hxg (hedge x hxp)⟩, fun u hu ↦ hmoves.wrote.moved u (hid ▸ hu),
    before, after, e, h.forest.seg (e + 1) l', h.forest.seg (e + 1) r', hpsub, ?_, ?_⟩
  · simp only [outdentBlock, hrow, hparent, hg, hprow, bind_some, hm]
  · rw [h.flatten_eq, hdoc, hpsub, hsub]
    simp
  · rw [(hmoves.isPageTree h).flatten_eq, hdoc', hsub]

section

variable (keys : KeyGenerator K) (h : t.IsPageTree page) (hb : Below t.parent b page)
  (hkids : t.kids p = l ++ b :: r)
include h hb hkids

/-- Moving up fails for the first sibling and swaps any other one with the one before. -/
theorem moveBlockUp_spec : (l = [] → t.moveBlockUp keys b = some (false, t)) ∧
      ∀ l' a, l = l' ++ [a] → ∃ t', t.moveBlockUp keys b = some (true, t') ∧ t'.IsPageTree page ∧
        Swapped t t' page a b := by
  obtain ⟨p', row, o, l₀, r₀, hrow, hparent, ho, hp, hwithin, -, -, -⟩ := h.place hb
  obtain rfl := some.inj ((kid_of_split hkids).symm.trans hp)
  have horder := (order_of_get hrow).trans ho
  have hprev := h.prevSibling_eq hwithin hkids horder
  constructor
  · rintro rfl
    rw [getLast?_nil, map_eq_none_iff] at hprev
    simp only [moveBlockUp, hrow, hparent, ho, hprev]
  · rintro l' a rfl
    obtain ⟨-, hr⟩ := h.sibling_keys hwithin hkids horder
    rw [getLast?_append, getLast?_singleton, some_or, map_eq_some_iff]
      at hprev
    obtain ⟨prev, hprev, rfl⟩ := hprev
    obtain ⟨hget, -, -, m, hm, ⟨x, hx, hmo⟩, -⟩ := prev_some hprev
    obtain rfl := some.inj hx
    have hkids' : t.kids p = l' ++ prev.id :: b :: r := by simp [hkids]
    obtain ⟨hl', -⟩ := h.sibling_keys hwithin hkids' ((order_of_get hget).trans hm)
    obtain ⟨hlt, hother⟩ := before_spec keys (t := t) p b m
    have hsplit := filter_split hkids
    rw [append_assoc, singleton_append] at hsplit
    have hmoves := set_moves hrow hb hwithin (h.outside hp hwithin) hsplit
      (fun u hu ↦ by
        obtain ⟨x, hx, hxm⟩ := hl' u hu
        have hmem : u ∈ (t.kids p).filter (· ≠ b) := by
          rw [hsplit]
          exact mem_append_left _ hu
        obtain ⟨hup, hub⟩ := mem_filter.mp hmem
        obtain ⟨c, hc, hcp⟩ := parent_eq_some.mp (mem_kids.mp hup)
        have hxc := (order_of_get hc).symm.trans hx
        exact ⟨x, hx, (hother u c x hc hcp (of_decide_eq_true hub) hxc).resolve_right
          (not_le_of_gt hxm)⟩)
      (fun u hu ↦ by
        rcases mem_cons.mp hu with rfl | hu
        · exact ⟨m, (order_of_get hget).trans hm, hlt⟩
        · obtain ⟨x, hx, hox⟩ := hr u hu
          exact ⟨x, hx, hlt.trans (hmo.trans hox)⟩)
    have hid := key_of_get hrow
    have hswap := hmoves.swapped h ((congrArg t.parent hid).trans hp) hkids'
      ((hmoves.kids_target h).trans (by rw [hid]))
    refine ⟨_, ?_, hmoves.isPageTree h, hswap⟩
    simp only [moveBlockUp, hrow, hparent, ho, hprev, hm]

/-- Moving down fails for the last sibling and swaps any other one with the one after. -/
theorem moveBlockDown_spec : (r = [] → t.moveBlockDown keys b = some (false, t)) ∧
      ∀ a r', r = a :: r' → ∃ t', t.moveBlockDown keys b = some (true, t') ∧ t'.IsPageTree page ∧
        Swapped t t' page b a := by
  obtain ⟨p', row, o, l₀, r₀, hrow, hparent, ho, hp, hwithin, -, -, -⟩ := h.place hb
  obtain rfl := some.inj ((kid_of_split hkids).symm.trans hp)
  have horder := (order_of_get hrow).trans ho
  have hnext := h.nextSibling_eq hwithin hkids horder
  constructor
  · rintro rfl
    rw [head?_nil, map_eq_none_iff] at hnext
    simp only [moveBlockDown, hrow, hparent, ho, hnext]
  · rintro a r' rfl
    obtain ⟨hl, -⟩ := h.sibling_keys hwithin hkids horder
    rw [head?_cons, map_eq_some_iff] at hnext
    obtain ⟨next, hnext, rfl⟩ := hnext
    obtain ⟨hget, -, -, m, hm, hom, -⟩ := next_some hnext
    have hkids' : t.kids p = (l ++ [b]) ++ next.id :: r' := by simp [hkids]
    obtain ⟨-, hr'⟩ := h.sibling_keys hwithin hkids' ((order_of_get hget).trans hm)
    obtain ⟨hlt, hother⟩ := after_spec keys (t := t) p b m
    have hsplit' : (t.kids p).filter (· ≠ b) = (l ++ [next.id]) ++ r' := by
      rw [filter_split hkids]
      simp
    have hmoves := set_moves hrow hb hwithin (h.outside hp hwithin) hsplit'
      (fun u hu ↦ by
        rcases mem_append.mp hu with hu | hu
        · exact ((hl u hu).trans (hom o rfl)).trans hlt
        · obtain rfl := mem_singleton.mp hu
          exact ⟨m, (order_of_get hget).trans hm, hlt⟩)
      (fun u hu ↦ by
        obtain ⟨x, hx, hmx⟩ := hr' u hu
        have hmem : u ∈ (t.kids p).filter (· ≠ b) := by
          rw [hsplit']
          exact mem_append_right _ hu
        obtain ⟨hup, hub⟩ := mem_filter.mp hmem
        obtain ⟨c, hc, hcp⟩ := parent_eq_some.mp (mem_kids.mp hup)
        have hxc := (order_of_get hc).symm.trans hx
        exact ⟨x, hx, (hother u c x hc hcp (of_decide_eq_true hub) hxc).resolve_left
          (not_le_of_gt hmx)⟩)
    have hid := key_of_get hrow
    have hswap := hmoves.swapped h ((congrArg t.parent hid).trans hp) hkids
      ((hmoves.kids_target h).trans (by simp [hid]))
    refine ⟨_, ?_, hmoves.isPageTree h, hswap⟩
    simp only [moveBlockDown, hrow, hparent, ho, hnext, hm]

/-- Indenting fails for the first sibling and puts any other one under the one before. -/
theorem indentBlock_spec : (l = [] → t.indentBlock keys b = some (false, t)) ∧
      ∀ l' a, l = l' ++ [a] → ∃ t', t.indentBlock keys b = some (true, t') ∧
        Indented t t' page a b := by
  obtain ⟨p', row, o, l₀, r₀, hrow, hparent, ho, hp, hwithin, -, -, -⟩ := h.place hb
  obtain rfl := some.inj ((kid_of_split hkids).symm.trans hp)
  have hprev := h.prevSibling_eq hwithin hkids ((order_of_get hrow).trans ho)
  constructor
  · rintro rfl
    rw [getLast?_nil, map_eq_none_iff] at hprev
    simp only [indentBlock, hrow, hparent, ho, hprev]
  · rintro l' a rfl
    rw [getLast?_append, getLast?_singleton, some_or, map_eq_some_iff]
      at hprev
    obtain ⟨prev, hprev, rfl⟩ := hprev
    obtain ⟨hget, hparent', hother, -⟩ := prev_some hprev
    have hup := (parent_of_get hget).trans hparent'
    have ha : Within t.parent prev.id page := .head hup hwithin
    have hap : prev.id ≠ p := by
      intro heq
      exact h.outside hup hwithin (heq ▸ .refl)
    have hout : ¬ Within t.parent prev.id b := by
      intro hin
      rcases within_iff.mp hin with heq | hbelow
      · exact hother heq.symm
      · obtain ⟨q, hq, hqb⟩ := below_iff.mp hbelow
        obtain rfl := some.inj (hq.symm.trans hup)
        exact h.outside hp hwithin hqb
    have hnot (x : U) (hx : x ≠ p) : t.parent b ≠ some x := fun heq ↦
      hx (some.inj (heq.symm.trans hp))
    have hsplit : (t.kids prev.id).filter (· ≠ b) = t.kids prev.id ++ [] := by
      rw [filter_self (hnot _ hap), append_nil]
    have hmoves := set_moves hrow hb ha hout hsplit
      (fun u hu ↦ by
        obtain ⟨x, hx⟩ := isSome_iff_exists.mp (h.keyed ha (mem_kids.mp hu))
        exact ⟨x, hx, max_lt keys (mem_childOrders_iff.mpr ⟨u, mem_kids.mp hu, hx⟩)⟩)
      (fun u hu ↦ by cases hu)
    have hid := key_of_get hrow
    have hkids' : t.kids p = l' ++ prev.id :: b :: r := by simp [hkids]
    have hp' := (hmoves.wrote.kids_other hmoves.parent hap.symm (h.kids_sorted hwithin)).trans
      (hid ▸ filter_split hkids)
    rw [append_assoc, singleton_append] at hp'
    have ha' := (hmoves.kids_target h).trans (by rw [hid] : _ = t.kids prev.id ++ [b])
    have hedge (x : U) (hx : x ≠ p) : t.parent row.id ≠ some x := hid ▸ hnot x hx
    refine ⟨_, ?_, ⟨p, l', r, hwithin, hkids', hp', ha', fun x hx hxp hxa ↦
      hmoves.kids_same h hx hxa (hedge x hxp)⟩, ?_⟩
    · simp only [indentBlock, hrow, hparent, ho, hprev]
    · obtain ⟨before, after, e, hdoc, hdoc'⟩ := doc_indent (F := h.forest)
        (G := (hmoves.isPageTree h).forest) ((h.forest_kids hwithin).trans hkids')
        (((hmoves.isPageTree h).forest_kids (hmoves.stays hwithin)).trans hp')
        (((hmoves.isPageTree h).forest_kids (hmoves.stays ha)).trans
          (ha'.trans (congrArg (· ++ [b]) (h.forest_kids ha).symm)))
        (fun y hyp hya ↦ hmoves.forest_same h hya (hedge y hyp)) (h.forest_within .refl hwithin) 0
      refine ⟨before, after, e, ?_, ?_⟩
      · rw [h.flatten_eq, hdoc, h.subtree_eq (within_of_below hb)]
      · rw [(hmoves.isPageTree h).flatten_eq, hdoc', h.subtree_eq (within_of_below hb)]

end

theorem insertAfter_inserted (keys : KeyGenerator K) (h : t.IsPageTree page) {a n : U}
    (ha : t.parent a = some p) (hp : Within t.parent p page) (ho : t.order a = some o)
    (hcreate : t.createBlock p n (keys.between (some o) (t.nextOrder p (some o))) = some t') :
    Inserted t t' page a n := by
  obtain ⟨hafter, hbefore⟩ := next_spec (t := t) keys p (some o)
  refine createBlock_inserted h ha hp ho (hafter o rfl) (fun x hx hox ↦ hbefore x hx ?_) hcreate
  intro o' ho'
  exact some.inj ho' ▸ hox

/-- Everything stays below the page. -/
theorem Swapped.stays {a : U} (h : Swapped t t' page a b) {x : U} (hx : Within t.parent x page) :
    Within t'.parent x page := by
  obtain ⟨p, l, r, -, hkids, hkids', hsame⟩ := h.kids
  induction hx using ReflTransGen.head_induction_on with
  | refl => exact .refl
  | @head u v hedge hv ih =>
    refine .head ?_ ih
    have hu : u ∈ t.kids v := mem_kids.mpr hedge
    rw [Edge, ← mem_kids]
    by_cases hvp : v = p
    · grind
    · rwa [hsame v hv hvp]

/-- The edits of the outline of a page as operations on its ordered tree. -/
structure Refines (keys : KeyGenerator K) (t : Outline U K T) (page : U) : Prop where
  insertAfter : ∀ p a after n t', Within t.parent p page → t.parent a = some p →
    t.order a = some after → t.insertAfter keys p after n = some t' → Inserted t t' page a n
  createSiblingAfter : ∀ a n t', Below t.parent a page →
    t.createSiblingAfter keys a n = some t' → Inserted t t' page a n
  indent : ∀ b, Below t.parent b page →
    ((∃ t', t.indentBlock keys b = some (true, t')) ↔ ∃ p l a r, t.kids p = l ++ a :: b :: r) ∧
      ∀ t', t.indentBlock keys b = some (true, t') →
        (∃ a, Indented t t' page a b) ∧
          (t'.flattenToDocumentOrder page).map Prod.fst =
            (t.flattenToDocumentOrder page).map Prod.fst
  outdent : ∀ b p, t.parent b = some p → Below t.parent p page →
    ∃ t', t.outdentBlock keys b = some (true, t') ∧ Outdented t t' page p b
  moveUp : ∀ b, Below t.parent b page →
    ((∃ t', t.moveBlockUp keys b = some (true, t')) ↔ ∃ p l a r, t.kids p = l ++ a :: b :: r) ∧
      ∀ t', t.moveBlockUp keys b = some (true, t') → ∃ a, Swapped t t' page a b
  moveDown : ∀ b, Below t.parent b page →
    ((∃ t', t.moveBlockDown keys b = some (true, t')) ↔ ∃ p l a r, t.kids p = l ++ b :: a :: r) ∧
      ∀ t', t.moveBlockDown keys b = some (true, t') → ∃ a, Swapped t t' page b a
  upDown : ∀ b t' t'', Below t.parent b page → t.moveBlockUp keys b = some (true, t') →
    t'.moveBlockDown keys b = some (true, t'') →
    t''.flattenToDocumentOrder page = t.flattenToDocumentOrder page

section

variable (h : t.IsPageTree page) (hb : Below t.parent b page)
include h hb

theorem moveBlockUp_swapped (hup : t.moveBlockUp keys b = some (true, t')) :
    t'.IsPageTree page ∧ ∃ a, Swapped t t' page a b := by
  obtain ⟨p, -, -, l, r, -, -, -, -, -, hkids, -, -⟩ := h.place hb
  obtain ⟨hfirst, hother⟩ := moveBlockUp_spec keys h hb hkids
  rcases eq_nil_or_concat l with hl | ⟨l', a, hl⟩
  · rw [hfirst hl] at hup
    exact nomatch hup
  · obtain ⟨s, hs, hstree, hswapped⟩ := hother l' a (hl.trans concat_eq_append)
    rw [hs] at hup
    obtain ⟨-, rfl⟩ := mk.inj (some.inj hup)
    exact ⟨hstree, a, hswapped⟩

theorem moveBlockDown_swapped (hdown : t.moveBlockDown keys b = some (true, t')) :
    t'.IsPageTree page ∧ ∃ a, Swapped t t' page b a := by
  obtain ⟨p, -, -, l, r, -, -, -, -, -, hkids, -, -⟩ := h.place hb
  obtain ⟨hlast, hother⟩ := moveBlockDown_spec keys h hb hkids
  cases r with
  | nil =>
    rw [hlast rfl] at hdown
    exact nomatch hdown
  | cons a r =>
    obtain ⟨s, hs, hstree, hswapped⟩ := hother a r rfl
    rw [hs] at hdown
    obtain ⟨-, rfl⟩ := mk.inj (some.inj hdown)
    exact ⟨hstree, a, hswapped⟩

/-- Moving a block up and then down again restores the document. -/
theorem up_down {t'' : Outline U K T} (hup : t.moveBlockUp keys b = some (true, t'))
    (hdown : t'.moveBlockDown keys b = some (true, t'')) :
    t''.flattenToDocumentOrder page = t.flattenToDocumentOrder page := by
  obtain ⟨h', a, hswap⟩ := moveBlockUp_swapped h hb hup
  obtain ⟨p, l, r, hp, hkids, hkids', hsame⟩ := hswap.kids
  have hbp : t'.parent b = some p := kid_of_split hkids'
  have hb' : Below t'.parent b page := below_iff.mpr ⟨p, hbp, hswap.stays hp⟩
  obtain ⟨h'', c, hswap'⟩ := moveBlockDown_swapped h' hb' hdown
  obtain ⟨q, l', r', hq, hback, hback', hsame'⟩ := hswap'.kids
  obtain rfl : q = p := some.inj ((kid_of_split hback).symm.trans hbp)
  -- the block has one place among the children, so the two swaps are of the same neighbours
  have hnodup := t'.nodup_kids q
  have heq : l' ++ b :: c :: r' = l ++ b :: a :: r := hback.symm.trans hkids'
  rw [hback] at hnodup
  obtain ⟨hl, htail⟩ : l' = l ∧ c :: r' = a :: r := by
    have hbl' : b ∉ l' := fun hin ↦
      (nodup_append.mp hnodup).2.2 b hin b mem_cons_self rfl
    have hbr : b ∉ c :: r' := (nodup_cons.mp (nodup_append.mp hnodup).2.1).1
    obtain ⟨hl, -, hr⟩ := (append_cons_inj_of_notMem hbl' hbr).mp heq
    exact ⟨hl, hr⟩
  obtain ⟨rfl, rfl⟩ := cons.inj htail
  subst hl
  refine h.flatten_congr h'' fun x hx ↦ ?_
  by_cases hxq : x = q
  · subst hxq
    rw [hback', hkids]
  · rw [hsame' x (hswap.stays hx) hxq, hsame x hx hxq]

theorem indentBlock_indented (hindent : t.indentBlock keys b = some (true, t')) :
    ∃ a, Indented t t' page a b := by
  obtain ⟨p, -, -, l, r, -, -, -, -, -, hkids, -, -⟩ := h.place hb
  obtain ⟨hfirst, hother⟩ := indentBlock_spec keys h hb hkids
  rcases eq_nil_or_concat l with hl | ⟨l', a, hl⟩
  · rw [hfirst hl] at hindent
    exact nomatch hindent
  · obtain ⟨s, hs, hindented⟩ := hother l' a (hl.trans concat_eq_append)
    rw [hs] at hindent
    obtain ⟨-, rfl⟩ := mk.inj (some.inj hindent)
    exact ⟨a, hindented⟩

end

end

end Outline

end Simmis.Wiki
