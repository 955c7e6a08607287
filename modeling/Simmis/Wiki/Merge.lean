import Simmis.Wiki.DocumentOrder
import Simmis.Wiki.Deletion

/-!
# Merging two pages

A page takes the children of another one behind its own, one after the other in the order in which a
query listed them, and the links to the other page, before that page goes.
-/

namespace Simmis.Wiki

open Forest Relation Outline Option Table

namespace Outline

variable {U K T : Type} [DecidableEq U] [LinearOrder K]

/-- `page` took the listed children of `other` under fresh keys, and `other` went. -/
structure Absorbed (t t' : Outline U K T) (page other : U) (listed : List U) (fresh : U → K) :
    Prop where
  pageTree : t.IsPageTree page
  otherTree : t.IsPageTree other
  ne : other ≠ page
  gone : t'.get other = none
  isSome : ∀ u, u ≠ other → (t'.get u).isSome = (t.get u).isSome
  parent : ∀ u, u ≠ other → t'.parent u = if u ∈ listed then some page else t.parent u
  order : ∀ u, u ≠ other → t'.order u = if u ∈ listed then some (fresh u) else t.order u
  isPage : t'.isPage page
  mem : ∀ u, u ∈ listed ↔ t.parent u = some other
  above : ∀ u o, t.parent u = some page → t.order u = some o → ∀ v ∈ listed, o < fresh v
  ascending : listed.Pairwise fun u v ↦ fresh u < fresh v

variable {t t' : Outline U K T} {page other : U} {listed : List U} {fresh : U → K}

/-- The blocks below the two pages. -/
def Inside (t : Outline U K T) (page other x : U) : Prop :=
  x ≠ page ∧ x ≠ other ∧ (Within t.parent x page ∨ Within t.parent x other)

namespace Absorbed

section

variable (h : Absorbed t t' page other listed fresh)

include h

theorem parent_gone : t'.parent other = none := by
  rw [Outline.parent, h.gone]
  rfl

theorem ne_of_parent {u p : U} (hp : t.parent u = some p) : u ≠ page ∧ u ≠ other := by
  constructor
  · rintro rfl
    rw [h.pageTree.root] at hp
    cases hp
  · rintro rfl
    rw [h.otherTree.root] at hp
    cases hp

theorem parent_page {u : U} : t'.parent u = some page ↔ t.parent u = some page ∨ u ∈ listed := by
  by_cases hu : u = other
  · rw [hu, h.parent_gone, h.otherTree.root]
    have hnot : other ∉ listed := fun hmem ↦ by
      have hparent := (h.mem other).mp hmem
      rw [h.otherTree.root] at hparent
      cases hparent
    simp [hnot]
  · rw [h.parent u hu]
    by_cases hmem : u ∈ listed <;> simp [hmem]

theorem parent_inside {u x : U} (hx : x ≠ page) (hx' : x ≠ other) :
    t'.parent u = some x ↔ t.parent u = some x := by
  by_cases hu : u = other
  · rw [hu, h.parent_gone, h.otherTree.root]
  · rw [h.parent u hu]
    by_cases hmem : u ∈ listed
    · rw [if_pos hmem, (h.mem u).mp hmem]
      simp [hx.symm, hx'.symm]
    · rw [if_neg hmem]

theorem inside_of_parent {u x : U} (hx : Inside t page other x) (hu : t.parent u = some x) :
    Inside t page other u := by
  obtain ⟨hpage', hother'⟩ := h.ne_of_parent hu
  exact ⟨hpage', hother', hx.2.2.imp (.head hu) (.head hu)⟩

theorem inside_of_child {u : U} (hu : t.parent u = some page ∨ u ∈ listed) :
    Inside t page other u := by
  obtain hu | hu := hu
  · obtain ⟨hpage', hother'⟩ := h.ne_of_parent hu
    exact ⟨hpage', hother', .inl (.single hu)⟩
  · have hparent := (h.mem u).mp hu
    obtain ⟨hpage', hother'⟩ := h.ne_of_parent hparent
    exact ⟨hpage', hother', .inr (.single hparent)⟩

/-- Below the page are the blocks that were below one of the two. -/
theorem inside_of_within {x : U} (hx : Within t'.parent x page) :
    x = page ∨ Inside t page other x := by
  induction hx using ReflTransGen.head_induction_on with
  | refl => exact .inl rfl
  | @head u x hedge _ ih =>
    right
    obtain rfl | hinside := ih
    · exact h.inside_of_child ((h.parent_page).mp hedge)
    · have hparent := (h.parent_inside hinside.1 hinside.2.1).mp hedge
      exact h.inside_of_parent hinside hparent

theorem order_kept {u p : U} (hu : t.parent u = some p) (hp : p ≠ other) :
    t'.order u = t.order u := by
  have hnot : u ∉ listed := fun hmem ↦ hp (some.inj (hu.symm.trans ((h.mem u).mp hmem)))
  rw [h.order u (h.ne_of_parent hu).2, if_neg hnot]

theorem order_listed {u : U} (hu : u ∈ listed) : t'.order u = some (fresh u) := by
  have hparent := (h.mem u).mp hu
  rw [h.order u (h.ne_of_parent hparent).2, if_pos hu]

/-- The page has its own children first, then the listed ones. -/
theorem page_sorted : (t.kids page ++ listed).Pairwise t'.KeyLT := by
  refine List.pairwise_append.mpr ⟨?_, ?_, ?_⟩
  · refine (h.pageTree.kids_sorted .refl).imp_of_mem fun {u v} hu hv huv ↦ ?_
    rw [KeyLT, h.order_kept (mem_kids.mp hu) h.ne.symm, h.order_kept (mem_kids.mp hv) h.ne.symm]
    exact huv
  · refine h.ascending.imp_of_mem fun {u v} hu hv huv ↦ ?_
    exact ⟨_, _, h.order_listed hu, h.order_listed hv, huv⟩
  · intro u hu v hv
    have hparent := mem_kids.mp hu
    obtain ⟨o, ho⟩ := isSome_iff_exists.mp (h.pageTree.keyed .refl hparent)
    refine ⟨o, fresh v, ?_, h.order_listed hv, h.above u o hparent ho v hv⟩
    rw [h.order_kept hparent h.ne.symm, ho]

theorem kids_page : t'.kids page = t.kids page ++ listed := by
  apply kids_eq (h.page_sorted)
  intro u
  rw [List.mem_append, mem_kids, h.parent_page]

theorem inside_sorted {x : U} (hx : Inside t page other x) : (t.kids x).Pairwise t'.KeyLT := by
  have hsorted : (t.kids x).Pairwise t.KeyLT :=
    hx.2.2.elim h.pageTree.kids_sorted h.otherTree.kids_sorted
  refine hsorted.imp_of_mem fun {u v} hu hv huv ↦ ?_
  rw [KeyLT, h.order_kept (mem_kids.mp hu) hx.2.1, h.order_kept (mem_kids.mp hv) hx.2.1]
  exact huv

/-- The subtrees of both pages are as they were. -/
theorem kids_inside {x : U} (hx : Inside t page other x) : t'.kids x = t.kids x := by
  apply kids_eq (h.inside_sorted hx)
  intro u
  rw [mem_kids, h.parent_inside hx.1 hx.2.1]

theorem sorted {x : U} (hx : Within t'.parent x page) : (t'.kids x).Pairwise t'.KeyLT := by
  obtain rfl | hinside := h.inside_of_within hx
  · rw [h.kids_page]
    exact h.page_sorted
  · rw [h.kids_inside hinside]
    exact h.inside_sorted hinside

theorem isPageTree : t'.IsPageTree page := by
  refine ⟨?_, h.isPage, ?_, ?_, ?_⟩
  · intro u p hp
    by_cases hu : u = other
    · rw [hu, h.parent_gone] at hp
      cases hp
    rw [h.parent u hu] at hp
    split at hp
    · cases hp
      rw [h.isSome _ h.ne.symm]
      exact isSome_of_isPage h.pageTree.isPage
    · next hnot =>
      have hother' : p ≠ other := fun heq ↦ hnot ((h.mem u).mpr (heq ▸ hp))
      rw [h.isSome p hother']
      exact h.pageTree.parents hp
  · rw [h.parent page h.ne.symm, h.pageTree.root, if_neg]
    intro hmem
    have hparent := (h.mem page).mp hmem
    rw [h.pageTree.root] at hparent
    cases hparent
  · intro u p hp hu
    obtain rfl | hinside := h.inside_of_within hp
    · rcases (h.parent_page).mp hu with hown | hlisted
      · rw [h.order_kept hown h.ne.symm]
        exact h.pageTree.keyed .refl hown
      · rw [h.order_listed hlisted]
        rfl
    · have hparent := (h.parent_inside hinside.1 hinside.2.1).mp hu
      rw [h.order_kept hparent hinside.2.1]
      exact hinside.2.2.elim (h.pageTree.keyed · hparent) (h.otherTree.keyed · hparent)
  · intro u v p o hp hu hv huo hvo
    by_contra hdifferent
    have hcomparable := (h.sorted hp).imp
      (S := fun u v ↦ t'.KeyLT u v ∨ t'.KeyLT v u) .inl
    have : Std.Symm fun u v ↦ t'.KeyLT u v ∨ t'.KeyLT v u := ⟨fun _ _ h ↦ h.symm⟩
    have hirrefl {a b : U} (ha : t'.order a = some o) (hb : t'.order b = some o) :
        ¬ t'.KeyLT a b := by
      rintro ⟨x, y, hx, hy, hlt⟩
      rw [ha] at hx
      rw [hb] at hy
      exact hlt.ne (some.inj (hx.symm.trans hy))
    rcases hcomparable.forall (mem_kids.mpr hu) (mem_kids.mpr hv) hdifferent with hlt | hlt
    · exact hirrefl huo hvo hlt
    · exact hirrefl hvo huo hlt

/-- The page shows its own document and then the other one exactly if the children were listed in
the order of their keys. -/
theorem flatten_iff : t'.flattenToDocumentOrder page =
    t.flattenToDocumentOrder page ++ t.flattenToDocumentOrder other ↔ listed = t.kids other := by
  have htree := h.isPageTree
  have hsame : ∀ c, Inside t page other c → ∀ n d, flatten t'.kids n d c = flatten t.kids n d c := by
    intro c hc n d
    apply Forest.flatten_congr (Inside t page other) _ hc
    intro x hx
    refine ⟨h.kids_inside hx, fun u hu ↦ ?_⟩
    exact h.inside_of_parent hx (mem_kids.mp hu)
  have hinside : ∀ c ∈ t.kids page ++ listed, Inside t page other c := by
    intro c hc
    rw [List.mem_append, mem_kids] at hc
    exact h.inside_of_child hc
  rw [← htree.flatten_bound (n := max t.rows.length t'.rows.length + 1) (by omega),
    ← h.pageTree.flatten_bound (n := max t.rows.length t'.rows.length + 1) (by omega),
    ← h.otherTree.flatten_bound (n := max t.rows.length t'.rows.length + 1) (by omega)]
  have hdoc : flatten t'.kids (max t.rows.length t'.rows.length + 1) 0 page =
      (t.kids page ++ listed).flatMap fun c ↦
        (c, 0) :: flatten t.kids (max t.rows.length t'.rows.length) 1 c := by
    rw [flatten, h.kids_page]
    apply List.flatMap_congr
    intro c hc
    rw [hsame c (hinside c hc)]
  rw [hdoc, List.flatMap_append, flatten, flatten, List.append_cancel_left_eq]
  exact siblings_eq_iff

end

end Absorbed

end Outline

namespace Store

variable {U K T R V : Type} [DecidableEq U] [LinearOrder K] [DecidableEq R]

/-- `update-block!` with a parent and a key. -/
def place (parent : U) (order : K) (e : Entity U K T R V) : Entity U K T R V :=
  { e with block := { e.block with parent := some parent, order := some order } }

def setTitle (title : T) (e : Entity U K T R V) : Entity U K T R V :=
  { e with block := { e.block with title := some title } }

/-- The blocks of `listed` become the last children of `page`, one after the other. -/
def moveAll (keys : KeyGenerator K) (page : U) :
    Store U K T R V → Option K → List U → Store U K T R V
  | s, _, [] => s
  | s, prev, block :: rest =>
    let order := keys.between prev none
    moveAll keys page (s.modify block (place page order)) (some order) rest

variable (references : R)

/-- The links of a referrer, with those to `source` aimed at `target`. -/
def repoint (source target : U) (e : Entity U K T R V) : Entity U K T R V :=
  if (references, source) ∈ e.links then
    let links := e.links.filter (· ≠ (references, source))
    { e with
      links := if (references, target) ∈ links then links else links ++ [(references, target)] }
  else e

/-- `repoint-references!`: every entity that has the link is a referrer. -/
def repointReferences (source target : U) (s : Store U K T R V) : Store U K T R V :=
  s.mapRows (repoint references source target)

/-- `update-page-title!` with `:merge?`, where another page has the title. -/
def mergePages (listing : ListBlocks U K T R V) (keys : KeyGenerator K) (references : R)
    (s : Store U K T R V) (page : U) (title : T) (existing : U) : Option (Store U K T R V) := do
  let moved := moveAll keys page s (s.outline.maxOrder page) (listing.list s existing)
  let deleted ← (repointReferences references existing page moved).retractEntity existing
  some (deleted.modify page (setTitle title))

/-- Both documents, the references to both pages, and every block are kept. -/
structure KeepsBoth (references : R) (s s' : Store U K T R V) (page existing : U) : Prop where
  document : s'.outline.flattenToDocumentOrder page =
    s.outline.flattenToDocumentOrder page ++ s.outline.flattenToDocumentOrder existing
  references : ∀ u e, u ≠ existing → s.get u = some e →
    (references, page) ∈ e.links ∨ (references, existing) ∈ e.links →
    ∃ e', s'.get u = some e' ∧ (references, page) ∈ e'.links
  blocks : ∀ u, (s'.get u).isSome ↔ (s.get u).isSome ∧ u ≠ existing

variable {s : Store U K T R V} {page existing : U} {listed : List U}

omit [LinearOrder K] [DecidableEq R] in
theorem outline_get (s : Store U K T R V) (u : U) : s.outline.get u = (s.get u).map (·.block) := by
  unfold Table.get outline
  rw [List.find?_map]
  rfl

omit [DecidableEq R] in
/-- The listed blocks are placed under growing keys above the last one. -/
theorem get_moveAll (keys : KeyGenerator K) (page : U) (hnodup : listed.Nodup)
    (s : Store U K T R V) (prev : Option K) : ∃ fresh : U → K,
      (∀ u, (moveAll keys page s prev listed).get u =
        (s.get u).map fun e ↦ if u ∈ listed then place page (fresh u) e else e) ∧
      (∀ m ∈ prev, ∀ u ∈ listed, m < fresh u) ∧ listed.Pairwise fun u v ↦ fresh u < fresh v := by
  induction listed generalizing s prev with
  | nil => exact ⟨fun _ ↦ keys.between none none, by simp [moveAll], by simp, List.Pairwise.nil⟩
  | cons b rest ih =>
    obtain ⟨hb, hrest⟩ := List.nodup_cons.mp hnodup
    obtain ⟨fresh, hget, habove, hsorted⟩ := ih hrest
      (s.modify b (place page (keys.between prev none))) (some (keys.between prev none))
    have hne {u : U} (hu : u ∈ rest) : u ≠ b := fun heq ↦ hb (heq ▸ hu)
    have hnext : ∀ m ∈ prev, m < keys.between prev none :=
      (keys.between_spec prev none fun _ _ _ hy ↦ by cases hy).1
    refine ⟨fun u ↦ if u = b then keys.between prev none else fresh u, fun u ↦ ?_, ?_, ?_⟩
    · rw [moveAll, hget, get_modify (f := place page (keys.between prev none)) fun _ ↦ rfl]
      by_cases hu : u = b
      · subst hu
        simp [hb, Function.comp_def]
      · simp [hu]
    · intro m hm u hu
      dsimp only
      obtain rfl | hu := List.mem_cons.mp hu
      · rw [if_pos rfl]
        exact hnext m hm
      · rw [if_neg (hne hu)]
        exact (hnext m hm).trans (habove _ rfl u hu)
    · refine List.pairwise_cons.mpr ⟨fun u hu ↦ ?_, hsorted.imp_of_mem fun {u v} hu hv huv ↦ ?_⟩
      · dsimp only
        rw [if_pos rfl, if_neg (hne hu)]
        exact habove _ rfl u hu
      · dsimp only
        rw [if_neg (hne hu), if_neg (hne hv)]
        exact huv

/-- An entity of the merged store. -/
def merged (page existing : U) (title : T) (listed : List U) (fresh : U → K) (u : U)
    (e : Entity U K T R V) : Entity U K T R V :=
  let placed := if u ∈ listed then place page (fresh u) e else e
  let kept := (repoint references existing page placed).forget [existing]
  if u = page then setTitle title kept else kept

omit [LinearOrder K] in
theorem repoint_id (source target : U) (e : Entity U K T R V) :
    (repoint references source target e).id = e.id := by
  unfold repoint
  split <;> rfl

/-- A merge changes every entity by itself. -/
theorem get_mergePages (listing : ListBlocks U K T R V) (keys : KeyGenerator K) (references : R)
    (s : Store U K T R V) (title : T) (hexisting : (s.get existing).isSome) (hne : existing ≠ page) :
    ∃ fresh s', mergePages listing keys references s page title existing = some s' ∧
      (∀ u, s'.get u = if u = existing then none else
        (s.get u).map (merged references page existing title (listing.list s existing) fresh u)) ∧
      (∀ m ∈ s.outline.maxOrder page, ∀ u ∈ listing.list s existing, m < fresh u) ∧
      (listing.list s existing).Pairwise fun u v ↦ fresh u < fresh v := by
  obtain ⟨fresh, hget, habove, hsorted⟩ := get_moveAll keys page
    (nodup_list listing s existing) s (s.outline.maxOrder page)
  have hrepointed (u : U) : (repointReferences references existing page (moveAll keys page s
      (s.outline.maxOrder page) (listing.list s existing))).get u =
      (s.get u).map fun e ↦ repoint references existing page
        (if u ∈ listing.list s existing then place page (fresh u) e else e) := by
    rw [repointReferences, get_mapRows (repoint_id references existing page), hget, Option.map_map]
    rfl
  have hmerged : mergePages listing keys references s page title existing =
      some (((repointReferences references existing page (moveAll keys page s
        (s.outline.maxOrder page) (listing.list s existing))).without [existing]).modify page
          (setTitle title)) := by
    unfold mergePages
    dsimp only
    rw [retractEntity, if_pos]
    · rfl
    · rw [hrepointed, isSome_map]
      exact hexisting
  refine ⟨fresh, _, hmerged, fun u ↦ ?_, habove, hsorted⟩
  rw [get_modify (f := setTitle title) fun _ ↦ rfl, get_without, get_without,
    hrepointed, hrepointed]
  have hkept : page ∉ [existing] := by simpa using hne.symm
  by_cases hu : u = page
  · subst hu
    rw [if_pos rfl, if_neg hkept, if_neg hne.symm]
    cases s.get u with
    | none => rfl
    | some e => simp [merged]
  · rw [if_neg hu]
    by_cases hu' : u = existing
    · simp [hu']
    · rw [if_neg (by simpa using hu'), if_neg hu']
      cases s.get u with
      | none => rfl
      | some e => simp [merged, hu]

variable {listing : ListBlocks U K T R V} {fresh : U → K} {references : R} {title : T}

omit [LinearOrder K] in
theorem merged_block (hlisted : ∀ v, v ∈ listed ↔ s.parent v = some existing)
    (hne : existing ≠ page) {u : U} {e : Entity U K T R V} (he : s.get u = some e) :
    (merged references page existing title listed fresh u e).block.parent =
        (if u ∈ listed then some page else e.block.parent) ∧
      (merged references page existing title listed fresh u e).block.order =
        if u ∈ listed then some (fresh u) else e.block.order := by
  have hrepoint (e : Entity U K T R V) : (repoint references existing page e).block = e.block := by
    unfold repoint
    split <;> rfl
  have hkept : (merged references page existing title listed fresh u e).block.parent =
      ((repoint references existing page
        (if u ∈ listed then place page (fresh u) e else e)).block.parent).filter (· ∉ [existing]) ∧
      (merged references page existing title listed fresh u e).block.order =
        (repoint references existing page
          (if u ∈ listed then place page (fresh u) e else e)).block.order := by
    unfold merged
    dsimp only
    split <;> exact ⟨rfl, rfl⟩
  rw [hkept.1, hkept.2, hrepoint]
  by_cases hu : u ∈ listed
  · simp [hu, place, hne.symm]
  · have hparent : e.block.parent ≠ some existing :=
      fun hparent ↦ hu ((hlisted u).mpr (parent_eq_some.mpr ⟨e, he, hparent⟩))
    cases hp : e.block.parent with
    | none => simp [hu, hp]
    | some p =>
      rw [hp] at hparent
      have hpne : p ≠ existing := fun heq ↦ hparent (congrArg some heq)
      simp [hu, hp, hpne]

omit [LinearOrder K] in
theorem merged_links (hne : existing ≠ page) {u : U} {e : Entity U K T R V}
    (hlink : (references, page) ∈ e.links ∨ (references, existing) ∈ e.links) :
    (references, page) ∈ (merged references page existing title listed fresh u e).links := by
  have hplaced : (if u ∈ listed then place page (fresh u) e else e).links = e.links := by
    split <;> rfl
  have hrepointed : (references, page) ∈ (repoint references existing page
      (if u ∈ listed then place page (fresh u) e else e)).links := by
    unfold repoint
    rw [hplaced]
    split
    · dsimp only
      split
      · next hthere => exact hthere
      · exact List.mem_append_right _ (List.mem_singleton_self _)
    · next hnone =>
      rw [hplaced]
      exact hlink.resolve_right hnone
  have hkept : (references, page) ∈ ((repoint references existing page
      (if u ∈ listed then place page (fresh u) e else e)).forget [existing]).links :=
    List.mem_filter.mpr ⟨hrepointed, by simpa using hne.symm⟩
  unfold merged
  dsimp only
  split <;> exact hkept

theorem absorbed_of_get {s' : Store U K T R V} (hpage : s.outline.IsPageTree page)
    (hexisting : s.outline.IsPageTree existing) (hne : existing ≠ page)
    (hget : ∀ u, s'.get u = if u = existing then none else
      (s.get u).map (merged references page existing title (listing.list s existing) fresh u))
    (habove : ∀ m ∈ s.outline.maxOrder page, ∀ u ∈ listing.list s existing, m < fresh u)
    (hsorted : (listing.list s existing).Pairwise fun u v ↦ fresh u < fresh v) :
    Outline.Absorbed s.outline s'.outline page existing (listing.list s existing) fresh := by
  have hparent (t : Store U K T R V) (u : U) :
      t.outline.parent u = (t.get u).bind (·.block.parent) := by
    rw [Outline.parent, outline_get, bind_map]
    rfl
  have horder (t : Store U K T R V) (u : U) :
      t.outline.order u = (t.get u).bind (·.block.order) := by
    rw [order, outline_get, bind_map]
    rfl
  have hmem (u : U) : u ∈ listing.list s existing ↔ s.parent u = some existing := mem_list listing
  have hthere {u : U} (hu : u ∈ listing.list s existing) : (s.get u).isSome :=
    isSome_of_parent ((hmem u).mp hu)
  refine ⟨hpage, hexisting, hne, ?_, fun u hu ↦ ?_, fun u hu ↦ ?_, fun u hu ↦ ?_, ?_, fun u ↦ ?_,
    fun u o hu ho v hv ↦ ?_, hsorted⟩
  · rw [outline_get, hget, if_pos rfl]
    rfl
  · rw [outline_get, outline_get, hget, if_neg hu]
    simp
  · rw [hparent, hparent, hget, if_neg hu]
    cases he : s.get u with
    | none =>
      rw [if_neg fun hlisted ↦ by simpa [he] using hthere hlisted]
      rfl
    | some e => exact (merged_block hmem hne he).1
  · rw [horder, horder, hget, if_neg hu]
    cases he : s.get u with
    | none =>
      rw [if_neg fun hlisted ↦ by simpa [he] using hthere hlisted]
      rfl
    | some e => exact (merged_block hmem hne he).2
  · obtain ⟨row, hrow⟩ := isSome_iff_exists.mp (isSome_of_isPage hpage.isPage)
    rw [outline_get, map_eq_some_iff] at hrow
    obtain ⟨e, he, -⟩ := hrow
    rw [isPage, outline_get, hget, if_neg hne.symm, he]
    simp [merged, setTitle]
  · rw [hmem, hparent]
    rfl
  · have hmax := bounded_max page u o hu ho
    obtain ⟨m, hm, hle⟩ := hmax
    exact lt_of_le_of_lt hle (habove m hm v hv)

/-- What a merge does to the references, to the blocks and to the document. -/
theorem mergePages_spec (listing : ListBlocks U K T R V) (keys : KeyGenerator K) (references : R)
    (s : Store U K T R V) (title : T) (hpage : s.outline.IsPageTree page)
    (hexisting : s.outline.IsPageTree existing) (hne : existing ≠ page) :
    ∃ s', mergePages listing keys references s page title existing = some s' ∧
      (∀ u e, u ≠ existing → s.get u = some e →
        (references, page) ∈ e.links ∨ (references, existing) ∈ e.links →
        ∃ e', s'.get u = some e' ∧ (references, page) ∈ e'.links) ∧
      (∀ u, (s'.get u).isSome ↔ (s.get u).isSome ∧ u ≠ existing) ∧
      (s'.outline.flattenToDocumentOrder page =
        s.outline.flattenToDocumentOrder page ++ s.outline.flattenToDocumentOrder existing ↔
        listing.list s existing = s.outline.kids existing) := by
  have hthere : (s.get existing).isSome := by
    have hrow := isSome_of_isPage hexisting.isPage
    rwa [outline_get, isSome_map] at hrow
  obtain ⟨fresh, s', hmerged, hget, habove, hsorted⟩ :=
    get_mergePages listing keys references s title hthere hne
  refine ⟨s', hmerged, ?_, ?_, ?_⟩
  · intro u e hu he hlink
    rw [hget, if_neg hu, he]
    exact ⟨_, rfl, merged_links hne hlink⟩
  · intro u
    rw [hget]
    by_cases hu : u = existing <;> simp [hu]
  · exact (absorbed_of_get hpage hexisting hne hget habove hsorted).flatten_iff

/-- A merge keeps both documents exactly if the query lists the children of the absorbed page in
order. -/
theorem keeps_both_iff (listing : ListBlocks U K T R V) (keys : KeyGenerator K) (references : R)
    (s : Store U K T R V) (page existing : U) (title : T) (hpage : s.outline.IsPageTree page)
    (hexisting : s.outline.IsPageTree existing) (hne : existing ≠ page) :
    ∃ s', mergePages listing keys references s page title existing = some s' ∧
      (KeepsBoth references s s' page existing ↔
        listing.list s existing = s.outline.kids existing) ∧
      ∀ u, (s'.get u).isSome ↔ (s.get u).isSome ∧ u ≠ existing := by
  obtain ⟨s', hmerged, hreferences, hblocks, hdocument⟩ :=
    mergePages_spec listing keys references s title hpage hexisting hne
  refine ⟨s', hmerged, ?_, hblocks⟩
  rw [← hdocument]
  exact ⟨fun h ↦ h.document, fun h ↦ ⟨h, hreferences, hblocks⟩⟩

variable (swapped : Bool)

/-- A page without blocks, and one with two blocks, whose rows come in either order. -/
def twoPages : Store ℕ ℚ Unit Unit Unit where
  rows := [⟨⟨0, none, none, some ()⟩, [], ()⟩, ⟨⟨5, none, none, some ()⟩, [], ()⟩] ++
    if swapped then [⟨⟨7, some 5, some 2, none⟩, [], ()⟩, ⟨⟨6, some 5, some 1, none⟩, [], ()⟩]
    else [⟨⟨6, some 5, some 1, none⟩, [], ()⟩, ⟨⟨7, some 5, some 2, none⟩, [], ()⟩]
  nodup := by cases swapped <;> decide

theorem twoPages_get {u : ℕ} {b : Block ℕ ℚ Unit} : (twoPages swapped).outline.get u = some b ↔
      (b = ⟨0, none, none, some ()⟩ ∨ b = ⟨5, none, none, some ()⟩ ∨
        b = ⟨6, some 5, some 1, none⟩ ∨ b = ⟨7, some 5, some 2, none⟩) ∧ b.id = u := by
  rw [get_eq_some_iff]
  cases swapped with
  | false => simp [twoPages, outline]
  | true =>
    simp only [twoPages, outline, if_true, List.cons_append, List.nil_append, List.map_cons,
      List.map_nil, List.mem_cons, List.not_mem_nil, or_false]
    rw [or_comm (a := b = ⟨7, some 5, some 2, none⟩)]

theorem twoPages_parent {u p : ℕ} :
    (twoPages swapped).outline.parent u = some p ↔ p = 5 ∧ (u = 6 ∨ u = 7) := by
  simp only [Outline.parent_eq_some, twoPages_get]
  constructor
  · rintro ⟨b, ⟨rfl | rfl | rfl | rfl, rfl⟩, hp⟩ <;> cases hp <;> decide
  · rintro ⟨rfl, rfl | rfl⟩
    · exact ⟨_, ⟨.inr (.inr (.inl rfl)), rfl⟩, rfl⟩
    · exact ⟨_, ⟨.inr (.inr (.inr rfl)), rfl⟩, rfl⟩

theorem twoPages_order :
    (twoPages swapped).outline.order 6 = some 1 ∧ (twoPages swapped).outline.order 7 = some 2 := by
  have h6 := (twoPages_get swapped (u := 6)).mpr ⟨.inr (.inr (.inl rfl)), rfl⟩
  have h7 := (twoPages_get swapped (u := 7)).mpr ⟨.inr (.inr (.inr rfl)), rfl⟩
  exact ⟨order_of_get h6, order_of_get h7⟩

theorem twoPages_isPageTree {page : ℕ} (hpage : page = 0 ∨ page = 5) :
    (twoPages swapped).outline.IsPageTree page := by
  have horder := twoPages_order swapped
  have h5 := (twoPages_get swapped (u := 5)).mpr ⟨.inr (.inl rfl), rfl⟩
  have h0 := (twoPages_get swapped (u := 0)).mpr ⟨.inl rfl, rfl⟩
  refine ⟨fun {u p} hp ↦ ?_, ?_, ?_, fun {u p} _ hu ↦ ?_, fun {u v p o} _ hu hv huo hvo ↦ ?_⟩
  · obtain ⟨rfl, -⟩ := (twoPages_parent swapped).mp hp
    rfl
  · obtain rfl | rfl := hpage
    · rfl
    · rfl
  · obtain rfl | rfl := hpage
    · exact parent_of_get h0
    · exact parent_of_get h5
  · obtain ⟨-, rfl | rfl⟩ := (twoPages_parent swapped).mp hu
    · rw [horder.1]
      rfl
    · rw [horder.2]
      rfl
  · obtain ⟨-, rfl | rfl⟩ := (twoPages_parent swapped).mp hu <;>
      obtain ⟨-, rfl | rfl⟩ := (twoPages_parent swapped).mp hv
    · rfl
    · rw [horder.1] at huo
      rw [horder.2, ← huo] at hvo
      exact absurd (some.inj hvo) (by norm_num)
    · rw [horder.2] at huo
      rw [horder.1, ← huo] at hvo
      exact absurd (some.inj hvo) (by norm_num)
    · rfl

theorem keeps_both_iff_example : ∃ s', mergePages rowOrder .rational () (twoPages false) 0 () 5 =
    some s' ∧ KeepsBoth () (twoPages false) s' 0 5 := by
  obtain ⟨s', hmerged, hkeeps, -⟩ := keeps_both_iff rowOrder .rational () (twoPages false) 0 5 ()
    (twoPages_isPageTree false (.inl rfl)) (twoPages_isPageTree false (.inr rfl)) (by decide)
  refine ⟨s', hmerged, hkeeps.mpr ?_⟩
  decide

/-- The query lists the later block first, and the merged document shows it first. -/
theorem merge_reorders : ¬ ∃ s', mergePages rowOrder .rational () (twoPages true) 0 () 5 = some s' ∧
    KeepsBoth () (twoPages true) s' 0 5 := by
  rintro ⟨s', hmerged, hkeeps⟩
  obtain ⟨t, ht, -, -, hdocument⟩ := mergePages_spec rowOrder .rational () (twoPages true) ()
    (twoPages_isPageTree true (.inl rfl)) (twoPages_isPageTree true (.inr rfl)) (by decide)
  obtain rfl := some.inj (hmerged.symm.trans ht)
  have hlisted := hdocument.mp hkeeps.document
  exact absurd hlisted (by decide)

end Store

end Simmis.Wiki
