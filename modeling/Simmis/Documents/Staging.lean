import Simmis.Documents.Canonical
import Simmis.Documents.Resolution

/-!
# Staging again

Staging a document reads from a database whether its identities are absent, and the compiled scopes
of its declarations. Where both are as they were, the same documents are staged.
-/

namespace Simmis.Documents.Canonical

open List Option Maps Properties Constraints

variable {R : Type} {hash : ScopeContent → R} {java : Java} {db db' : Db}

/-- Every cached scope is what its declaration compiles to. -/
def Cache.Sound (hash : ScopeContent → R) (db : Db) (cache : Cache R) : Prop :=
  ∀ c ∈ cache, compileDeclaration hash db c.1 = .ok c.2

variable {d : Declaration}

theorem compileDeclaration_scope {c : Compiled R} (h : compileDeclaration hash db d = .ok c) :
    compileScope hash db d = .ok c := by
  obtain ⟨compiled, hcompiled, h⟩ := bind_eq_ok.mp h
  obtain ⟨-, -, h⟩ := bind_eq_ok.mp h
  cases h
  exact hcompiled

/-- A declaration that compiles to the same revision keeps its roles as well. -/
theorem compileDeclaration_replays (hinj : Function.Injective hash) {c c' : Compiled R}
    (h : compileDeclaration hash db d = .ok c) (h' : compileScope hash db' d = .ok c')
    (hrevision : c'.revision = c.revision) : compileDeclaration hash db' d = .ok c := by
  have hsame : c' = c := compileScope_eq hinj (compileDeclaration_scope h) h' hrevision
  obtain ⟨compiled, -, h⟩ := bind_eq_ok.mp h
  obtain ⟨u, hu, h⟩ := bind_eq_ok.mp h
  cases h
  exact bind_eq_ok.mpr ⟨c, hsame ▸ h', bind_eq_ok.mpr ⟨u, hu, rfl⟩⟩

variable {cache : Cache R} {r : Compiled R × Cache R}

section

variable (h : compileOnce hash db cache d = .ok r)
include h

theorem compileOnce_eq_ok : (get? cache d = some r.1 ∧ r.2 = cache) ∨
      (get? cache d = none ∧ compileDeclaration hash db d = .ok r.1 ∧
        r.2 = cache ++ [(d, r.1)]) := by
  unfold compileOnce at h
  split at h
  · next compiled hcompiled =>
    cases h
    exact .inl ⟨hcompiled, rfl⟩
  · next hnone =>
    obtain ⟨-, -, h⟩ := bind_eq_ok.mp h
    obtain ⟨compiled, hcompiled, h⟩ := bind_eq_ok.mp h
    cases h
    exact .inr ⟨hnone, hcompiled, assoc_of_none hnone⟩

theorem compileOnce_climbs : cache ⊆ r.2 := by
  obtain ⟨-, hr⟩ | ⟨-, -, hr⟩ := compileOnce_eq_ok h
  · rw [hr]
    exact List.Subset.refl _
  · rw [hr]
    exact subset_append_left ..

theorem compileOnce_mem : (d, r.1) ∈ r.2 := by
  obtain ⟨hget, hr⟩ | ⟨-, -, hr⟩ := compileOnce_eq_ok h
  · rw [hr]
    exact mem_of_get? hget
  · rw [hr]
    exact mem_append_right _ (mem_singleton_self _)

end

theorem Cache.Sound.compileOnce (hcache : cache.Sound hash db)
    (h : compileOnce hash db cache d = .ok r) : r.2.Sound hash db := by
  obtain ⟨-, hr⟩ | ⟨-, hcompiled, hr⟩ := compileOnce_eq_ok h
  · rw [hr]
    exact hcache
  · rw [hr]
    intro c hc
    obtain hold | hnew := mem_append.mp hc
    · exact hcache c hold
    · obtain rfl := mem_singleton.mp hnew
      exact hcompiled

theorem compileOnce_replays (hsound : r.2.Sound hash db')
    (h : compileOnce hash db cache d = .ok r) : compileOnce hash db' cache d = .ok r := by
  have hcompiled : compileDeclaration hash db' d = .ok r.1 := hsound _ (compileOnce_mem h)
  unfold compileOnce at h ⊢
  split at h
  · exact h
  · obtain ⟨u, hu, h⟩ := bind_eq_ok.mp h
    obtain ⟨compiled, -, h⟩ := bind_eq_ok.mp h
    cases h
    exact bind_eq_ok.mpr ⟨u, hu, bind_eq_ok.mpr ⟨_, hcompiled, rfl⟩⟩

/-- The attributes of a candidate are stored properties of some cached scope. -/
def Known (cache : Cache R) (candidate : Candidate) : Prop :=
  ∀ attr ∈ candidate.attrs, ∃ c ∈ cache, ∃ p ∈ c.2.properties, p.2.attr = attr

theorem Known.mono {cache' : Cache R} {candidate : Candidate} (h : Known cache candidate)
    (hsub : cache ⊆ cache') : Known cache' candidate := by
  intro attr hattr
  obtain ⟨c, hc, hp⟩ := h attr hattr
  exact ⟨c, hsub hc, hp⟩

theorem pageCandidate_attr {compiled : Compiled R} {raw : Mapping} {path : String}
    {values : Candidate} (haliased : ∀ b ∈ compiled.bindings, ∃ p ∈ compiled.properties, p.2 = b.2)
    (h : pageCandidate java compiled raw path = .ok values) {attr : Keyword}
    (hattr : attr ∈ values.attrs) : ∃ p ∈ compiled.properties, p.2.attr = attr := by
  unfold pageCandidate at h
  split at h
  · cases h
  · next title htitle =>
    obtain ⟨-, -, h⟩ := bind_eq_ok.mp h
    obtain ⟨-, -, h⟩ := bind_eq_ok.mp h
    cases h
    obtain ⟨b, hb, rfl⟩ := decodeCandidate_bound hattr
    obtain hslot | hgenerated := mem_append.mp hb
    · obtain ⟨b', hb', hsame⟩ := mem_slots hslot
      obtain ⟨p, hp, hpb⟩ := haliased b' hb'
      exact ⟨p, hp, by rw [hpb, hsame]⟩
    · obtain rfl := mem_singleton.mp hgenerated
      exact ⟨_, mem_of_get? htitle, rfl⟩

theorem decodeCandidate_attr {compiled : Compiled R} {raw : Mapping}
    (haliased : ∀ b ∈ compiled.bindings, ∃ p ∈ compiled.properties, p.2 = b.2) {attr : Keyword}
    (hattr : attr ∈
      (decodeCandidate java compiled.properties (slots compiled.bindings) raw).attrs) :
    ∃ p ∈ compiled.properties, p.2.attr = attr := by
  obtain ⟨b, hb, rfl⟩ := decodeCandidate_bound hattr
  obtain ⟨b', hb', hsame⟩ := mem_slots hb
  obtain ⟨p, hp, hpb⟩ := haliased b' hb'
  exact ⟨p, hp, by rw [hpb, hsame]⟩

/-- The staged blocks are explicit blocks of the document, of known attributes. -/
structure BlocksState.Sound (hash : ScopeContent → R) (db : Db) (ids : List Uuid)
    (s : BlocksState R) : Prop where
  cache : s.cache.Sound hash db
  ids : ∀ b ∈ s.blocks, b.1 ∈ ids
  known : ∀ b ∈ s.blocks, ∀ candidate, b.2.candidate = some candidate → Known s.cache candidate

variable {s t : BlocksState R}

theorem prepareBlock_eq_ok {decoded : Metadata.Decoded} {block : Block}
    (h : prepareBlock hash java db decoded s block = .ok t) : ∃ r values,
      compileOnce hash db s.cache
        (declaration blockRole ((get? decoded.blocks block.id).getD ⟨[], [], []⟩)) = .ok r ∧
      values = decodeCandidate java r.1.properties (slots r.1.bindings)
        ((get? decoded.blocks block.id).getD ⟨[], [], []⟩).values ∧
      t = ⟨r.2, assoc s.blocks block.id ⟨r.1.types, some values, none, []⟩,
        s.diagnostics ++ values.diagnostics⟩ := by
  obtain ⟨r, hr, h⟩ := bind_eq_ok.mp h
  cases h
  exact ⟨r, _, hr, rfl, rfl⟩

theorem prepareBlock_climbs {decoded : Metadata.Decoded} {block : Block}
    (h : prepareBlock hash java db decoded s block = .ok t) : s.cache ⊆ t.cache := by
  obtain ⟨r, values, hr, -, rfl⟩ := prepareBlock_eq_ok h
  exact compileOnce_climbs hr

theorem BlocksState.Sound.prepareBlock {ids : List Uuid} {decoded : Metadata.Decoded}
    {block : Block} (hs : s.Sound hash db ids) (hid : block.id ∈ ids)
    (h : prepareBlock hash java db decoded s block = .ok t) : t.Sound hash db ids := by
  obtain ⟨r, values, hr, hvalues, rfl⟩ := prepareBlock_eq_ok h
  have hcache : r.2.Sound hash db := hs.cache.compileOnce hr
  refine ⟨hcache, fun b hb ↦ ?_, fun b hb candidate hcandidate ↦ ?_⟩
  · obtain rfl | hold := mem_assoc hb
    · exact hid
    · exact hs.ids b hold
  · obtain rfl | hold := mem_assoc hb
    · cases hcandidate
      intro attr hattr
      have hmem := compileOnce_mem hr
      have hreads := compileScope_reads (compileDeclaration_scope (hcache _ hmem))
      rw [hvalues] at hattr
      exact ⟨_, hmem, decodeCandidate_attr hreads.aliased hattr⟩
    · exact (hs.known b hold candidate hcandidate).mono (compileOnce_climbs hr)

theorem prepareBlock_replays {decoded : Metadata.Decoded} {block : Block}
    (hsound : t.cache.Sound hash db') (h : prepareBlock hash java db decoded s block = .ok t) :
    prepareBlock hash java db' decoded s block = .ok t := by
  obtain ⟨r, values, hr, rfl, rfl⟩ := prepareBlock_eq_ok h
  exact bind_eq_ok.mpr ⟨r, compileOnce_replays hsound hr, rfl⟩

theorem prepareBlocks_sound {ids : List Uuid} {decoded : Metadata.Decoded} {explicit : List Block}
    (hs : s.Sound hash db ids) (hids : ∀ b ∈ explicit, b.id ∈ ids)
    (h : explicit.foldlM (prepareBlock hash java db decoded) s = .ok t) : t.Sound hash db ids :=
  foldlM_keeps (fun b hb _ _ hu ht ↦ hu.prepareBlock (hids b hb) ht) hs h

theorem prepareBlocks_climbs {decoded : Metadata.Decoded} {explicit : List Block}
    (h : explicit.foldlM (prepareBlock hash java db decoded) s = .ok t) :
    s.cache ⊆ t.cache :=
  foldlM_climbs (fun s t ↦ s.cache ⊆ t.cache) (fun _ ↦ List.Subset.refl _)
    (fun _ _ _ ↦ List.Subset.trans) (fun _ _ _ _ ht ↦ prepareBlock_climbs ht) h

theorem prepareBlocks_replays {decoded : Metadata.Decoded} {explicit : List Block}
    (hsound : t.cache.Sound hash db')
    (h : explicit.foldlM (prepareBlock hash java db decoded) s = .ok t) :
    explicit.foldlM (prepareBlock hash java db' decoded) s = .ok t :=
  foldlM_replays (fun s t ↦ s.cache ⊆ t.cache) (fun _ ↦ List.Subset.refl _)
    (fun _ _ _ ↦ List.Subset.trans) (fun _ _ _ _ ht ↦ prepareBlock_climbs ht)
    (fun _ _ _ _ ht hle ↦ prepareBlock_replays (fun c hc ↦ hsound c (hle hc)) ht) h

/-- Staged entities are absent from the database, with known attributes. -/
structure State.Sound (hash : ScopeContent → R) (db : Db) (s : State R) : Prop where
  cache : s.cache.Sound hash db
  absent : ∀ d ∈ s.documents, ∀ e ∈ entities d, db.eid e.id = none
  known : ∀ d ∈ s.documents, ∀ e ∈ entities d, Known s.cache e.candidate

/-- The scopes are added only, and a diagnostic stays. -/
structure State.Below (s t : State R) : Prop where
  cache : s.cache ⊆ t.cache
  clean : t.diagnostics.isEmpty = true → s.diagnostics.isEmpty = true

theorem State.Below.refl (s : State R) : s.Below s := ⟨List.Subset.refl _, id⟩

theorem State.Below.trans {s t u : State R} (h₁ : s.Below t) (h₂ : t.Below u) : s.Below u :=
  ⟨List.Subset.trans h₁.cache h₂.cache, fun h ↦ h₁.clean (h₂.clean h)⟩

section

variable {s t : State R} {document : Document} {decoded : Metadata.Decoded}

theorem prepareExplicit_eq_ok (h : prepareExplicit hash java db s document decoded = .ok t) :
    (∀ id ∈ document.ids, db.eid id = none) ∧ ∃ r values blocks,
      compileOnce hash db s.cache (declaration pageRole decoded.page) = .ok r ∧
      pageCandidate java r.1 decoded.page.values document.path = .ok values ∧
      document.explicitBlocks.foldlM (prepareBlock hash java db decoded) ⟨r.2, [], []⟩ =
        .ok blocks ∧ t = ⟨s.documents ++ [{ document with
          metadata := decoded
          canonical := some ⟨⟨r.1.types, some values, none, []⟩, blocks.blocks⟩ }],
        blocks.cache, s.count + 1 + document.explicitBlocks.length,
        s.diagnostics ++ (values.diagnostics ++ blocks.diagnostics).map
          (.canonical document.path)⟩ := by
  obtain ⟨-, -, h⟩ := bind_eq_ok.mp h
  obtain ⟨u, habsent, h⟩ := bind_eq_ok.mp h
  obtain ⟨r, hr, h⟩ := bind_eq_ok.mp h
  obtain ⟨values, hvalues, h⟩ := bind_eq_ok.mp h
  obtain ⟨blocks, hblocks, h⟩ := bind_eq_ok.mp h
  cases h
  exact ⟨require_eq_ok.mp habsent, r, values, blocks, hr, hvalues, hblocks, rfl⟩

theorem prepareExplicit_below (h : prepareExplicit hash java db s document decoded = .ok t) :
    s.Below t := by
  obtain ⟨-, r, values, blocks, hr, -, hblocks, rfl⟩ := prepareExplicit_eq_ok h
  constructor
  · exact List.Subset.trans (compileOnce_climbs hr) (prepareBlocks_climbs hblocks)
  · intro hempty
    exact isEmpty_iff.mpr (append_eq_nil_iff.mp (isEmpty_iff.mp hempty)).1

theorem mem_entities {d : Document} {e : Entity} (h : e ∈ entities d) :
    ∃ scopes id, d.canonical = some scopes ∧ d.id = some id ∧
      ((e.id = id ∧ scopes.page.candidate = some e.candidate) ∨
        ∃ b ∈ scopes.blocks, b.1 = e.id ∧ b.2.candidate = some e.candidate) := by
  unfold entities at h
  split at h
  · next scopes id hscopes hid =>
    refine ⟨scopes, id, hscopes, hid, ?_⟩
    obtain hpage | hblock := mem_append.mp h
    · obtain ⟨candidate, hcandidate, rfl⟩ := map_eq_some_iff.mp (mem_toList.mp hpage)
      exact .inl ⟨rfl, hcandidate⟩
    · obtain ⟨b, hb, he⟩ := mem_filterMap.mp hblock
      obtain ⟨candidate, hcandidate, rfl⟩ := map_eq_some_iff.mp he
      exact .inr ⟨b, hb, rfl, hcandidate⟩
  · cases h

theorem State.Sound.explicit (hs : s.Sound hash db)
    (h : prepareExplicit hash java db s document decoded = .ok t) : t.Sound hash db := by
  have hbelow := prepareExplicit_below h
  obtain ⟨habsent, r, values, blocks, hr, hvalues, hblocks, rfl⟩ := prepareExplicit_eq_ok h
  have hpage : r.2.Sound hash db := hs.cache.compileOnce hr
  have hstart : BlocksState.Sound hash db (document.explicitBlocks.map Block.id)
      ⟨r.2, [], []⟩ :=
    ⟨hpage, fun b hb ↦ absurd hb not_mem_nil, fun b hb ↦ absurd hb not_mem_nil⟩
  have hsound := prepareBlocks_sound hstart (fun b hb ↦ mem_map_of_mem hb) hblocks
  have hvalues' : Known r.2 values := by
    intro attr hattr
    have hmem := compileOnce_mem hr
    have hreads := compileScope_reads (compileDeclaration_scope (hpage _ hmem))
    exact ⟨_, hmem, pageCandidate_attr hreads.aliased hvalues hattr⟩
  have hnew (e : Entity) (he : e ∈ entities { document with
      metadata := decoded
      canonical := some ⟨⟨r.1.types, some values, none, []⟩, blocks.blocks⟩ }) :
      db.eid e.id = none ∧ Known blocks.cache e.candidate := by
    obtain ⟨scopes, id, hscopes, hid, ⟨hpage, hcandidate⟩ | ⟨b, hb, hblock, hcandidate⟩⟩ :=
      mem_entities he
    · cases hscopes
      cases hcandidate
      refine ⟨habsent _ ?_, hvalues'.mono (prepareBlocks_climbs hblocks)⟩
      rw [hpage]
      exact mem_append_left _ (mem_toList.mpr hid)
    · cases hscopes
      refine ⟨habsent _ ?_, hsound.known b hb _ hcandidate⟩
      rw [← hblock]
      exact mem_append_right _ (hsound.ids b hb)
  refine ⟨hsound.cache, fun d hd e he ↦ ?_, fun d hd e he ↦ ?_⟩
  · obtain hold | hlast := mem_append.mp hd
    · exact hs.absent d hold e he
    · obtain rfl := mem_singleton.mp hlast
      exact (hnew e he).1
  · obtain hold | hlast := mem_append.mp hd
    · exact (hs.known d hold e he).mono hbelow.cache
    · obtain rfl := mem_singleton.mp hlast
      exact (hnew e he).2

theorem prepareExplicit_replays (habsent : ∀ id ∈ document.ids, db'.eid id = none)
    (hsound : t.cache.Sound hash db')
    (h : prepareExplicit hash java db s document decoded = .ok t) :
    prepareExplicit hash java db' s document decoded = .ok t := by
  obtain ⟨-, r, values, blocks, hr, hvalues, hblocks, rfl⟩ := prepareExplicit_eq_ok h
  have hpage : r.2.Sound hash db' := fun c hc ↦ hsound c (prepareBlocks_climbs hblocks hc)
  obtain ⟨u, hcount, -⟩ := bind_eq_ok.mp h
  refine bind_eq_ok.mpr ⟨u, hcount, bind_eq_ok.mpr ⟨(), require_eq_ok.mpr habsent, ?_⟩⟩
  refine bind_eq_ok.mpr ⟨r, compileOnce_replays hpage hr, bind_eq_ok.mpr ⟨values, hvalues, ?_⟩⟩
  exact bind_eq_ok.mpr ⟨blocks, prepareBlocks_replays hsound hblocks, rfl⟩

theorem prepareDocument_cases (h : prepareDocument hash java db s document = .ok t) :
    (document.identityStatus = .explicit ∧ prepareExplicit hash java db s document
      (Metadata.decode document.parsed.properties (document.explicitBlocks.map Block.id)) = .ok t) ∨
    (document.identityStatus ≠ .explicit ∧
      t = { s with documents := s.documents ++ [document] }) := by
  obtain ⟨-, -, h⟩ := bind_eq_ok.mp h
  obtain ⟨-, -, h⟩ := bind_eq_ok.mp h
  split at h
  · next hexplicit => exact .inl ⟨hexplicit, h⟩
  · next hplain =>
    cases h
    exact .inr ⟨hplain, rfl⟩

theorem prepareDocument_replays
    (habsent : document.identityStatus = .explicit → ∀ id ∈ document.ids, db'.eid id = none)
    (hsound : t.cache.Sound hash db') (h : prepareDocument hash java db s document = .ok t) :
    prepareDocument hash java db' s document = .ok t := by
  have hcases := prepareDocument_cases h
  obtain ⟨u, hdecoded, h⟩ := bind_eq_ok.mp h
  obtain ⟨u', hidentity, h⟩ := bind_eq_ok.mp h
  refine bind_eq_ok.mpr ⟨u, hdecoded, bind_eq_ok.mpr ⟨u', hidentity, ?_⟩⟩
  obtain ⟨hexplicit, hprepared⟩ | ⟨hplain, -⟩ := hcases
  · rw [if_pos hexplicit]
    exact prepareExplicit_replays (habsent hexplicit) hsound hprepared
  · rw [if_neg hplain] at h ⊢
    exact h

/-- A step changes nothing, prepares the document or reports a refusal. -/
theorem prepareStep_cases (h : prepareStep hash java db s document = .ok t) :
    (s.diagnostics.isEmpty = false ∧ t = s) ∨
    (s.diagnostics.isEmpty ∧ prepareDocument hash java db s document = .ok t) ∨
    ∃ reason, t = prepareStep.refused s document reason := by
  unfold prepareStep at h
  split at h
  · next hempty =>
    split at h
    · next s' hprepared =>
      cases h
      exact .inr (.inl ⟨hempty, hprepared⟩)
    · cases h
      exact .inr (.inr ⟨_, rfl⟩)
    · cases h
      exact .inr (.inr ⟨_, rfl⟩)
    · cases h
  · next hfull =>
    cases h
    exact .inl ⟨by simpa using hfull, rfl⟩

theorem prepareStep_below (h : prepareStep hash java db s document = .ok t) : s.Below t := by
  obtain ⟨-, rfl⟩ | ⟨-, hprepared⟩ | ⟨reason, rfl⟩ := prepareStep_cases h
  · exact .refl _
  · obtain ⟨-, hexplicit⟩ | ⟨-, rfl⟩ := prepareDocument_cases hprepared
    · exact prepareExplicit_below hexplicit
    · exact ⟨List.Subset.refl _, id⟩
  · refine ⟨List.Subset.refl _, fun hempty ↦ ?_⟩
    simp [prepareStep.refused] at hempty

theorem State.Sound.append (hs : s.Sound hash db) (hplain : document.canonical = none)
    {count : ℕ} {diagnostics : List Diagnostic} :
    State.Sound hash db ⟨s.documents ++ [document], s.cache, count, diagnostics⟩ := by
  have hnone : entities document = [] := by
    unfold entities
    rw [hplain]
  refine ⟨hs.cache, fun d hd e he ↦ ?_, fun d hd e he ↦ ?_⟩
  · obtain hold | hlast := mem_append.mp hd
    · exact hs.absent d hold e he
    · obtain rfl := mem_singleton.mp hlast
      rw [hnone] at he
      cases he
  · obtain hold | hlast := mem_append.mp hd
    · exact hs.known d hold e he
    · obtain rfl := mem_singleton.mp hlast
      rw [hnone] at he
      cases he

theorem State.Sound.step (hs : s.Sound hash db) (hplain : document.canonical = none)
    (h : prepareStep hash java db s document = .ok t) : t.Sound hash db := by
  obtain ⟨-, rfl⟩ | ⟨-, hprepared⟩ | ⟨reason, rfl⟩ := prepareStep_cases h
  · exact hs
  · obtain ⟨-, hexplicit⟩ | ⟨-, rfl⟩ := prepareDocument_cases hprepared
    · exact hs.explicit hexplicit
    · exact hs.append hplain
  · exact hs.append hplain

theorem prepareStep_replays
    (habsent : document.identityStatus = .explicit → ∀ id ∈ document.ids, db'.eid id = none)
    (hsound : t.cache.Sound hash db') (hclean : t.diagnostics.isEmpty)
    (h : prepareStep hash java db s document = .ok t) :
    prepareStep hash java db' s document = .ok t := by
  obtain ⟨hfull, rfl⟩ | ⟨hempty, hprepared⟩ | ⟨reason, rfl⟩ := prepareStep_cases h
  · rw [hfull] at hclean
    cases hclean
  · unfold prepareStep
    rw [if_pos hempty, prepareDocument_replays habsent hsound hprepared]
  · simp [prepareStep.refused] at hclean

end

theorem scopesCurrent_compiles [DecidableEq R] {scopes : List (Declaration × R)}
    (h : scopesCurrent hash db scopes = .ok true) {scope : Declaration × R} (hmem : scope ∈ scopes) :
    ∃ c, compileScope hash db scope.1 = .ok c ∧ c.revision = scope.2 := by
  induction scopes with
  | nil => cases hmem
  | cons first rest ih =>
    obtain ⟨c, hc, h⟩ := bind_eq_ok.mp h
    split at h
    · next hrevision =>
      obtain rfl | hlater := mem_cons.mp hmem
      · exact ⟨c, hc, hrevision⟩
      · exact ih h hlater
    · cases h

variable {prStr : Declaration → String}

theorem mem_scopes {c : Declaration × Compiled R} (h : c ∈ cache) :
    (c.1, c.2.revision) ∈ scopes prStr cache :=
  mem_map.mpr ⟨c, (mem_insertionSort _).mpr h, rfl⟩

variable {documents : List Document}

theorem resolveValues_clean {diagnostics : List Diagnostic}
    {r : List Document × List Diagnostic × Option Dependencies}
    (h : resolveValues db documents diagnostics = .ok r) (hclean : r.2.1.isEmpty) :
    diagnostics.isEmpty ∧ ∃ resolved dependencies,
      resolveSelection db (documents.flatMap entities) = .ok (resolved, dependencies) ∧
      r = (documents.map (resolvedDocument resolved), diagnostics, some dependencies) := by
  unfold resolveValues at h
  split at h
  · next hempty =>
    split at h
    · next resolved dependencies hresolved =>
      cases h
      exact ⟨hempty, resolved, dependencies, hresolved, rfl⟩
    · cases h
      simp at hclean
    · cases h
  · next hfull =>
    cases h
    exact absurd hclean hfull

theorem isCurrent_eq_ok [DecidableEq R] {scopes : List (Declaration × R)}
    {dependencies : Option Dependencies} {ownDerived : Bool}
    (h : isCurrent hash db scopes dependencies ownDerived = .ok true) :
    scopesCurrent hash db scopes = .ok true ∧
      dependencies.any (fun d ↦ Constraints.isCurrent db d ownDerived) := by
  unfold isCurrent at h
  split at h
  · next hscopes => exact ⟨hscopes, Except.ok.inj h⟩
  · cases h
  · cases h
  · cases h

/-- The freshness check of the stage always answers. -/
theorem isCurrent_answers [DecidableEq R] (hash : ScopeContent → R) (db : Db)
    (scopes : List (Declaration × R)) (dependencies : Option Dependencies) (ownDerived : Bool) :
    ∃ b, isCurrent hash db scopes dependencies ownDerived = .ok b := by
  have hthrows : Throws IsSchema (scopesCurrent hash db scopes) := by
    induction scopes with
    | nil => exact .ok _
    | cons scope rest ih =>
      refine .bind (compileScope_throws hash scope.1) fun c _ ↦ ?_
      split
      · exact ih
      · exact .ok _
  unfold isCurrent
  split
  · exact ⟨_, rfl⟩
  · exact ⟨_, rfl⟩
  · exact ⟨_, rfl⟩
  · next e hnot he =>
    obtain ⟨reason, rfl⟩ := hthrows e he
    exact (hnot reason rfl).elim

/-- What a stage without a diagnostic has recorded is right. -/
theorem prepare_right {r : Result R} (hplain : ∀ d ∈ documents, d.canonical = none)
    (hclean : r.diagnostics.isEmpty) (h : prepare hash java prStr db documents = .ok r) :
    (∀ scope ∈ r.scopes, ∃ c, compileScope hash db scope.1 = .ok c ∧ c.revision = scope.2) ∧
      ∀ d, r.dependencies = some d → d.Hold db := by
  obtain ⟨s, hs, h⟩ := bind_eq_ok.mp h
  obtain ⟨resolution, hresolution, h⟩ := bind_eq_ok.mp h
  cases h
  obtain ⟨-, resolved, dependencies, hresolved, rfl⟩ := resolveValues_clean hresolution hclean
  have hsound : s.Sound hash db := by
    refine foldlM_keeps (fun d hd _ _ hu ht ↦ State.Sound.step hu (hplain d hd) ht) ?_ hs
    exact ⟨fun c hc ↦ absurd hc not_mem_nil, fun d hd ↦ absurd hd not_mem_nil,
      fun d hd ↦ absurd hd not_mem_nil⟩
  refine ⟨fun scope hscope ↦ ?_, fun d hd ↦ ?_⟩
  · obtain ⟨c, hc, rfl⟩ := mem_map.mp hscope
    have hcached : c ∈ s.cache := (mem_insertionSort _).mp hc
    exact ⟨c.2, compileDeclaration_scope (hsound.cache c hcached), rfl⟩
  · cases hd
    exact resolveSelection_hold hresolved

/-- The stage returns again what it returned, where its freshness checks pass. -/
theorem prepare_replays [DecidableEq R] (hinj : Function.Injective hash) {r : Result R}
    (hplain : ∀ d ∈ documents, d.canonical = none) (hclean : r.diagnostics.isEmpty)
    (hcurrent : isCurrent hash db' r.scopes r.dependencies false = .ok true)
    (havailable : sourceAvailable db' documents)
    (h : prepare hash java prStr db documents = .ok r) :
    prepare hash java prStr db' documents = .ok r := by
  obtain ⟨s, hs, h⟩ := bind_eq_ok.mp h
  obtain ⟨resolution, hresolution, h⟩ := bind_eq_ok.mp h
  cases h
  obtain ⟨hempty, resolved, dependencies, hresolved, rfl⟩ := resolveValues_clean hresolution hclean
  obtain ⟨hscopes, hdependencies⟩ := isCurrent_eq_ok hcurrent
  have hstart (db : Db) : State.Sound hash db (⟨[], [], 0, []⟩ : State R) :=
    ⟨fun c hc ↦ absurd hc not_mem_nil, fun d hd ↦ absurd hd not_mem_nil,
      fun d hd ↦ absurd hd not_mem_nil⟩
  have hsound : s.Sound hash db :=
    foldlM_keeps (fun d hd _ _ hu ht ↦ hu.step (hplain d hd) ht) (hstart db) hs
  have hcompiled : s.cache.Sound hash db' := by
    intro c hc
    obtain ⟨c', hc', hrevision⟩ := scopesCurrent_compiles hscopes (mem_scopes hc)
    exact compileDeclaration_replays hinj (hsound.cache c hc) hc' hrevision
  have habsent : ∀ d ∈ documents, d.identityStatus = .explicit →
      ∀ id ∈ d.ids, db'.eid id = none := by
    intro d hd hexplicit id hid
    simp only [sourceAvailable, Bool.decide_and, Bool.and_eq_true, decide_eq_true_eq] at havailable
    refine havailable.2.1 id (mem_flatMap.mpr ⟨d, ?_, hid⟩)
    exact mem_filter.mpr ⟨hd, by simpa using hexplicit⟩
  have hstaged : documents.foldlM (prepareStep hash java db') ⟨[], [], 0, []⟩ = .ok s :=
    foldlM_replays State.Below State.Below.refl (fun _ _ _ ↦ State.Below.trans)
      (fun _ _ _ _ ht ↦ prepareStep_below ht)
      (fun d hd _ _ ht hle ↦ prepareStep_replays (habsent d hd)
        (fun c hc ↦ hcompiled c (hle.cache hc)) (hle.clean hempty) ht) hs
  have hsound' : s.Sound hash db' :=
    foldlM_keeps (fun d hd _ _ hu ht ↦ hu.step (hplain d hd) ht) (hstart db') hstaged
  have hschema : ∀ e ∈ s.documents.flatMap entities,
      ∀ attr ∈ e.candidate.attrs, db'.attr? attr = db.attr? attr := by
    intro e he attr hattr
    obtain ⟨d, hd, he⟩ := mem_flatMap.mp he
    obtain ⟨c, hc, p, hp, rfl⟩ := hsound.known d hd e he attr hattr
    have hread := compileScope_reads (compileDeclaration_scope (hsound.cache c hc))
    have hread' := compileScope_reads (compileDeclaration_scope (hcompiled c hc))
    rw [hread'.schema p hp, hread.schema p hp]
  have hfree : ∀ e ∈ s.documents.flatMap entities, db'.eid e.id = none := by
    intro e he
    obtain ⟨d, hd, he⟩ := mem_flatMap.mp he
    exact hsound'.absent d hd e he
  have hagain : resolveSelection db' (s.documents.flatMap entities) =
      .ok (resolved, dependencies) :=
    resolveSelection_replays hschema hfree (hold_of_isCurrent hdependencies) hresolved
  refine bind_eq_ok.mpr ⟨s, hstaged, bind_eq_ok.mpr ⟨_, ?_, rfl⟩⟩
  unfold resolveValues
  rw [if_pos hempty, hagain]

end Simmis.Documents.Canonical
