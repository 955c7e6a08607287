import Simmis.Documents.Constraints
import Mathlib.Data.List.Dedup

/-!
# Resolution again

What the resolution of a selection reads from a database is the schema of the attributes of its
candidates, the absence of its identities, and the answers that it records. A database that agrees
on them resolves it to the same values.
-/

namespace Simmis.Documents.Constraints

open List Option Maps Properties

variable {db db' : Db} {table : List Planned}

/-- The recorded answers are right in a database. -/
structure Dependencies.Hold (db : Db) (d : Dependencies) : Prop where
  codomains : ∀ id ∈ d.codomains, isCodomain db id = true
  external : ∀ t ∈ d.externalTargets, db.eid t.uuid = some t.eid ∧ role db t.eid t.codomain = true
  unique : ∀ u ∈ d.uniqueValues, u.plannedTarget = true ∨
    u.baseValue.any (fun base ↦ (db.avet u.attr base).isEmpty) = true

theorem hold_of_isCurrent {d : Dependencies} (h : isCurrent db d false) : d.Hold db := by
  simp only [isCurrent, Bool.decide_and, Bool.and_eq_true, decide_eq_true_eq, Bool.false_eq_true,
    false_or] at h
  exact ⟨h.2.1, h.2.2.1, h.2.2.2⟩

/-- In checked answers a planned target has no value in the database. -/
theorem baseValue_of_isCurrent {d : Dependencies} {ownDerived : Bool}
    (h : isCurrent db d ownDerived) {u : UniqueValue} (hu : u ∈ d.uniqueValues)
    (hplanned : u.plannedTarget) : u.baseValue = none := by
  simp only [isCurrent, Dependencies.isWellFormed, Bool.decide_and, Bool.and_eq_true,
    decide_eq_true_eq] at h
  have hwell := h.1.2.2 u hu
  rw [if_pos hplanned] at hwell
  exact isNone_iff_eq_none.mp hwell.2

theorem entityWork_congr {entity : Entity}
    (hschema : ∀ attr ∈ entity.candidate.attrs, db'.attr? attr = db.attr? attr) (work : ℕ) :
    entityWork db' work entity = entityWork db work entity := by
  have hvalues : entity.candidate.candidateValues.foldlM (valueWork db') 0 =
      entity.candidate.candidateValues.foldlM (valueWork db) 0 := by
    refine foldlM_congr (fun value hvalue n ↦ ?_) 0
    have hattr : value.1 ∈ entity.candidate.attrs := mem_append_left _ (mem_map_of_mem hvalue)
    simp only [valueWork, hschema _ hattr]
  simp only [entityWork, hvalues]

variable {entities : List Entity}

theorem input_congr (hschema : ∀ e ∈ entities,
    ∀ attr ∈ e.candidate.attrs, db'.attr? attr = db.attr? attr) :
    input db' entities = input db entities := by
  have hfold : entities.foldlM (entityWork db') 0 = entities.foldlM (entityWork db) 0 :=
    foldlM_congr (fun e he work ↦ entityWork_congr (hschema e he) work) 0
  simp only [input, hfold]

variable {r : Value × Option External} {id : Uuid}

variable {codomain : Uuid}

theorem target_found (h : target db table codomain id = .ok r) : (planned? table id).isSome ∨
      ∃ x, r.2 = some x ∧ x.uuid = id ∧ db.eid id = some x.eid := by
  unfold target at h
  split at h
  · next planned hplanned => exact .inl (by rw [hplanned]; rfl)
  · split at h
    · cases h
    · next e he =>
      obtain ⟨-, -, h⟩ := bind_eq_ok.mp h
      cases h
      exact .inr ⟨_, rfl, rfl, he⟩

theorem target_replays
    (hhold : ∀ x, r.2 = some x → db'.eid x.uuid = some x.eid ∧ role db' x.eid x.codomain)
    (h : target db table codomain id = .ok r) : target db' table codomain id = .ok r := by
  unfold target at h ⊢
  split at h
  · exact h
  · split at h
    · cases h
    · next e he =>
      obtain ⟨-, -, h⟩ := bind_eq_ok.mp h
      cases h
      obtain ⟨heid, hrole⟩ := hhold _ rfl
      simp only [heid]
      exact bind_eq_ok.mpr ⟨(), require_eq_ok.mpr hrole, rfl⟩

/-- A target that was found is of its type. -/
theorem target_right (h : target db table codomain id = .ok r) {x : External} (hx : r.2 = some x) :
    db.eid x.uuid = some x.eid ∧ role db x.eid x.codomain := by
  unfold target at h
  split at h
  · obtain ⟨-, -, h⟩ := bind_eq_ok.mp h
    cases h
    cases hx
  · split at h
    · cases h
    · next e he =>
      obtain ⟨u, hrole, h⟩ := bind_eq_ok.mp h
      cases h
      cases hx
      exact ⟨he, require_eq_ok.mp hrole⟩

variable {c : Reference}

theorem mem_references {claims : List Claim} (h : c ∈ references claims) :
    ∃ claim ∈ claims, claim.attr = c.attr := by
  obtain ⟨claim, hclaim, hc⟩ := mem_filterMap.mp h
  refine ⟨claim, hclaim, ?_⟩
  split at hc <;> cases hc
  rfl

/-- Values under the candidate's attributes, whose targets are planned or rightly found. -/
structure Resolved.Sound (db : Db) (table : List Planned) (attrs : List Keyword) (r : Resolved) :
    Prop where
  attrs : ∀ p ∈ r.values, p.1 ∈ attrs
  right : ∀ x ∈ r.external, db.eid x.uuid = some x.eid ∧ role db x.eid x.codomain = true
  targets : ∀ p ∈ r.logicalReferences, ∀ id ∈ p.2, (planned? table id).isSome = true ∨
    ∃ x ∈ r.external, x.uuid = id ∧ db.eid id = some x.eid

variable {r' : Resolved}

theorem resolveReference_eq_ok {r : Resolved} (h : resolveReference db table r c = .ok r') :
    ∃ resolved, c.targets.mapM (target db table c.codomain) = .ok resolved ∧
      r' = ⟨store r.values c.attr c.cardinality (resolved.map (·.1)),
        assoc r.logicalReferences c.attr c.targets, r.external ∪ (resolved.filterMap (·.2)).dedup⟩ := by
  obtain ⟨-, -, h⟩ := bind_eq_ok.mp h
  obtain ⟨resolved, hresolved, h⟩ := bind_eq_ok.mp h
  cases h
  exact ⟨resolved, hresolved, rfl⟩

theorem resolveReference_climbs {r : Resolved} (h : resolveReference db table r c = .ok r') :
    r.external ⊆ r'.external := by
  obtain ⟨resolved, -, rfl⟩ := resolveReference_eq_ok h
  exact fun x hx ↦ mem_union_iff.mpr (.inl hx)

theorem Resolved.Sound.reference {attrs : List Keyword} {r : Resolved} (hr : r.Sound db table attrs)
    (hattr : c.attr ∈ attrs) (h : resolveReference db table r c = .ok r') :
    r'.Sound db table attrs := by
  obtain ⟨resolved, hresolved, rfl⟩ := resolveReference_eq_ok h
  constructor
  · intro p hp
    obtain hnew | hold := store_attr hp
    · exact hnew ▸ hattr
    · exact hr.attrs p hold
  · intro x hx
    obtain hold | hnew := mem_union_iff.mp hx
    · exact hr.right x hold
    · obtain ⟨found, hmem, hfound⟩ := mem_filterMap.mp (mem_dedup.mp hnew)
      obtain ⟨id, -, htarget⟩ := of_mem_mapM hresolved hmem
      exact target_right htarget hfound
  · intro p hp id hid
    obtain rfl | hold := mem_assoc hp
    · obtain ⟨found, hmem, hfound⟩ := mem_mapM hresolved hid
      obtain hplanned | ⟨x, hx, huuid, heid⟩ := target_found hfound
      · exact .inl hplanned
      · have hexternal : x ∈ (resolved.filterMap (·.2)).dedup :=
          mem_dedup.mpr (mem_filterMap.mpr ⟨found, hmem, hx⟩)
        exact .inr ⟨x, mem_union_iff.mpr (.inr hexternal), huuid, heid⟩
    · obtain hplanned | ⟨x, hx, hfound⟩ := hr.targets p hold id hid
      · exact .inl hplanned
      · exact .inr ⟨x, mem_union_iff.mpr (.inl hx), hfound⟩

theorem resolveReference_replays {r : Resolved} (hschema : db'.attr? c.attr = db.attr? c.attr)
    (hhold : ∀ x ∈ r'.external, db'.eid x.uuid = some x.eid ∧ role db' x.eid x.codomain)
    (h : resolveReference db table r c = .ok r') : resolveReference db' table r c = .ok r' := by
  obtain ⟨resolved, hresolved, hr'⟩ := resolveReference_eq_ok h
  have hsame : c.targets.mapM (target db' table c.codomain) = .ok resolved := by
    refine mapM_replays (fun id _ found hfound ↦ target_replays fun x hx ↦ hhold x ?_) hresolved
    rw [hr']
    refine mem_union_iff.mpr (.inr (mem_dedup.mpr ?_))
    exact mem_filterMap.mpr ⟨found, hfound, hx⟩
  unfold resolveReference at h ⊢
  rw [hschema]
  obtain ⟨u, hu, -⟩ := bind_eq_ok.mp h
  refine bind_eq_ok.mpr ⟨u, hu, bind_eq_ok.mpr ⟨resolved, hsame, ?_⟩⟩
  rw [hr']
  rfl

section

variable {candidate : Candidate} {r : Resolved}

theorem references_attr {c : Reference} (h : c ∈ references candidate.claims) :
    c.attr ∈ candidate.attrs := by
  obtain ⟨claim, hclaim, hattr⟩ := mem_references h
  exact mem_append_right _ (mem_map.mpr ⟨claim, hclaim, hattr⟩)

theorem referenceValues_sound (h : referenceValues db table candidate = .ok r) :
    r.Sound db table candidate.attrs := by
  obtain ⟨-, -, h⟩ := bind_eq_ok.mp h
  refine foldlM_keeps (fun c hc s t hs ht ↦ hs.reference (references_attr hc) ht) ?_ h
  refine ⟨fun p hp ↦ ?_, fun x hx ↦ absurd hx not_mem_nil, fun p hp ↦ absurd hp not_mem_nil⟩
  exact mem_append_left _ (mem_map_of_mem hp)

theorem referenceValues_replays (hschema : ∀ attr ∈ candidate.attrs, db'.attr? attr = db.attr? attr)
    (hhold : ∀ x ∈ r.external, db'.eid x.uuid = some x.eid ∧ role db' x.eid x.codomain)
    (h : referenceValues db table candidate = .ok r) :
    referenceValues db' table candidate = .ok r := by
  obtain ⟨u, hu, h⟩ := bind_eq_ok.mp h
  refine bind_eq_ok.mpr ⟨u, hu, ?_⟩
  refine foldlM_replays (fun s t ↦ s.external ⊆ t.external)
    (fun s ↦ List.Subset.refl _) (fun _ _ _ ↦ List.Subset.trans)
    (fun c _ s t ht ↦ resolveReference_climbs ht) (fun c hc s t ht hle ↦ ?_) h
  exact resolveReference_replays (hschema _ (references_attr hc)) (fun x hx ↦ hhold x (hle hx)) ht

end

/-- The targets of the references among some items are planned, or found alike. -/
def SameTargets (db db' : Db) (table : List Planned) (items : List Value) : Prop :=
  ∀ value ∈ items, ∀ id, value.uuid? = some id →
    (planned? table id).isSome = true ∨ db'.eid id = db.eid id

/-- The recorded unique values are free in `db`. -/
def Free (db : Db) (dependencies : List UniqueValue) : Prop :=
  ∀ u ∈ dependencies, u.plannedTarget = true ∨
    u.baseValue.any (fun base ↦ (db.avet u.attr base).isEmpty) = true

variable {t s : Claimed}

variable {attr : Keyword} {isReference : Bool} {value : Value}

theorem claimItem_climbs (h : claimItem db table id attr isReference s value = .ok t) :
    s.dependencies ⊆ t.dependencies := by
  unfold claimItem at h
  simp only [bind_eq_ok, require_eq_ok] at h
  obtain ⟨-, -, -, -, -, -, h⟩ := h
  cases h
  exact fun u hu ↦ mem_insert_of_mem hu

theorem claimItem_free (hs : Free db s.dependencies) (h : claimItem db table id attr isReference s value = .ok t) :
    Free db t.dependencies := by
  unfold claimItem at h
  simp only [bind_eq_ok, require_eq_ok] at h
  obtain ⟨-, -, -, hfound, -, hempty, h⟩ := h
  cases h
  intro u hu
  obtain rfl | hold := mem_insert_iff.mp hu
  · obtain hplanned | hsome := hfound
    · exact .inl hplanned
    · obtain ⟨base, hbase⟩ := isSome_iff_exists.mp hsome
      refine hempty.imp (fun hplanned ↦ hplanned) fun hall ↦ ?_
      rw [hbase] at hall ⊢
      exact hall
  · exact hs u hold

theorem all_of_any {α : Type} {o : Option α} {p : α → Bool} (h : o.any p) : o.all p := by
  cases o with
  | none => rfl
  | some a => exact h

theorem claimItem_replays (htargets : isReference → SameTargets db db' table [value])
    (hfree : Free db' t.dependencies) (h : claimItem db table id attr isReference s value = .ok t) :
    claimItem db' table id attr isReference s value = .ok t := by
  have hbase (isPlanned : Bool) (hplanned : isPlanned =
      (if isReference then value.uuid? else none).any fun target ↦ (planned? table target).isSome) :
      (if isReference then if isPlanned then none
        else ((if isReference then value.uuid? else none).bind db'.eid).map Value.ref
        else some value) =
      (if isReference then if isPlanned then none
        else ((if isReference then value.uuid? else none).bind db.eid).map Value.ref
        else some value) := by
    cases hreference : isReference with
    | false => rfl
    | true =>
      cases hid : value.uuid? with
      | none => rfl
      | some target =>
        obtain hin | hsame := htargets hreference value (mem_singleton_self _) target hid
        · have hyes : isPlanned := by rw [hplanned, hreference, hid]; simpa using hin
          simp [hyes]
        · simp [hsame]
  unfold claimItem at h ⊢
  simp only [hbase _ rfl]
  simp only [bind_eq_ok, require_eq_ok] at h ⊢
  obtain ⟨u₁, hseen, u₂, hfound, -, -, h⟩ := h
  refine ⟨u₁, hseen, u₂, hfound, (), ?_, h⟩
  cases h
  obtain hin | hempty := hfree _ (mem_insert_self ..)
  · exact .inl hin
  · exact .inr (all_of_any hempty)

theorem resolveUnique_climbs {r : Resolved} {c : UniqueClaim}
    (h : resolveUnique db table id r s c = .ok t) : s.dependencies ⊆ t.dependencies := by
  obtain ⟨-, -, h⟩ := bind_eq_ok.mp h
  exact foldlM_climbs (fun s t ↦ s.dependencies ⊆ t.dependencies) (fun s ↦ List.Subset.refl _)
    (fun _ _ _ ↦ List.Subset.trans) (fun _ _ _ _ ht ↦ claimItem_climbs ht) h

theorem resolveUnique_replays {r : Resolved} {c : UniqueClaim}
    (hschema : db'.attr? c.attr = db.attr? c.attr)
    (htargets : ∀ p ∈ r.logicalReferences, SameTargets db db' table (p.2.map .uuid))
    (hfree : Free db' t.dependencies) (h : resolveUnique db table id r s c = .ok t) :
    resolveUnique db' table id r s c = .ok t := by
  unfold resolveUnique at h ⊢
  rw [hschema]
  obtain ⟨u, hu, h⟩ := bind_eq_ok.mp h
  obtain ⟨-, hreference, hitems⟩ := require_eq_ok.mp hu
  refine bind_eq_ok.mpr ⟨u, hu, ?_⟩
  have hsame : c.isReference → SameTargets db db' table c.items := by
    intro htrue
    rw [← hreference, htrue, if_pos rfl, map_eq_some_iff] at hitems
    obtain ⟨ids, hids, hitems⟩ := hitems
    rw [← hitems]
    exact htargets _ (mem_of_get? hids)
  refine foldlM_replays (fun s t ↦ s.dependencies ⊆ t.dependencies) (fun s ↦ List.Subset.refl _)
    (fun _ _ _ ↦ List.Subset.trans) (fun _ _ _ _ ht ↦ claimItem_climbs ht)
    (fun value hvalue s' t' ht hle ↦ claimItem_replays ?_ (fun u hu ↦ hfree u (hle hu)) ht) h
  intro htrue value' hvalue'
  obtain rfl := mem_singleton.mp hvalue'
  exact hsame (hreference.trans htrue) value' hvalue

section

variable {candidate : Candidate} {r : Resolved} {id : Uuid} {t : Claimed}
  {seen : List ((Keyword × Value) × Uuid)}

theorem mem_uniqueClaims {claims : List Claim} {c : UniqueClaim} (h : c ∈ uniqueClaims claims) :
    ∃ claim ∈ claims, claim.attr = c.attr := by
  obtain ⟨claim, hclaim, hc⟩ := mem_filterMap.mp h
  refine ⟨claim, hclaim, ?_⟩
  split at hc <;> cases hc
  rfl

theorem uniqueValues_replays (hschema : ∀ attr ∈ candidate.attrs, db'.attr? attr = db.attr? attr)
    (hvalues : ∀ p ∈ r.values, p.1 ∈ candidate.attrs)
    (htargets : ∀ p ∈ r.logicalReferences, SameTargets db db' table (p.2.map .uuid))
    (hfree : Free db' t.dependencies) (h : uniqueValues db table id candidate r seen = .ok t) :
    uniqueValues db' table id candidate r seen = .ok t := by
  have hexpected : ((r.values.map (·.1)).filter fun attr ↦
        ((db'.attr? attr).bind AttrSchema.unique).isSome) =
      (r.values.map (·.1)).filter fun attr ↦
        ((db.attr? attr).bind AttrSchema.unique).isSome := by
    refine filter_congr fun attr hattr ↦ ?_
    obtain ⟨p, hp, rfl⟩ := mem_map.mp hattr
    rw [hschema _ (hvalues p hp)]
  unfold uniqueValues at h ⊢
  simp only [hexpected]
  obtain ⟨u, hu, h⟩ := bind_eq_ok.mp h
  refine bind_eq_ok.mpr ⟨u, hu, ?_⟩
  refine foldlM_replays (fun s t ↦ s.dependencies ⊆ t.dependencies) (fun s ↦ List.Subset.refl _)
    (fun _ _ _ ↦ List.Subset.trans) (fun _ _ _ _ ht ↦ resolveUnique_climbs ht)
    (fun c hc s' t' ht hle ↦ ?_) h
  obtain ⟨claim, hclaim, hattr⟩ := mem_uniqueClaims hc
  have hsame : db'.attr? c.attr = db.attr? c.attr :=
    hschema _ (mem_append_right _ (mem_map.mpr ⟨claim, hclaim, hattr⟩))
  exact resolveUnique_replays hsame htargets (fun u hu ↦ hfree u (hle hu)) ht

end

theorem uniqueValues_free {candidate : Candidate} {r : Resolved}
    {seen : List ((Keyword × Value) × Uuid)}
    (h : uniqueValues db table id candidate r seen = .ok t) : Free db t.dependencies := by
  obtain ⟨-, -, h⟩ := bind_eq_ok.mp h
  refine foldlM_keeps (p := fun s ↦ Free db s.dependencies) (fun c _ s t hs ht ↦ ?_)
    (fun u hu ↦ absurd hu not_mem_nil) h
  obtain ⟨-, -, ht⟩ := bind_eq_ok.mp ht
  exact foldlM_keeps (p := fun s ↦ Free db s.dependencies)
    (fun _ _ _ _ hs ht ↦ claimItem_free hs ht) hs ht

/-- Answers are added only. -/
structure Dependencies.Extends (d d' : Dependencies) : Prop where
  codomains : d'.codomains = d.codomains
  external : d.externalTargets ⊆ d'.externalTargets
  unique : d.uniqueValues ⊆ d'.uniqueValues

variable {p : Planned}

theorem resolveEntity_eq_ok {s t : Progress} (h : resolveEntity db table s p = .ok t) :
    ∃ resolved unique, referenceValues db table p.candidate = .ok resolved ∧
      uniqueValues db table p.id p.candidate resolved s.seen = .ok unique ∧
      t = ⟨s.entities ++ [⟨p.id, p.types, p.tempid, resolved.values⟩], unique.seen,
        ⟨s.dependencies.codomains, s.dependencies.externalTargets ∪ resolved.external,
          s.dependencies.uniqueValues ∪ unique.dependencies⟩⟩ := by
  obtain ⟨resolved, hresolved, h⟩ := bind_eq_ok.mp h
  obtain ⟨unique, hunique, h⟩ := bind_eq_ok.mp h
  cases h
  exact ⟨resolved, unique, hresolved, hunique, rfl⟩

theorem resolveEntity_extends {s t : Progress} (h : resolveEntity db table s p = .ok t) :
    s.dependencies.Extends t.dependencies := by
  obtain ⟨resolved, unique, -, -, rfl⟩ := resolveEntity_eq_ok h
  exact ⟨rfl, fun x hx ↦ mem_union_iff.mpr (.inl hx), fun u hu ↦ mem_union_iff.mpr (.inl hu)⟩

theorem resolveEntity_replays {s t : Progress}
    (hschema : ∀ attr ∈ p.candidate.attrs, db'.attr? attr = db.attr? attr)
    (hhold : t.dependencies.Hold db') (h : resolveEntity db table s p = .ok t) :
    resolveEntity db' table s p = .ok t := by
  obtain ⟨resolved, unique, hresolved, hunique, rfl⟩ := resolveEntity_eq_ok h
  have hexternal : ∀ x ∈ resolved.external,
      db'.eid x.uuid = some x.eid ∧ role db' x.eid x.codomain :=
    fun x hx ↦ hhold.external x (mem_union_iff.mpr (.inr hx))
  have hfree : Free db' unique.dependencies :=
    fun u hu ↦ hhold.unique u (mem_union_iff.mpr (.inr hu))
  have hsound := referenceValues_sound hresolved
  have htargets : ∀ q ∈ resolved.logicalReferences, SameTargets db db' table (q.2.map .uuid) := by
    intro q hq value hvalue id hid
    obtain ⟨id', hid', rfl⟩ := mem_map.mp hvalue
    cases hid
    obtain hplanned | ⟨x, hx, rfl, heid⟩ := hsound.targets q hq _ hid'
    · exact .inl hplanned
    · exact .inr ((hexternal x hx).1.trans heid.symm)
  refine bind_eq_ok.mpr ⟨resolved, referenceValues_replays hschema hexternal hresolved, ?_⟩
  refine bind_eq_ok.mpr ⟨unique, ?_, rfl⟩
  exact uniqueValues_replays hschema hsound.attrs htargets hfree hunique

theorem Dependencies.Hold.entity {s t : Progress} (hs : s.dependencies.Hold db)
    (h : resolveEntity db table s p = .ok t) : t.dependencies.Hold db := by
  obtain ⟨resolved, unique, hresolved, hunique, rfl⟩ := resolveEntity_eq_ok h
  refine ⟨hs.codomains, fun x hx ↦ ?_, fun u hu ↦ ?_⟩
  · obtain hold | hnew := mem_union_iff.mp hx
    · exact hs.external x hold
    · exact (referenceValues_sound hresolved).right x hnew
  · obtain hold | hnew := mem_union_iff.mp hu
    · exact hs.unique u hold
    · exact uniqueValues_free hunique u hnew

theorem mem_plan (h : p ∈ plan entities) : p.toEntity ∈ entities := by
  obtain ⟨q, hq, rfl⟩ := mem_map.mp h
  have hsorted := fst_mem_of_mem_zipIdx hq
  exact (mem_insertionSort _).mp hsorted

/-- The answers of a resolved selection are right. -/
theorem resolveSelection_hold {r : List ResolvedEntity × Dependencies}
    (h : resolveSelection db entities = .ok r) : r.2.Hold db := by
  obtain ⟨-, -, h⟩ := bind_eq_ok.mp h
  obtain ⟨-, -, h⟩ := bind_eq_ok.mp h
  obtain ⟨u, hcodomains, h⟩ := bind_eq_ok.mp h
  obtain ⟨s, hs, h⟩ := bind_eq_ok.mp h
  cases h
  refine foldlM_keeps (p := fun s ↦ s.dependencies.Hold db) (fun _ _ _ _ hu ht ↦ hu.entity ht) ?_ hs
  exact ⟨require_eq_ok.mp hcodomains, fun x hx ↦ absurd hx not_mem_nil,
    fun u hu ↦ absurd hu not_mem_nil⟩

/-- A selection resolves again where its schemas and answers hold and its identities are free. -/
theorem resolveSelection_replays {r : List ResolvedEntity × Dependencies}
    (hschema : ∀ e ∈ entities, ∀ attr ∈ e.candidate.attrs, db'.attr? attr = db.attr? attr)
    (habsent : ∀ e ∈ entities, db'.eid e.id = none) (hhold : r.2.Hold db')
    (h : resolveSelection db entities = .ok r) : resolveSelection db' entities = .ok r := by
  obtain ⟨u, hinput, h⟩ := bind_eq_ok.mp h
  obtain ⟨u₁, hfree, h⟩ := bind_eq_ok.mp h
  obtain ⟨u₂, hcodomains, h⟩ := bind_eq_ok.mp h
  obtain ⟨s, hs, h⟩ := bind_eq_ok.mp h
  cases h
  have hextends {l : List Planned} {s t : Progress}
      (ht : l.foldlM (resolveEntity db (plan entities)) s = .ok t) :
      s.dependencies.Extends t.dependencies :=
    foldlM_climbs (fun s t ↦ s.dependencies.Extends t.dependencies)
      (fun s ↦ ⟨rfl, List.Subset.refl _, List.Subset.refl _⟩)
      (fun _ _ _ h₁ h₂ ↦ ⟨h₂.codomains.trans h₁.codomains,
        List.Subset.trans h₁.external h₂.external, List.Subset.trans h₁.unique h₂.unique⟩)
      (fun _ _ _ _ ht ↦ resolveEntity_extends ht) ht
  have hfold : (plan entities).foldlM (resolveEntity db' (plan entities))
      ⟨[], [], ⟨codomains entities, [], []⟩⟩ = .ok s := by
    refine foldlM_replays (fun s t ↦ s.dependencies.Extends t.dependencies)
      (fun s ↦ ⟨rfl, List.Subset.refl _, List.Subset.refl _⟩)
      (fun _ _ _ h₁ h₂ ↦ ⟨h₂.codomains.trans h₁.codomains,
        List.Subset.trans h₁.external h₂.external, List.Subset.trans h₁.unique h₂.unique⟩)
      (fun _ _ _ _ ht ↦ resolveEntity_extends ht) (fun p hp s' t' ht hle ↦ ?_) hs
    refine resolveEntity_replays (hschema _ (mem_plan hp)) ?_ ht
    exact ⟨fun id hid ↦ hhold.codomains id (hle.codomains ▸ hid),
      fun x hx ↦ hhold.external x (hle.external hx), fun u hu ↦ hhold.unique u (hle.unique hu)⟩
  have hcodomains' : ∀ id ∈ codomains entities, isCodomain db' id := by
    intro id hid
    exact hhold.codomains id ((hextends hs).codomains ▸ hid)
  refine bind_eq_ok.mpr ⟨u, (input_congr hschema).trans hinput, ?_⟩
  refine bind_eq_ok.mpr ⟨(), require_eq_ok.mpr fun p hp ↦ habsent _ (mem_plan hp), ?_⟩
  refine bind_eq_ok.mpr ⟨(), require_eq_ok.mpr hcodomains', ?_⟩
  exact bind_eq_ok.mpr ⟨s, hfold, rfl⟩

end Simmis.Documents.Constraints
