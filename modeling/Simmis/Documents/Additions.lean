import Simmis.Documents.Selections
import Simmis.Library.Lists

/-!
# A resolved selection in its database

The entities of a resolved selection as the facts that they add to the database from which they were
resolved. No unique value is held twice, no entity of the database is met, and every reference
leads to an entity of its type.
-/

namespace Simmis.Documents.Constraints

open List Option Maps Properties Value Db Lists

/-- Entity ids are positive, an entity has one UUID, and roles are shared. -/
structure Coherent (db : Db) : Prop where
  positive : ∀ d ∈ db.datoms, 0 < d.e
  uuid : ∀ d ∈ db.datoms, ∀ d' ∈ db.datoms, d.a = entityUuid → d'.a = entityUuid → d.e = d'.e →
    d.v = d'.v
  roles : (db.attr? instanceOfRole).bind AttrSchema.unique = none

/-- A candidate of a decoder, without the attributes of the identity and the roles. -/
structure Entity.Decoded (e : Entity) : Prop where
  uuid : e.id < 2 ^ 128
  isMap : e.IsMap
  ordinary : ∀ attr ∈ e.candidate.attrs, attr ≠ entityUuid ∧ attr ≠ instanceOfRole

variable (db : Db) (alloc : ℤ → ℤ)

/-- Temporary ids get ids that the database does not have. -/
structure Fresh : Prop where
  new : ∀ t < 0, ∀ d ∈ db.datoms, d.e ≠ alloc t ∧ d.v ≠ .ref (alloc t)
  injective : ∀ t < 0, ∀ u < 0, alloc t = alloc u → t = u

def isRefAttr (attr : Keyword) : Bool := (db.attr? attr).any fun a ↦ a.valueType = .ref

def isUniqueAttr (attr : Keyword) : Bool := ((db.attr? attr).bind AttrSchema.unique).isSome

/-- A value with its temporary id replaced. -/
def place : Value → Value
  | .ref e => .ref (if e < 0 then alloc e else e)
  | v => v

/-- The datoms of a resolved entity. -/
def facts (e : ResolvedEntity) : List Datom :=
  ⟨alloc e.tempid, entityUuid, .uuid e.id⟩ ::
    ((e.types.filterMap db.eid).map fun t ↦ ⟨alloc e.tempid, instanceOfRole, .ref t⟩) ++
      e.values.flatMap fun q ↦ q.2.items.map fun v ↦
        ⟨alloc e.tempid, q.1, if isRefAttr db q.1 then place alloc v else v⟩

def added (resolved : List ResolvedEntity) : Db :=
  { db with datoms := db.datoms ++ resolved.flatMap (facts db alloc) }

variable {db alloc} {table : List Planned}

variable {e : ResolvedEntity}

theorem facts_e {d : Datom} (hd : d ∈ facts db alloc e) : d.e = alloc e.tempid := by
  simp only [facts, List.cons_append, List.mem_cons, List.mem_append, List.mem_map,
    mem_flatMap] at hd
  obtain rfl | ⟨t, -, rfl⟩ | ⟨q, -, v, -, rfl⟩ := hd <;> rfl

variable {id : Uuid}

theorem eid_mem {e : ℤ} (h : db.eid id = some e) : ⟨e, entityUuid, .uuid id⟩ ∈ db.datoms := by
  obtain ⟨d, hd, rfl⟩ := map_eq_some_iff.mp h
  have hmem := mem_of_head? hd
  simp only [avet, aevt, mem_filter, decide_eq_true_eq] at hmem
  obtain ⟨⟨hdatom, ha⟩, hv⟩ := hmem
  rw [← ha, ← hv]
  exact hdatom

theorem eid_eq_none (h : db.eid id = none) {d : Datom} (hd : d ∈ db.datoms)
    (ha : d.a = entityUuid) : d.v ≠ .uuid id := by
  intro hv
  have hempty : db.avet entityUuid (.uuid id) = [] := by
    simpa [eid] using h
  have hmem : d ∈ db.avet entityUuid (.uuid id) := by
    simp [avet, aevt, hd, ha, hv]
  rw [hempty] at hmem
  cases hmem

/-- The entity of a UUID is the one entity that has it. -/
theorem eid_eq_some {e : ℤ} (hmem : ⟨e, entityUuid, .uuid id⟩ ∈ db.datoms)
    (honly : ∀ d ∈ db.datoms, d.a = entityUuid → d.v = .uuid id → d.e = e) :
    db.eid id = some e := by
  cases heid : db.eid id with
  | none => exact absurd rfl (eid_eq_none heid hmem rfl)
  | some e' => rw [← honly _ (eid_mem heid) rfl rfl]

theorem eid_added (resolved : List ResolvedEntity) (id : Uuid) : (added db alloc resolved).eid id =
      (db.eid id).or (eid ⟨db.schema, resolved.flatMap (facts db alloc)⟩ id) := by
  simp [added, eid, avet, aevt, head?_append, map_or]

/-- A unique value as it stands in the datoms. -/
inductive Represents (db : Db) (table : List Planned) (alloc : ℤ → ℤ) : UniqueValue → Value → Prop
  | scalar (attr : Keyword) (v : Value) (href : isRefAttr db attr = false) :
    Represents db table alloc ⟨attr, v, some v, false⟩ v
  | planned (attr : Keyword) (id : Uuid) (p : Planned) (href : isRefAttr db attr = true)
    (hp : planned? table id = some p) :
    Represents db table alloc ⟨attr, .uuid id, none, true⟩ (.ref (alloc p.tempid))
  | external (attr : Keyword) (id : Uuid) (e : ℤ) (href : isRefAttr db attr = true)
    (hnone : planned? table id = none) (he : db.eid id = some e) :
    Represents db table alloc ⟨attr, .uuid id, some (.ref e), false⟩ (.ref e)

theorem represents_scalar {attr : Keyword} (href : isRefAttr db attr = false) (v : Value) :
    Represents db table alloc (uniqueValue db table attr false v) v :=
  .scalar attr v href

variable {codomain : Uuid}

theorem place_targetValue (alloc : ℤ → ℤ) (hdb : Coherent db) (htempids : ∀ p ∈ table, p.tempid < 0)
    (hreaches : Reaches db table codomain id) : (∃ p, planned? table id = some p ∧
      place alloc (targetValue db table id) = .ref (alloc p.tempid)) ∨
    ∃ e, planned? table id = none ∧ db.eid id = some e ∧
      place alloc (targetValue db table id) = .ref e := by
  unfold Reaches at hreaches
  cases hplanned : planned? table id with
  | some planned =>
    have htempid := htempids planned (mem_of_find?_eq_some hplanned)
    exact .inl ⟨planned, rfl, by simp [targetValue, hplanned, place, htempid]⟩
  | none =>
    rw [hplanned] at hreaches
    obtain ⟨e, he, -⟩ := hreaches
    have hpositive : ¬ e < 0 := not_lt.mpr (hdb.positive _ (eid_mem he)).le
    exact .inr ⟨e, rfl, he, by simp [targetValue, hplanned, he, place, hpositive]⟩

theorem represents_target (hdb : Coherent db) (htempids : ∀ p ∈ table, p.tempid < 0)
    {attr : Keyword} (href : isRefAttr db attr) (hreaches : Reaches db table codomain id) :
    Represents db table alloc (uniqueValue db table attr true (.uuid id))
      (place alloc (targetValue db table id)) := by
  obtain ⟨p, hplanned, hplace⟩ | ⟨e, hnone, he, hplace⟩ :=
    place_targetValue alloc hdb htempids hreaches
  · have hvalue : uniqueValue db table attr true (.uuid id) = ⟨attr, .uuid id, none, true⟩ := by
      simp [uniqueValue, uuid?, hplanned]
    rw [hvalue, hplace]
    exact .planned attr id p href hplanned
  · have hvalue : uniqueValue db table attr true (.uuid id) =
        ⟨attr, .uuid id, some (.ref e), false⟩ := by
      simp [uniqueValue, uuid?, hnone, he]
    rw [hvalue, hplace]
    exact .external attr id e href hnone he

variable {p : Planned} {r : Resolved} {v : Value}

/-- Every value of a unique attribute is claimed. -/
theorem claimed_value (hdb : Coherent db)
    (htempids : ∀ p ∈ table, p.tempid < 0) (hr : Checked db table p.candidate r)
    {q : Keyword × Stored} (hq : q ∈ r.values) (hunique : isUniqueAttr db q.1)
    (hv : v ∈ q.2.items) : ∃ x ∈ claimedBy db table p, x.1 = p.id ∧ x.2.attr = q.1 ∧
      Represents db table alloc x.2 (if isRefAttr db q.1 then place alloc v else v) := by
  obtain ⟨c, hc, hattr⟩ := hr.claimed q hq hunique
  have hfits := hr.fits c hc
  have hfresh : (r.values.map (·.1)).Nodup := by
    rw [hr.exact.values]
    exact hr.exact.fresh
  have href : isRefAttr db q.1 = c.isReference := by
    rw [hfits.reference, hattr]
    rfl
  have hmem (value : Value) (hvalue : value ∈ c.items) :
      (p.id, uniqueValue db table c.attr c.isReference value) ∈ claimedBy db table p :=
    mem_flatMap.mpr ⟨c, hc, mem_map.mpr ⟨value, hvalue, rfl⟩⟩
  have hitems := hfits.items
  cases hreference : c.isReference with
  | false =>
    rw [hreference] at hmem hitems href
    rw [if_neg Bool.false_ne_true, hattr, get?_of_mem hfresh hq] at hitems
    refine ⟨_, hmem v (some.inj hitems ▸ hv), rfl, hattr, ?_⟩
    rw [href, if_neg Bool.false_ne_true, hattr]
    exact represents_scalar href v
  | true =>
    rw [hreference] at hmem hitems href
    obtain ⟨ids, hids, hitems⟩ := map_eq_some_iff.mp hitems
    have hlogical := mem_of_get? hids
    rw [hr.exact.logical] at hlogical
    obtain ⟨cr, hcr, hpair⟩ := mem_map.mp hlogical
    obtain ⟨hcrattr, rfl⟩ := Prod.mk.inj hpair
    have hstored : (cr.attr, cr.stored db table) ∈ r.values := by
      rw [hr.exact.values]
      exact mem_append_right _ (mem_map_of_mem hcr)
    have hsame : q.2 = cr.stored db table := by
      have hget := get?_of_mem hfresh hstored
      rw [hcrattr, hattr, get?_of_mem hfresh hq] at hget
      exact some.inj hget
    rw [hsame, (hr.exact.fits cr hcr).items] at hv
    obtain ⟨id, hid, rfl⟩ := mem_map.mp hv
    refine ⟨_, hmem (.uuid id) (hitems ▸ mem_map_of_mem hid), rfl, hattr, ?_⟩
    rw [href, if_pos rfl, hattr]
    exact represents_target hdb htempids href (hr.exact.reaches cr hcr id hid)

/-- Equal values of one attribute are the same unique value. -/
theorem Represents.same (hdb : Coherent db) (hfresh : Fresh db alloc)
    (htempids : ∀ p ∈ table, p.tempid < 0)
    (hdistinct : ∀ p ∈ table, ∀ q ∈ table, p.tempid = q.tempid → p = q) {u u' : UniqueValue}
    (h : Represents db table alloc u v) (h' : Represents db table alloc u' v)
    (hattr : u.attr = u'.attr) : u.logicalValue = u'.logicalValue := by
  have hplanned {id : Uuid} {p : Planned} (hp : planned? table id = some p) :
      p ∈ table ∧ p.id = id :=
    ⟨mem_of_find?_eq_some hp, by simpa using find?_some hp⟩
  have hnew {id : Uuid} {e : ℤ} (he : db.eid id = some e) {p : Planned} (hp : p ∈ table) :
      alloc p.tempid ≠ e :=
    fun hsame ↦ (hfresh.new _ (htempids p hp) _ (eid_mem he)).1 hsame.symm
  have hkinds {attr attr' : Keyword} {goal : Prop} (hsame : attr = attr')
      (hscalar : isRefAttr db attr = false) (href : isRefAttr db attr') : goal := by
    rw [hsame, href] at hscalar
    cases hscalar
  cases h with
  | scalar attr v href =>
    cases h' with
    | scalar => rfl
    | planned attr' id p href' => exact hkinds hattr href href'
    | external attr' id e href' => exact hkinds hattr href href'
  | planned attr id p href hp =>
    generalize hv : ref (alloc p.tempid) = v at h'
    cases h' with
    | scalar attr' v href' => exact hkinds hattr.symm href' href
    | planned attr' id' p' _ hp' =>
      have hsame := hfresh.injective _ (htempids p (hplanned hp).1) _ (htempids p' (hplanned hp').1)
        (ref.inj hv)
      rw [← (hplanned hp).2, ← (hplanned hp').2,
        hdistinct p (hplanned hp).1 p' (hplanned hp').1 hsame]
    | external attr' id' e _ _ he => exact absurd (ref.inj hv) (hnew he (hplanned hp).1)
  | external attr id e href hnone he =>
    generalize hv : ref e = v at h'
    cases h' with
    | scalar attr' v href' => exact hkinds hattr.symm href' href
    | planned attr' id' p' _ hp' =>
      exact absurd (ref.inj hv).symm (hnew he (hplanned hp').1)
    | external attr' id' e' _ _ he' =>
      exact hdb.uuid _ (eid_mem he) _ (eid_mem he') rfl rfl (ref.inj hv)

/-- The database does not hold a unique value that is free in it. -/
theorem Represents.free (hfresh : Fresh db alloc) (htempids : ∀ p ∈ table, p.tempid < 0)
    {u : UniqueValue} (h : Represents db table alloc u v) (hfree : u.plannedTarget ∨
      u.baseValue.any (fun base ↦ (db.avet u.attr base).isEmpty))
    {d : Datom} (hd : d ∈ db.datoms) (hattr : d.a = u.attr) : d.v ≠ v := by
  have hheld {base : Value} (hbase : (db.avet u.attr base).isEmpty) : d.v ≠ base := by
    intro hv
    have hmem : d ∈ db.avet u.attr base := by simp [avet, aevt, hd, hattr, hv]
    rw [isEmpty_iff.mp hbase] at hmem
    cases hmem
  cases h with
  | scalar attr v => exact hheld (by simpa using hfree)
  | planned attr id p href hp =>
    exact (hfresh.new _ (htempids p (mem_of_find?_eq_some hp)) d hd).2
  | external attr id e => exact hheld (by simpa using hfree)

theorem Checked.attrs {candidate : Candidate} (hr : Checked db table candidate r)
    {q : Keyword × Stored} (hq : q ∈ r.values) : q.1 ∈ candidate.attrs := by
  rw [hr.exact.values] at hq
  obtain hbase | hclaim := mem_append.mp hq
  · exact mem_append_left _ (mem_map_of_mem hbase)
  · obtain ⟨c, hc, rfl⟩ := mem_map.mp hclaim
    exact references_attr hc

theorem identity_fact (hdecoded : p.toEntity.Decoded)
    (hr : Checked db table p.candidate r) {d : Datom}
    (hd : d ∈ facts db alloc ⟨p.id, p.types, p.tempid, r.values⟩) (ha : d.a = entityUuid) :
    d.v = .uuid p.id := by
  simp only [facts, List.cons_append, List.mem_cons, List.mem_append, List.mem_map,
    mem_flatMap] at hd
  obtain rfl | ⟨t, -, rfl⟩ | ⟨q, hq, v, -, rfl⟩ := hd
  · rfl
  · exact absurd ha (show instanceOfRole ≠ entityUuid by decide)
  · exact absurd ha (hdecoded.ordinary _ (hr.attrs hq)).1

/-- A fact of a unique attribute: an identity, or a value that an entity claims. -/
theorem unique_fact (hdb : Coherent db)
    (htempids : ∀ p ∈ table, p.tempid < 0) (hdecoded : p.toEntity.Decoded)
    (hr : Checked db table p.candidate r) {d : Datom}
    (hd : d ∈ facts db alloc ⟨p.id, p.types, p.tempid, r.values⟩) (hunique : isUniqueAttr db d.a) :
    d.a = entityUuid ∧ d.v = .uuid p.id ∨ d.a ≠ entityUuid ∧ ∃ x ∈ claimedBy db table p,
      x.1 = p.id ∧ x.2.attr = d.a ∧ Represents db table alloc x.2 d.v := by
  simp only [facts, List.cons_append, List.mem_cons, List.mem_append, List.mem_map,
    mem_flatMap] at hd
  obtain rfl | ⟨t, -, rfl⟩ | ⟨q, hq, v, hv, rfl⟩ := hd
  · exact .inl ⟨rfl, rfl⟩
  · rw [isUniqueAttr, hdb.roles] at hunique
    cases hunique
  · have hordinary := hdecoded.ordinary _ (hr.attrs hq)
    exact .inr ⟨hordinary.1, claimed_value hdb htempids hr hq hunique hv⟩

/-- What a resolved selection is in the database to which it is added. -/
structure RightlyAdded (db : Db) (alloc : ℤ → ℤ) (entities : List Entity)
    (resolved : List ResolvedEntity) : Prop where
  /-- No two entities come to have one value of a unique attribute. -/
  unique : ∀ d ∈ (added db alloc resolved).datoms, ∀ d' ∈ (added db alloc resolved).datoms,
    d.a = d'.a → d.v = d'.v → isUniqueAttr db d.a = true → d.e ≠ d'.e →
      d ∈ db.datoms ∧ d' ∈ db.datoms
  /-- No entity of the database has an identity, or any other unique value, of a new one. -/
  untouched : ∀ e ∈ resolved, db.eid e.id = none ∧ db.eavt (alloc e.tempid) = [] ∧
    ∀ d ∈ facts db alloc e, isUniqueAttr db d.a = true → db.avet d.a d.v = []
  /-- Every candidate has its entity, with its values and the targets of its references. -/
  references : ∀ entity ∈ entities, ∃ e ∈ resolved, e.id = entity.id ∧ e.types = entity.types ∧
    (∀ q ∈ entity.candidate.candidateValues, q ∈ e.values) ∧
    ∀ c ∈ references entity.candidate.claims, ∃ stored, (c.attr, stored) ∈ e.values ∧
      List.Forall₂ (fun id v ↦ ∃ y, place alloc v = .ref y ∧
        (added db alloc resolved).eid id = some y ∧
        role (added db alloc resolved) y c.codomain = true) c.targets stored.items

/-- Targets and unique values are recorded once, and nobody shares the latter. -/
structure Accounted (db : Db) (entities : List Entity) (d : Dependencies) : Prop where
  targets : ∀ x, x ∈ d.externalTargets ↔ ∃ e ∈ entities, ∃ c ∈ references e.candidate.claims,
    x.uuid ∈ c.targets ∧ x.uuid ∉ entities.map Entity.id ∧ db.eid x.uuid = some x.eid ∧
      x.codomain = c.codomain
  values : ∀ u, u ∈ d.uniqueValues ↔ ∃ e ∈ entities, ∃ c ∈ uniqueClaims e.candidate.claims,
    ∃ value ∈ c.items, u = uniqueValue db (plan entities) c.attr c.isReference value
  once : d.externalTargets.Nodup ∧ d.uniqueValues.Nodup
  owner : ∀ e ∈ entities, ∀ e' ∈ entities, ∀ c ∈ uniqueClaims e.candidate.claims,
    ∀ c' ∈ uniqueClaims e'.candidate.claims, ∀ value ∈ c.items, value ∈ c'.items →
      c.attr = c'.attr → e = e'

section

variable {entities : List Entity} {resolved : List ResolvedEntity} {d : Dependencies}
  {seen : List ((Keyword × Value) × Uuid)}

/-- Two planned entities that claim one unique value are one. -/
theorem owner_unique (hnodup : (entities.map Entity.id).Nodup)
    (hexact : Progress.Exact db (plan entities) (plan entities) ⟨resolved, seen, d⟩)
    {q : Planned} (hp : p ∈ plan entities) (hq : q ∈ plan entities) {x y : Uuid × UniqueValue}
    (hx : x ∈ claimedBy db (plan entities) p) (hy : y ∈ claimedBy db (plan entities) q)
    (hxp : x.1 = p.id) (hyq : y.1 = q.id) (hattr : x.2.attr = y.2.attr)
    (hvalue : x.2.logicalValue = y.2.logicalValue) : p = q := by
  have hpseen := (hexact.seen (x.2.attr, x.2.logicalValue) p.id).mpr
    ⟨x, mem_flatMap.mpr ⟨p, hp, hx⟩, hxp, rfl⟩
  have hqseen := (hexact.seen (x.2.attr, x.2.logicalValue) q.id).mpr
    ⟨y, mem_flatMap.mpr ⟨q, hq, hy⟩, hyq, by rw [hattr, hvalue]⟩
  have hid : p.id = q.id := some.inj (hpseen.symm.trans hqseen)
  have hfound := planned?_of_mem hnodup hp
  rw [hid, planned?_of_mem hnodup hq] at hfound
  exact (some.inj hfound).symm

theorem of_mem_resolved
    (hexact : Progress.Exact db (plan entities) (plan entities) ⟨resolved, seen, d⟩)
    (he : e ∈ resolved) : ∃ p ∈ plan entities, ∃ r,
      Checked db (plan entities) p.candidate r ∧ e = ⟨p.id, p.types, p.tempid, r.values⟩ :=
  forall₂_right hexact.entities he

theorem accounted (hnodup : (entities.map Entity.id).Nodup)
    (hexact : Progress.Exact db (plan entities) (plan entities) ⟨resolved, seen, d⟩) :
    Accounted db entities d := by
  have hplanned (id : Uuid) : planned? (plan entities) id = none ↔ id ∉ entities.map Entity.id := by
    constructor
    · intro hnone hid
      obtain ⟨e, he, rfl⟩ := mem_map.mp hid
      obtain ⟨p, hp, rfl⟩ := mem_plan_of_mem he
      rw [planned?_of_mem hnodup hp] at hnone
      cases hnone
    · intro hid
      refine find?_eq_none.mpr fun p hp hsame ↦ hid ?_
      exact mem_map.mpr ⟨p.toEntity, mem_plan hp, by simpa using hsame⟩
  refine ⟨fun x ↦ ?_, fun u ↦ ?_, hexact.once, ?_⟩
  · rw [hexact.external]
    constructor
    · rintro ⟨p, hp, c, hc, id, hid, hx⟩
      unfold targetExternal at hx
      split at hx
      · cases hx
      · next hnone =>
        obtain ⟨e, he, rfl⟩ := map_eq_some_iff.mp hx
        exact ⟨p.toEntity, mem_plan hp, c, hc, hid, (hplanned id).mp hnone, he, rfl⟩
    · rintro ⟨e, he, c, hc, hid, hout, heid, hcodomain⟩
      obtain ⟨p, hp, rfl⟩ := mem_plan_of_mem he
      refine ⟨p, hp, c, hc, x.uuid, hid, ?_⟩
      unfold targetExternal
      rw [(hplanned x.uuid).mpr hout, heid, ← hcodomain]
      rfl
  · rw [hexact.unique]
    constructor
    · rintro ⟨y, hy, rfl⟩
      obtain ⟨p, hp, hy⟩ := mem_flatMap.mp hy
      obtain ⟨c, hc, hy⟩ := mem_flatMap.mp hy
      obtain ⟨value, hvalue, rfl⟩ := mem_map.mp hy
      exact ⟨p.toEntity, mem_plan hp, c, hc, value, hvalue, rfl⟩
    · rintro ⟨e, he, c, hc, value, hvalue, rfl⟩
      obtain ⟨p, hp, rfl⟩ := mem_plan_of_mem he
      refine ⟨(p.id, uniqueValue db (plan entities) c.attr c.isReference value), ?_, rfl⟩
      refine mem_flatMap.mpr ⟨p, hp, mem_flatMap.mpr ⟨c, hc, ?_⟩⟩
      exact mem_map.mpr ⟨value, hvalue, rfl⟩
  · intro e he e' he' c hc c' hc' value hvalue hvalue' hattr
    obtain ⟨p, hp, rfl⟩ := mem_plan_of_mem he
    obtain ⟨q, hq, rfl⟩ := mem_plan_of_mem he'
    have hclaimed {p : Planned} {c : UniqueClaim} (hc : c ∈ uniqueClaims p.candidate.claims)
        (hvalue : value ∈ c.items) :
        (p.id, uniqueValue db (plan entities) c.attr c.isReference value) ∈
          claimedBy db (plan entities) p :=
      mem_flatMap.mpr ⟨c, hc, mem_map.mpr ⟨value, hvalue, rfl⟩⟩
    rw [owner_unique hnodup hexact hp hq (hclaimed hc hvalue) (hclaimed hc' hvalue') rfl rfl hattr
      rfl]

variable (hdb : Coherent db) (hfresh : Fresh db alloc) (hdecoded : ∀ e ∈ entities, e.Decoded)
  (hnodup : (entities.map Entity.id).Nodup) (habsent : ∀ e ∈ entities, db.eid e.id = none)
  (hexact : Progress.Exact db (plan entities) (plan entities) ⟨resolved, seen, d⟩)
  (hhold : d.Hold db)

include hdb hfresh hdecoded habsent hexact hhold

/-- The database does not hold a unique value of a new entity. -/
theorem new_of_old (he : e ∈ resolved) {x : Datom}
    (hx : x ∈ facts db alloc e) (hunique : isUniqueAttr db x.a) {y : Datom}
    (hy : y ∈ db.datoms) (hattr : y.a = x.a) : y.v ≠ x.v := by
  obtain ⟨p, hp, r, hr, rfl⟩ := of_mem_resolved hexact he
  obtain ⟨ha, hv⟩ | ⟨-, u, hu, -, hua, hrepresents⟩ := unique_fact hdb
    (fun p hp ↦ plan_tempid hp) (hdecoded _ (mem_plan hp)) hr hx hunique
  · rw [hv]
    exact eid_eq_none (habsent _ (mem_plan hp)) hy (hattr.trans ha)
  · have hfree := hhold.unique u.2
      ((hexact.unique u.2).mpr ⟨u, mem_flatMap.mpr ⟨p, hp, hu⟩, rfl⟩)
    exact hrepresents.free hfresh (fun p hp ↦ plan_tempid hp) hfree hy (hattr.trans hua.symm)

omit habsent hhold in
include hnodup in
/-- Two new facts with one unique value are of one entity. -/
theorem new_of_new {e' : ResolvedEntity} (he : e ∈ resolved) (he' : e' ∈ resolved) {x y : Datom}
    (hx : x ∈ facts db alloc e) (hy : y ∈ facts db alloc e')
    (hunique : isUniqueAttr db x.a) (hattr : x.a = y.a) (hvalue : x.v = y.v) : x.e = y.e := by
  obtain ⟨p, hp, r, hr, rfl⟩ := of_mem_resolved hexact he
  obtain ⟨q, hq, r', hr', rfl⟩ := of_mem_resolved hexact he'
  have hsame : p = q := by
    obtain ⟨hxa, hxv⟩ | ⟨hxa, u, hu, hup, hua, hrepresents⟩ := unique_fact hdb
      (fun p hp ↦ plan_tempid hp) (hdecoded _ (mem_plan hp)) hr hx hunique
    · obtain ⟨-, hyv⟩ | ⟨hya, -⟩ := unique_fact hdb (fun p hp ↦ plan_tempid hp)
        (hdecoded _ (mem_plan hq)) hr' hy (hattr ▸ hunique)
      · have hid : p.id = q.id := uuid.inj (hxv.symm.trans (hvalue.trans hyv))
        have hfound := planned?_of_mem hnodup hp
        rw [hid, planned?_of_mem hnodup hq] at hfound
        exact (some.inj hfound).symm
      · exact absurd (hattr ▸ hxa) hya
    · obtain ⟨hya, -⟩ | ⟨-, w, hw, hwq, hwa, hrepresents'⟩ := unique_fact hdb
        (fun p hp ↦ plan_tempid hp) (hdecoded _ (mem_plan hq)) hr' hy (hattr ▸ hunique)
      · exact absurd (hattr.trans hya) hxa
      · have huw : u.2.attr = w.2.attr := hua.trans (hattr.trans hwa.symm)
        rw [hvalue] at hrepresents
        exact owner_unique hnodup hexact hp hq hu hw hup hwq huw
          (hrepresents.same hdb hfresh (fun p hp ↦ plan_tempid hp)
            (fun p hp q hq ↦ plan_tempid_injective hp hq) hrepresents' huw)
  rw [facts_e hx, facts_e hy, hsame]

omit hdb hfresh hhold in
include hnodup in
/-- A planned entity is the one that has its UUID afterwards. -/
theorem eid_of_planned (hp : p ∈ plan entities) :
    (added db alloc resolved).eid p.id = some (alloc p.tempid) := by
  obtain ⟨e, he, r, -, rfl⟩ := forall₂_left hexact.entities hp
  rw [eid_added, habsent _ (mem_plan hp), none_or]
  refine eid_eq_some (mem_flatMap.mpr ⟨_, he, mem_cons_self ..⟩) fun x hx ha hv ↦ ?_
  obtain ⟨e', he', hx⟩ := mem_flatMap.mp hx
  obtain ⟨q, hq, r', hr', rfl⟩ := of_mem_resolved hexact he'
  have hid : p.id = q.id := by
    rw [identity_fact (hdecoded _ (mem_plan hq)) hr' hx ha] at hv
    exact (uuid.inj hv).symm
  have hfound := planned?_of_mem hnodup hp
  rw [hid, planned?_of_mem hnodup hq] at hfound
  rw [facts_e hx, some.inj hfound]

omit hdecoded hexact hhold habsent hfresh hdb in
theorem eid_of_old {e : ℤ} (he : db.eid id = some e) :
    (added db alloc resolved).eid id = some e := by
  rw [eid_added, he, some_or]

omit hfresh hhold in
include hnodup in
/-- A target of a claim is there afterwards, and of its type. -/
theorem target_added
    (hcodomain : ∃ t, db.eid codomain = some t) (hreaches : Reaches db (plan entities) codomain id) :
    ∃ y, place alloc (targetValue db (plan entities) id) = .ref y ∧
      (added db alloc resolved).eid id = some y ∧ role (added db alloc resolved) y codomain := by
  obtain ⟨t, ht⟩ := hcodomain
  have hrole {y : ℤ} (hmem : ⟨y, instanceOfRole, .ref t⟩ ∈ (added db alloc resolved).datoms) :
      role (added db alloc resolved) y codomain := by
    unfold role
    rw [eid_of_old ht]
    simpa [holds] using hmem
  obtain ⟨q, hplanned, hplace⟩ | ⟨e, hnone, he, hplace⟩ :=
    place_targetValue alloc hdb (fun p hp ↦ plan_tempid hp) hreaches
  · have hq : q ∈ plan entities := mem_of_find?_eq_some hplanned
    have hid : q.id = id := by simpa using find?_some hplanned
    obtain ⟨e, he, r, -, rfl⟩ := forall₂_left hexact.entities hq
    refine ⟨_, hplace, hid ▸ eid_of_planned hdecoded hnodup habsent hexact hq, hrole ?_⟩
    unfold Reaches at hreaches
    rw [hplanned] at hreaches
    refine mem_append_right _ (mem_flatMap.mpr ⟨_, he, ?_⟩)
    refine mem_append_left _ (mem_cons_of_mem _ (mem_map.mpr ⟨t, ?_, rfl⟩))
    exact mem_filterMap.mpr ⟨codomain, hreaches, ht⟩
  · unfold Reaches at hreaches
    rw [hnone] at hreaches
    obtain ⟨e', he', hold⟩ := hreaches
    rw [he] at he'
    cases he'
    refine ⟨e, hplace, eid_of_old he, hrole (mem_append_left _ ?_)⟩
    unfold role at hold
    rw [ht] at hold
    simpa [holds] using hold

include hnodup in
theorem rightlyAdded (hcodomains : ∀ id ∈ codomains entities, isCodomain db id) :
    RightlyAdded db alloc entities resolved := by
  have hsplit {x : Datom} (hx : x ∈ (added db alloc resolved).datoms) :
      x ∈ db.datoms ∨ ∃ e ∈ resolved, x ∈ facts db alloc e :=
    (mem_append.mp hx).imp_right mem_flatMap.mp
  constructor
  · intro x hx y hy hattr hvalue hunique hne
    obtain hx | ⟨e, he, hx⟩ := hsplit hx <;> obtain hy | ⟨e', he', hy⟩ := hsplit hy
    · exact ⟨hx, hy⟩
    · exact absurd hvalue (new_of_old hdb hfresh hdecoded habsent hexact hhold he' hy
        (hattr ▸ hunique) hx hattr)
    · exact absurd hvalue.symm (new_of_old hdb hfresh hdecoded habsent hexact hhold he hx hunique
        hy hattr.symm)
    · exact absurd (new_of_new hdb hfresh hdecoded hnodup hexact he he' hx hy hunique hattr hvalue)
        hne
  · intro e he
    obtain ⟨p, hp, r, hr, hep⟩ := of_mem_resolved hexact he
    refine ⟨?_, ?_, fun x hx hunique ↦ ?_⟩
    · rw [hep]
      exact habsent _ (mem_plan hp)
    · refine filter_eq_nil_iff.mpr fun x hx hsame ↦ ?_
      rw [hep] at hsame
      exact (hfresh.new _ (plan_tempid hp) x hx).1 (by simpa using hsame)
    · refine filter_eq_nil_iff.mpr fun y hy hsame ↦ ?_
      obtain ⟨hy, hattr⟩ := mem_filter.mp hy
      exact new_of_old hdb hfresh hdecoded habsent hexact hhold he hx hunique hy
        (by simpa using hattr) (by simpa using hsame)
  · intro entity hentity
    obtain ⟨p, hp, rfl⟩ := mem_plan_of_mem hentity
    obtain ⟨e, he, r, hr, rfl⟩ := forall₂_left hexact.entities hp
    have hvalues := hr.exact.values
    refine ⟨_, he, rfl, rfl, fun q hq ↦ ?_, fun c hc ↦ ⟨c.stored db (plan entities), ?_, ?_⟩⟩
    · exact hvalues ▸ mem_append_left _ hq
    · exact hvalues ▸ mem_append_right _ (mem_map_of_mem hc)
    · rw [(hr.exact.fits c hc).items, forall₂_map_right_iff]
      refine forall₂_same.mpr fun id hid ↦ ?_
      have hcodomain := hcodomains c.codomain (mem_dedup.mpr
        (mem_flatMap.mpr ⟨p.toEntity, hentity, mem_map_of_mem hc⟩))
      refine target_added hdb hdecoded hnodup habsent hexact ?_ (hr.exact.reaches c hc id hid)
      unfold isCodomain at hcodomain
      split at hcodomain
      · next t _ ht _ => exact ⟨t, ht⟩
      · cases hcodomain

end

/-- Both resolve, to the same entities with the same answers, or neither does. -/
def SameResolution (x y : Except Error (List ResolvedEntity × Dependencies)) : Prop :=
  match x, y with
  | .ok r, .ok r' => r.1 = r'.1 ∧ r.2.codomains.Perm r'.2.codomains ∧
      r.2.externalTargets = r'.2.externalTargets ∧ r.2.uniqueValues = r'.2.uniqueValues
  | .error _, .error _ => True
  | _, _ => False

theorem resolveSelection_codomains {entities : List Entity}
    {r : List ResolvedEntity × Dependencies} (h : resolveSelection db entities = .ok r) :
    r.2.codomains = codomains entities := by
  obtain ⟨_, -, h⟩ := bind_eq_ok.mp h
  obtain ⟨_, -, h⟩ := bind_eq_ok.mp h
  obtain ⟨_, -, h⟩ := bind_eq_ok.mp h
  obtain ⟨s, hs, h⟩ := bind_eq_ok.mp h
  cases h
  exact foldlM_keeps (p := fun s ↦ s.dependencies.codomains = codomains entities)
    (fun _ _ _ _ hs ht ↦ (resolveEntity_extends ht).codomains.trans hs) rfl hs

theorem sameResolution {entities others : List Entity} (huuids : AreUuids entities)
    (hperm : entities.Perm others) :
    SameResolution (resolveSelection db entities) (resolveSelection db others) := by
  cases hresolved : resolveSelection db entities with
  | ok r =>
    rw [resolveSelection_perm huuids hperm hresolved]
    refine ⟨rfl, ?_, rfl, rfl⟩
    rw [resolveSelection_codomains hresolved]
    exact codomains_perm hperm
  | error e =>
    cases hother : resolveSelection db others with
    | error e' => trivial
    | ok r =>
      have huuids' : AreUuids others := fun e he ↦ huuids e (hperm.mem_iff.mpr he)
      rw [resolveSelection_perm huuids' hperm.symm hother] at hresolved
      cases hresolved

/-- A selection resolves in every order or in none, to the same new entities, whose references and
answers are right. -/
theorem resolveSelection_is_right {db : Db} (hdb : Coherent db) {entities : List Entity}
    (hdecoded : ∀ e ∈ entities, e.Decoded) : (∀ others, entities.Perm others →
      SameResolution (resolveSelection db entities) (resolveSelection db others)) ∧
    ∀ r, resolveSelection db entities = .ok r →
      (r.1.map ResolvedEntity.id).Perm (entities.map Entity.id) ∧ Accounted db entities r.2 ∧
      ∀ alloc, Fresh db alloc → RightlyAdded db alloc entities r.1 := by
  refine ⟨fun others hperm ↦ sameResolution (fun e he ↦ (hdecoded e he).uuid) hperm, fun r hr ↦ ?_⟩
  obtain ⟨hnodup, habsent, hcodomains, seen, hexact⟩ :=
    resolveSelection_exact (fun e he ↦ (hdecoded e he).isMap) hr
  have hhold := resolveSelection_hold hr
  refine ⟨?_, accounted hnodup hexact, fun alloc hfresh ↦
    rightlyAdded hdb hfresh hdecoded hnodup habsent hexact hhold hcodomains⟩
  have hids : r.1.map ResolvedEntity.id = (plan entities).map fun p ↦ p.id := by
    have hrelated := hexact.entities.imp (S := fun p e ↦ p.id = e.id) fun p e h ↦ by
      obtain ⟨_, -, rfl⟩ := h
      rfl
    exact (forall₂_eq_eq_eq ▸ forall₂_map_left_iff.mpr (forall₂_map_right_iff.mpr hrelated)).symm
  rw [hids]
  have hperm := (plan_perm entities).map Entity.id
  rwa [List.map_map] at hperm

def exampleTitle : Keyword := kw "S.Page" "title"
def exampleNext : Keyword := kw "S.Page" "next"

/-- A type of pages, with the uuid 8, in a category. -/
def exampleDb : Db where
  schema :=
    [(entityUuid, ⟨.uuid, .one, some .identity, none⟩),
      (entityName, ⟨.string, .one, some .identity, none⟩),
      (instanceOfRole, ⟨.ref, .many, none, none⟩),
      (objectOfCategory, ⟨.ref, .one, none, none⟩),
      (exampleTitle, ⟨.string, .one, some .identity, none⟩),
      (exampleNext, ⟨.ref, .many, none, none⟩)]
  datoms :=
    [⟨1, entityUuid, .uuid 7⟩, ⟨1, entityName, .string "S/EntityType"⟩,
      ⟨2, entityUuid, .uuid 8⟩, ⟨2, entityName, .string "S/Page"⟩, ⟨2, objectOfCategory, .ref 3⟩,
      ⟨2, instanceOfRole, .ref 1⟩]

def examplePage (id next : Uuid) (title : String) : Entity where
  id := id
  types := [8]
  candidate :=
    { candidateValues := [(exampleTitle, .one (.string title))]
      claims := [.unique (.text "title") exampleTitle .none false .identity [.string title],
        .reference (.text "next") exampleNext .none .many (some 8) [next]]
      diagnostics := [] }

def examplePages : List Entity := [examplePage 101 100 "b", examplePage 100 101 "a"]

theorem resolveSelection_is_right_example : ∃ r, resolveSelection exampleDb examplePages = .ok r ∧
      RightlyAdded exampleDb (fun t ↦ 10 - t) examplePages r.1 ∧
      SameResolution (resolveSelection exampleDb examplePages)
        (resolveSelection exampleDb examplePages.reverse) := by
  have hcoherent : Coherent exampleDb :=
    ⟨by decide, by decide, by decide⟩
  have hdecoded : ∀ e ∈ examplePages, e.Decoded := by
    intro e he
    simp only [examplePages, mem_cons, not_mem_nil, or_false] at he
    obtain rfl | rfl := he
    · exact ⟨by decide, nodup_singleton _, by decide⟩
    · exact ⟨by decide, nodup_singleton _, by decide⟩
  have hright := resolveSelection_is_right hcoherent hdecoded
  obtain ⟨r, hr⟩ : ∃ r, resolveSelection exampleDb examplePages = .ok r := by
    have hok : (resolveSelection exampleDb examplePages).toOption.isSome = true := by
      decide
    cases hresolved : resolveSelection exampleDb examplePages with
    | ok r => exact ⟨r, rfl⟩
    | error e =>
      rw [hresolved] at hok
      cases hok
  refine ⟨r, hr, (hright.2 r hr).2.2 _ ⟨fun t ht d hd ↦ ?_, fun t _ u _ h ↦ by omega⟩,
    hright.1 _ (reverse_perm _).symm⟩
  simp only [exampleDb, mem_cons, not_mem_nil, or_false] at hd
  obtain rfl | rfl | rfl | rfl | rfl | rfl := hd <;> constructor <;> simp <;> omega

end Simmis.Documents.Constraints
