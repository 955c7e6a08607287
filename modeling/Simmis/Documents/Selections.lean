import Simmis.Documents.Resolution

/-!
# What a resolution contains

A resolved selection, read off its candidates: the values of every entity, the targets outside the
selection and the unique values, each of which has one owner.
-/

namespace Simmis.Documents.Constraints

open List Option Maps Properties Uuid Nat

variable (db : Db) (table : List Planned)

/-- A target is of the type that a claim declares. -/
def Reaches (codomain id : Uuid) : Prop :=
  match planned? table id with
  | some planned => codomain ∈ planned.types
  | none => ∃ e, db.eid id = some e ∧ role db e codomain = true

def targetValue (id : Uuid) : Value :=
  match planned? table id with
  | some planned => .ref planned.tempid
  | none => .ref ((db.eid id).getD 0)

def targetExternal (codomain id : Uuid) : Option External :=
  match planned? table id with
  | some _ => none
  | none => (db.eid id).map fun e ↦ ⟨id, e, codomain⟩

variable {db table}

variable {id : Uuid}

theorem target_eq_ok {codomain : Uuid} {r : Value × Option External} :
    target db table codomain id = .ok r ↔ Reaches db table codomain id ∧
      r = (targetValue db table id, targetExternal db table codomain id) := by
  cases hplanned : planned? table id with
  | some planned =>
    simp only [target, Reaches, targetValue, targetExternal, hplanned, bind_eq_ok, require_eq_ok]
    exact ⟨fun ⟨_, hmem, h⟩ ↦ ⟨hmem, (Except.ok.inj h).symm⟩, fun ⟨hmem, h⟩ ↦ ⟨(), hmem, h ▸ rfl⟩⟩
  | none =>
    cases heid : db.eid id with
    | none => simp [target, Reaches, hplanned, heid]
    | some e =>
      simp only [target, Reaches, targetValue, targetExternal, hplanned, heid, bind_eq_ok,
        require_eq_ok]
      constructor
      · rintro ⟨u, hrole, h⟩
        exact ⟨⟨e, rfl, hrole⟩, (Except.ok.inj h).symm⟩
      · rintro ⟨⟨e', he', hrole⟩, rfl⟩
        cases he'
        exact ⟨(), hrole, rfl⟩

variable (db table)

/-- What is stored under the attribute of a reference. -/
def Reference.stored (c : Reference) : Stored :=
  match c.cardinality with
  | .many => .many (c.targets.map (targetValue db table))
  | .one => .one (targetValue db table (c.targets.headD 0))

/-- The schema of the attribute fits the claim. -/
def Reference.Fits (c : Reference) : Prop :=
  (∃ a, db.attr? c.attr = some a ∧ a.valueType = .ref) ∧
    (c.cardinality = .many ∨ c.targets.length = 1)

variable {db table}

variable {c : Reference}

theorem Reference.Fits.items (hc : c.Fits db) :
    (c.stored db table).items = c.targets.map (targetValue db table) := by
  unfold Reference.stored
  obtain hmany | hone := hc.2
  · rw [hmany]
    rfl
  · obtain ⟨id, hid⟩ := length_eq_one_iff.mp hone
    rw [hid]
    cases c.cardinality <;> rfl

theorem store_targets {values : List (Keyword × Stored)} (hc : c.Fits db)
    (hnew : get? values c.attr = none) :
    store values c.attr c.cardinality (c.targets.map (targetValue db table)) =
      values ++ [(c.attr, c.stored db table)] := by
  unfold Reference.stored store
  obtain hmany | hone := hc.2
  · rw [hmany]
    exact assoc_of_none hnew
  · obtain ⟨id, hid⟩ := length_eq_one_iff.mp hone
    rw [hid]
    cases c.cardinality
    · exact assoc_of_none hnew
    · exact assoc_of_none hnew

/-- The references of a candidate, resolved one after the other. -/
structure Resolved.Exact (db : Db) (table : List Planned) (base : List (Keyword × Stored))
    (claims : List Reference) (r : Resolved) : Prop where
  values : r.values = base ++ claims.map fun c ↦ (c.attr, c.stored db table)
  logical : r.logicalReferences = claims.map fun c ↦ (c.attr, c.targets)
  external : ∀ x, x ∈ r.external ↔
    ∃ c ∈ claims, ∃ id ∈ c.targets, targetExternal db table c.codomain id = some x
  once : r.external.Nodup
  reaches : ∀ c ∈ claims, ∀ id ∈ c.targets, Reaches db table c.codomain id
  fits : ∀ c ∈ claims, c.Fits db
  fresh : ((base ++ claims.map fun c ↦ (c.attr, c.stored db table)).map (·.1)).Nodup

variable {r : Resolved}

theorem resolveReference_exact {base : List (Keyword × Stored)} {claims : List Reference}
    {r' : Resolved} (hr : r.Exact db table base claims)
    (h : resolveReference db table r c = .ok r') : r'.Exact db table base (claims ++ [c]) := by
  obtain ⟨u, hu, h⟩ := bind_eq_ok.mp h
  obtain ⟨resolved, hresolved, h⟩ := bind_eq_ok.mp h
  cases h
  obtain ⟨hschema, hsize, hnew⟩ := require_eq_ok.mp hu
  obtain ⟨hreaches, rfl⟩ := (mapM_eq_ok fun _ _ ↦ target_eq_ok).mp hresolved
  have hfits : c.Fits db := by
    obtain ⟨a, ha, hfits⟩ := (any_eq_true _ _).mp hschema
    simp only [Bool.decide_and, Bool.and_eq_true, decide_eq_true_eq] at hfits
    exact ⟨⟨a, ha, hfits.1⟩, hsize⟩
  have hnone : get? r.values c.attr = none := isNone_iff_eq_none.mp hnew
  have hkeys : c.attr ∉ (base ++ claims.map fun c ↦ (c.attr, c.stored db table)).map (·.1) := by
    rw [← hr.values, ← get?_isSome, hnone]
    exact Bool.false_ne_true
  have hlogical : get? r.logicalReferences c.attr = none := by
    rw [← not_isSome_iff_eq_none, get?_isSome, hr.logical]
    intro hmem
    refine hkeys ?_
    simp only [List.map_append, List.map_map] at hmem ⊢
    exact List.mem_append_right _ hmem
  constructor
  · rw [List.map_map]
    change store r.values c.attr c.cardinality (c.targets.map (targetValue db table)) = _
    rw [store_targets hfits hnone, hr.values]
    simp
  · rw [assoc_of_none hlogical, hr.logical]
    simp
  · intro x
    rw [mem_union_iff, hr.external, mem_dedup]
    simp [or_and_right, exists_or]
  · exact List.Nodup.union _ (nodup_dedup _)
  · intro d hd
    obtain hold | hlast := mem_append.mp hd
    · exact hr.reaches d hold
    · rw [mem_singleton.mp hlast]
      exact hreaches
  · intro d hd
    obtain hold | hlast := mem_append.mp hd
    · exact hr.fits d hold
    · rw [mem_singleton.mp hlast]
      exact hfits
  · have hsnoc := nodup_append.mpr ⟨hr.fresh, nodup_singleton c.attr, ?_⟩
    · simpa using hsnoc
    · intro k hk l hl hkl
      rw [hkl, mem_singleton.mp hl] at hk
      exact hkeys hk

theorem referenceValues_exact {candidate : Candidate}
    (hkeys : (candidate.candidateValues.map (·.1)).Nodup)
    (h : referenceValues db table candidate = .ok r) :
    r.Exact db table candidate.candidateValues (references candidate.claims) := by
  obtain ⟨-, -, h⟩ := bind_eq_ok.mp h
  have hstart : Resolved.Exact db table candidate.candidateValues []
      ⟨candidate.candidateValues, [], []⟩ :=
    ⟨by simp, rfl, by simp, nodup_nil, by simp, by simp, by simpa using hkeys⟩
  have hexact := foldlM_accounts (fun c ↦ [c])
    (Resolved.Exact db table candidate.candidateValues)
    (fun c _ done s t hs ht ↦ resolveReference_exact hs ht) hstart h
  simpa using hexact

variable (db table)

/-- A unique value, and what it is in the database. -/
def uniqueValue (attr : Keyword) (isReference : Bool) (value : Value) : UniqueValue :=
  let target? := if isReference then value.uuid? else none
  let isPlanned := target?.any fun target ↦ (planned? table target).isSome
  ⟨attr, value, if isReference then if isPlanned then none else (target?.bind db.eid).map .ref
    else some value, isPlanned⟩

/-- The unique values of an entity, with their owner. -/
def claimedBy (p : Planned) : List (Uuid × UniqueValue) :=
  (uniqueClaims p.candidate.claims).flatMap fun c ↦
    c.items.map fun value ↦ (p.id, uniqueValue db table c.attr c.isReference value)

variable {db table}

/-- The table of what has been seen says who owns what has been claimed. -/
def Owned (done : List (Uuid × UniqueValue)) (seen : List ((Keyword × Value) × Uuid)) : Prop :=
  ∀ key id, get? seen key = some id ↔ ∃ x ∈ done, x.1 = id ∧ (x.2.attr, x.2.logicalValue) = key

structure Claimed.Exact (base done : List (Uuid × UniqueValue)) (s : Claimed) : Prop where
  seen : Owned (base ++ done) s.seen
  dependencies : ∀ u, u ∈ s.dependencies ↔ ∃ x ∈ done, x.2 = u
  once : s.dependencies.Nodup

variable {base : List (Uuid × UniqueValue)} {s t : Claimed}

theorem claimItem_exact {done : List (Uuid × UniqueValue)} {attr : Keyword}
    {isReference : Bool} {value : Value} (hs : s.Exact base done)
    (h : claimItem db table id attr isReference s value = .ok t) :
    t.Exact base (done ++ [(id, uniqueValue db table attr isReference value)]) := by
  unfold claimItem at h
  simp only [bind_eq_ok, require_eq_ok] at h
  obtain ⟨-, hown, -, -, -, -, h⟩ := h
  cases h
  constructor
  · intro key owner
    rw [get?_assoc, ← append_assoc]
    by_cases hkey : (attr, value) = key
    · subst hkey
      rw [if_pos rfl]
      constructor
      · intro howner
        exact ⟨_, mem_append_right _ (mem_singleton_self _), some.inj howner, rfl⟩
      · rintro ⟨x, hx, hid, hkey⟩
        obtain hold | hnew := mem_append.mp hx
        · have hseen := (hs.seen (attr, value) x.1).mpr ⟨x, hold, rfl, hkey⟩
          rw [hseen] at hown
          have hsame : x.1 = id := by simpa using hown
          rw [← hid, hsame]
        · rw [mem_singleton.mp hnew] at hid
          rw [← hid]
    · rw [if_neg hkey, hs.seen]
      constructor
      · rintro ⟨x, hx, hfields⟩
        exact ⟨x, mem_append_left _ hx, hfields⟩
      · rintro ⟨x, hx, hid, hsame⟩
        obtain hold | hnew := mem_append.mp hx
        · exact ⟨x, hold, hid, hsame⟩
        · rw [mem_singleton.mp hnew] at hsame
          exact absurd hsame hkey
  · intro u
    rw [mem_insert_iff, hs.dependencies]
    simp only [mem_append, mem_singleton]
    constructor
    · rintro (hnew | ⟨x, hx, hu⟩)
      · exact ⟨_, .inr rfl, hnew.symm⟩
      · exact ⟨x, .inl hx, hu⟩
    · rintro ⟨x, hx | hnew, hu⟩
      · exact .inr ⟨x, hx, hu⟩
      · subst hnew
        exact .inl hu.symm
  · exact hs.once.insert

/-- What is checked of a claim of a unique property. -/
structure UniqueClaim.Fits (db : Db) (r : Resolved) (c : UniqueClaim) : Prop where
  unique : (db.attr? c.attr).bind AttrSchema.unique = some c.uniqueness
  reference : c.isReference = (db.attr? c.attr).any fun actual ↦ actual.valueType = .ref
  items : (if c.isReference then (get? r.logicalReferences c.attr).map fun ids ↦ ids.map .uuid
    else (get? r.values c.attr).map Stored.items) = some c.items

theorem resolveUnique_fits {c : UniqueClaim}
    (h : resolveUnique db table id r s c = .ok t) : c.Fits db r := by
  obtain ⟨u, hu, -⟩ := bind_eq_ok.mp h
  obtain ⟨hunique, hreference, hitems⟩ := require_eq_ok.mp hu
  rw [← hreference] at hitems
  exact ⟨hunique, hreference, hitems⟩

theorem resolveUnique_exact {done : List (Uuid × UniqueValue)} {c : UniqueClaim} (hs : s.Exact base done) (h : resolveUnique db table id r s c = .ok t) :
    t.Exact base (done ++
      c.items.map fun value ↦ (id, uniqueValue db table c.attr c.isReference value)) := by
  have hreference := (resolveUnique_fits h).reference
  obtain ⟨-, -, h⟩ := bind_eq_ok.mp h
  have hexact := foldlM_accounts
    (fun value ↦ [(id, uniqueValue db table c.attr c.isReference value)])
    (Claimed.Exact base) (fun value _ done s t hs ht ↦ ?_) hs h
  · rwa [← map_eq_flatMap] at hexact
  · rw [hreference]
    exact claimItem_exact hs ht

/-- A candidate that has been resolved to `r`. -/
structure Checked (db : Db) (table : List Planned) (candidate : Candidate) (r : Resolved) :
    Prop where
  exact : r.Exact db table candidate.candidateValues (references candidate.claims)
  fits : ∀ c ∈ uniqueClaims candidate.claims, c.Fits db r
  claimed : ∀ q ∈ r.values, ((db.attr? q.1).bind AttrSchema.unique).isSome →
    ∃ c ∈ uniqueClaims candidate.claims, c.attr = q.1

variable {p : Planned}

theorem uniqueValues_exact {seen : List ((Keyword × Value) × Uuid)} (hseen : Owned base seen)
    (hexact : r.Exact db table p.candidate.candidateValues (references p.candidate.claims))
    (h : uniqueValues db table p.id p.candidate r seen = .ok t) :
    Checked db table p.candidate r ∧ t.Exact base (claimedBy db table p) := by
  obtain ⟨u, hu, h⟩ := bind_eq_ok.mp h
  obtain ⟨-, hexpected, -⟩ := require_eq_ok.mp hu
  constructor
  · refine ⟨hexact, foldlM_each (fun c _ s t ht ↦ resolveUnique_fits ht) h, fun q hq hunique ↦ ?_⟩
    have hmem := hexpected q.1
      (mem_filter.mpr ⟨mem_map_of_mem hq, by simpa using hunique⟩)
    exact mem_map.mp hmem
  · have hstart : Claimed.Exact base [] ⟨seen, []⟩ :=
      ⟨by simpa using hseen, by simp, nodup_nil⟩
    exact foldlM_accounts _ (Claimed.Exact base)
      (fun c _ done s t hs ht ↦ resolveUnique_exact hs ht) hstart h

theorem plan_entities (entities : List Entity) :
    (plan entities).map Planned.toEntity = entities.insertionSort fun a b ↦ le a.id b.id := by
  unfold plan
  rw [List.map_map]
  exact zipIdx_map_fst 0 _

theorem plan_perm (entities : List Entity) :
    ((plan entities).map Planned.toEntity).Perm entities := by
  rw [plan_entities]
  exact perm_insertionSort _ _

variable {entities : List Entity}

theorem mem_plan_of_mem {e : Entity} (he : e ∈ entities) : ∃ p ∈ plan entities, p.toEntity = e :=
  mem_map.mp ((plan_perm entities).mem_iff.mpr he)

theorem plan_tempid (hp : p ∈ plan entities) : p.tempid < 0 := by
  obtain ⟨q, -, rfl⟩ := mem_map.mp hp
  change -((q.2 : ℤ) + 1) < 0
  omega

theorem plan_tempid_injective {q : Planned} (hp : p ∈ plan entities)
    (hq : q ∈ plan entities) (hsame : p.tempid = q.tempid) : p = q := by
  obtain ⟨x, hx, rfl⟩ := mem_map.mp hp
  obtain ⟨y, hy, rfl⟩ := mem_map.mp hq
  have hindex : x.2 = y.2 := by
    change -((x.2 : ℤ) + 1) = -((y.2 : ℤ) + 1) at hsame
    omega
  have hxy := mem_zipIdx_iff_getElem?.mp hx
  rw [hindex, mem_zipIdx_iff_getElem?.mp hy] at hxy
  rw [Prod.ext (some.inj hxy).symm hindex]

theorem planned?_of_mem (hnodup : (entities.map Entity.id).Nodup)
    (hp : p ∈ plan entities) : planned? (plan entities) p.id = some p := by
  have hids : ((plan entities).map fun p ↦ p.id).Nodup := by
    have hperm := (plan_perm entities).map Entity.id
    rw [List.map_map] at hperm
    exact hperm.nodup_iff.mpr hnodup
  exact find?_of_mem (fun p : Planned ↦ p.id) hids hp

/-- The entities resolved so far, with their targets and unique values. -/
structure Progress.Exact (db : Db) (table done : List Planned) (s : Progress) : Prop where
  entities : List.Forall₂ (fun p e ↦ ∃ r, Checked db table p.candidate r ∧
    e = ⟨p.id, p.types, p.tempid, r.values⟩) done s.entities
  seen : Owned (done.flatMap (claimedBy db table)) s.seen
  external : ∀ x, x ∈ s.dependencies.externalTargets ↔ ∃ p ∈ done,
    ∃ c ∈ references p.candidate.claims, ∃ id ∈ c.targets,
      targetExternal db table c.codomain id = some x
  unique : ∀ u, u ∈ s.dependencies.uniqueValues ↔ ∃ x ∈ done.flatMap (claimedBy db table), x.2 = u
  once : s.dependencies.externalTargets.Nodup ∧ s.dependencies.uniqueValues.Nodup

theorem resolveEntity_exact {done : List Planned} {s t : Progress}
    (hkeys : (p.candidate.candidateValues.map (·.1)).Nodup) (hs : s.Exact db table done)
    (h : resolveEntity db table s p = .ok t) : t.Exact db table (done ++ [p]) := by
  obtain ⟨r, unique, hr, hunique, rfl⟩ := resolveEntity_eq_ok h
  obtain ⟨hchecked, hclaimed⟩ := uniqueValues_exact hs.seen (referenceValues_exact hkeys hr) hunique
  constructor
  · exact rel_append hs.entities (.cons ⟨r, hchecked, rfl⟩ .nil)
  · simpa using hclaimed.seen
  · intro x
    rw [mem_union_iff, hs.external, hchecked.exact.external]
    simp [or_and_right, exists_or]
  · intro u
    rw [mem_union_iff, hs.unique, hclaimed.dependencies]
    simp only [flatMap_append, flatMap_singleton, mem_append, or_and_right, exists_or]
  · exact ⟨List.Nodup.union _ hchecked.exact.once, List.Nodup.union _ hclaimed.once⟩

/-- The map of candidate values has its keys once. -/
def Entity.IsMap (e : Entity) : Prop := (e.candidate.candidateValues.map (·.1)).Nodup

theorem input_nodup (h : input db entities = .ok ()) : (entities.map Entity.id).Nodup := by
  obtain ⟨_, -, h⟩ := bind_eq_ok.mp h
  obtain ⟨_, hnodup, -⟩ := bind_eq_ok.mp h
  exact require_eq_ok.mp hnodup

theorem resolveSelection_exact {r : List ResolvedEntity × Dependencies}
    (hmaps : ∀ e ∈ entities, e.IsMap) (h : resolveSelection db entities = .ok r) :
    (entities.map Entity.id).Nodup ∧ (∀ e ∈ entities, db.eid e.id = none) ∧
      (∀ id ∈ codomains entities, isCodomain db id) ∧
      ∃ seen, Progress.Exact db (plan entities) (plan entities) ⟨r.1, seen, r.2⟩ := by
  obtain ⟨_, hinput, h⟩ := bind_eq_ok.mp h
  obtain ⟨_, habsent, h⟩ := bind_eq_ok.mp h
  obtain ⟨_, hcodomains, h⟩ := bind_eq_ok.mp h
  obtain ⟨s, hs, h⟩ := bind_eq_ok.mp h
  cases h
  refine ⟨input_nodup hinput, ?_, require_eq_ok.mp hcodomains, s.seen, ?_⟩
  · intro e he
    obtain ⟨p, hp, rfl⟩ := mem_plan_of_mem he
    exact require_eq_ok.mp habsent p hp
  · have hstart : Progress.Exact db (plan entities) [] ⟨[], [], ⟨codomains entities, [], []⟩⟩ :=
      ⟨.nil, by simp [Owned, get?], by simp, by simp, nodup_nil, nodup_nil⟩
    have hexact := foldlM_accounts (fun p ↦ [p]) (Progress.Exact db (plan entities))
      (fun p hp done s t hs ht ↦ resolveEntity_exact (hmaps _ (mem_plan hp)) hs ht) hstart hs
    simpa using hexact

theorem entityWork_eq_ok {e : Entity} {work total : ℕ} (h : entityWork db work e = .ok total) :
    ∃ own, total = work + own ∧ total ≤ maxWork ∧
      ∀ work', work' + own ≤ maxWork → entityWork db work' e = .ok (work' + own) := by
  obtain ⟨u₁, hshape, h⟩ := bind_eq_ok.mp h
  obtain ⟨values, hvalues, h⟩ := bind_eq_ok.mp h
  obtain ⟨claims, hclaims, h⟩ := bind_eq_ok.mp h
  obtain ⟨u₂, hbound, h⟩ := bind_eq_ok.mp h
  cases h
  refine ⟨1 + e.types.length + values + e.candidate.claims.length + claims.sum, by omega,
    require_eq_ok.mp hbound, fun work' hwork' ↦ ?_⟩
  refine bind_eq_ok.mpr ⟨u₁, hshape, bind_eq_ok.mpr ⟨values, hvalues, ?_⟩⟩
  refine bind_eq_ok.mpr ⟨claims, hclaims, bind_eq_ok.mpr ⟨u₂, require_eq_ok.mpr (by omega), ?_⟩⟩
  simp only [← add_assoc]
  rfl

theorem entityWork_swap {a b : Entity} {s u t : ℕ} (ha : entityWork db s a = .ok u)
    (hb : entityWork db u b = .ok t) :
    ∃ v, entityWork db s b = .ok v ∧ entityWork db v a = .ok t := by
  obtain ⟨m, rfl, -, hma⟩ := entityWork_eq_ok ha
  obtain ⟨n, rfl, hbound, hnb⟩ := entityWork_eq_ok hb
  refine ⟨s + n, hnb s (by omega), ?_⟩
  rw [hma (s + n) (by omega)]
  congr 1
  omega

variable {others : List Entity}

theorem input_perm (hperm : entities.Perm others)
    (h : input db entities = .ok ()) : input db others = .ok () := by
  obtain ⟨u₁, hcount, h⟩ := bind_eq_ok.mp h
  obtain ⟨u₂, hnodup, h⟩ := bind_eq_ok.mp h
  obtain ⟨work, hwork, h⟩ := bind_eq_ok.mp h
  refine bind_eq_ok.mpr ⟨u₁, require_eq_ok.mpr ?_, bind_eq_ok.mpr ⟨u₂, require_eq_ok.mpr ?_, ?_⟩⟩
  · rw [← hperm.length_eq]
    exact require_eq_ok.mp hcount
  · exact (hperm.map Entity.id).nodup_iff.mp (require_eq_ok.mp hnodup)
  · have hsame : others.foldlM (entityWork db) 0 = .ok work :=
      foldlM_perm (f := entityWork db) (fun _ _ _ _ _ ha hb ↦ entityWork_swap ha hb) hperm hwork
    exact bind_eq_ok.mpr ⟨work, hsame, h⟩

/-- The place of a UUID in the order of Java. -/
def Uuid.rank (id : Uuid) : ℕ :=
  (id / 2 ^ 64 + 2 ^ 63) % 2 ^ 64 * 2 ^ 64 + (id % 2 ^ 64 + 2 ^ 63) % 2 ^ 64

theorem Uuid.le_iff (a b : Uuid) : le a b ↔ rank a ≤ rank b := by
  simp only [le, rank, decide_eq_true_eq]

theorem Uuid.rank_injective {a b : Uuid} (ha : a < 2 ^ 128) (hb : b < 2 ^ 128)
    (hrank : rank a = rank b) : a = b := by
  have hparts {m n m' n' : ℕ} (hn : n < 2 ^ 64) (hn' : n' < 2 ^ 64)
      (h : m * 2 ^ 64 + n = m' * 2 ^ 64 + n') : m = m' ∧ n = n' := by omega
  have hsigned {m n : ℕ} (hm : m < 2 ^ 64) (hn : n < 2 ^ 64)
      (h : (m + 2 ^ 63) % 2 ^ 64 = (n + 2 ^ 63) % 2 ^ 64) : m = n := by omega
  obtain ⟨hhigh, hlow⟩ := hparts (mod_lt _ (by decide)) (mod_lt _ (by decide)) hrank
  have hhalf {m : ℕ} (hm : m < 2 ^ 128) : m / 2 ^ 64 < 2 ^ 64 := Nat.div_lt_of_lt_mul hm
  have hdiv : a / 2 ^ 64 = b / 2 ^ 64 := hsigned (hhalf ha) (hhalf hb) hhigh
  have hmod : a % 2 ^ 64 = b % 2 ^ 64 :=
    hsigned (mod_lt _ (by decide)) (mod_lt _ (by decide)) hlow
  rw [← div_add_mod a (2 ^ 64), hdiv, hmod, div_add_mod]

/-- Every id is a UUID. -/
def AreUuids (entities : List Entity) : Prop := ∀ e ∈ entities, e.id < 2 ^ 128

theorem plan_eq_of_perm (huuids : AreUuids entities)
    (hnodup : (entities.map Entity.id).Nodup) (hperm : entities.Perm others) :
    plan entities = plan others := by
  let le (a b : Entity) : Prop := le a.id b.id
  have htotal : Std.Total le := ⟨fun a b ↦ by
    simp only [le, Uuid.le_iff]
    exact le_total _ _⟩
  have htrans : IsTrans Entity le := ⟨fun a b c hab hbc ↦ by
    simp only [le, Uuid.le_iff] at hab hbc ⊢
    exact le_trans hab hbc⟩
  have hsame : entities.insertionSort le = others.insertionSort le := by
    refine List.Perm.eq_of_pairwise ?_ (pairwise_insertionSort le _)
      (pairwise_insertionSort le _) ?_
    · intro a b ha hb hab hba
      have ha' := (mem_insertionSort _).mp ha
      have hb' := hperm.mem_iff.mpr ((mem_insertionSort _).mp hb)
      exact inj_on_of_nodup_map hnodup ha' hb'
        (Uuid.rank_injective (huuids a ha') (huuids b hb')
          (Nat.le_antisymm ((Uuid.le_iff _ _).mp hab) ((Uuid.le_iff _ _).mp hba)))
    · exact (perm_insertionSort _ _).trans (hperm.trans (perm_insertionSort _ _).symm)
  unfold plan
  rw [hsame]

/-- The progress with other codomains recorded. -/
def Progress.withCodomains (codomains : List Uuid) (s : Progress) : Progress :=
  { s with dependencies := { s.dependencies with codomains } }

theorem resolveEntity_withCodomains (codomains : List Uuid) {s t : Progress}
    (h : resolveEntity db table s p = .ok t) :
    resolveEntity db table (s.withCodomains codomains) p = .ok (t.withCodomains codomains) := by
  obtain ⟨resolved, unique, hresolved, hunique, rfl⟩ := resolveEntity_eq_ok h
  exact bind_eq_ok.mpr ⟨resolved, hresolved, bind_eq_ok.mpr ⟨unique, hunique, rfl⟩⟩

theorem codomains_perm (hperm : entities.Perm others) :
    (codomains entities).Perm (codomains others) :=
  (hperm.flatMap_right _).dedup

/-- A selection resolves in any order, to the same entities with the same answers. -/
theorem resolveSelection_perm (huuids : AreUuids entities)
    (hperm : entities.Perm others) {r : List ResolvedEntity × Dependencies}
    (h : resolveSelection db entities = .ok r) :
    resolveSelection db others = .ok (r.1, { r.2 with codomains := codomains others }) := by
  obtain ⟨u₁, hinput, h⟩ := bind_eq_ok.mp h
  obtain ⟨u₂, habsent, h⟩ := bind_eq_ok.mp h
  obtain ⟨u₃, hcodomains, h⟩ := bind_eq_ok.mp h
  obtain ⟨s, hs, h⟩ := bind_eq_ok.mp h
  cases h
  rw [plan_eq_of_perm huuids (input_nodup hinput) hperm] at habsent hs
  have hcarried := foldlM_carries (g := Progress.withCodomains (codomains others))
    (fun p s t ht ↦ resolveEntity_withCodomains _ ht) hs
  refine bind_eq_ok.mpr ⟨u₁, input_perm hperm hinput, bind_eq_ok.mpr ⟨u₂, habsent, ?_⟩⟩
  refine bind_eq_ok.mpr ⟨u₃, require_eq_ok.mpr fun id hid ↦ ?_, ?_⟩
  · exact require_eq_ok.mp hcodomains id ((codomains_perm hperm).mem_iff.mpr hid)
  · exact bind_eq_ok.mpr ⟨_, hcarried, rfl⟩

end Simmis.Documents.Constraints
