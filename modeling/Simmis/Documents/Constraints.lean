import Simmis.Documents.Properties
import Mathlib.Algebra.Ring.Int.Defs

/-!
# Constraints of a selection

The candidates of all selected entities are validated together: references resolve, unique values
are held by nobody else, and what the database answered is recorded and can be asked for again.
-/

namespace Simmis.Documents.Constraints

open Maps Properties

def maxEntities : ℕ := 20000
def maxWork : ℕ := 50000

structure Entity where
  id : Uuid
  types : List Uuid
  candidate : Candidate

variable (db : Db)

/-- The entity `e` is an instance of a type. -/
def role (e : ℤ) (type : Uuid) : Bool :=
  (db.eid type).any fun t ↦ db.holds e instanceOfRole (.ref t)

/-- `codomain!` lets the type pass. -/
def isCodomain (id : Uuid) : Bool :=
  match db.eid id, metaType db with
  | some e, some m => (db.pulled e objectOfCategory).isTruthy ∧
      db.pulled e objectPrimitive ≠ .one (.boolean true) ∧ db.holds e instanceOfRole (.ref m)
  | _, _ => false

/-- The shape of a value fits its attribute, which is no reference. -/
def isNormal (stored : Stored) (definition : AttrSchema) : Bool :=
  match definition.valueType, definition.cardinality, stored with
  | .ref, _, _ => false
  | _, .many, .many items => items.length ≤ 1000
  | _, .many, .one _ => false
  | _, .one, _ => true

def valueWork (n : ℕ) (value : Keyword × Stored) : Except Error ℕ := do
  require ((db.attr? value.1).any (isNormal value.2)) (.constraints .invalidNormalizedCandidateValue)
  let isMany := (db.attr? value.1).any fun definition ↦ definition.cardinality = .many
  return n + if isMany then value.2.items.length else 1

def claimWork : Claim → Except Error ℕ
  | .reference _ _ _ _ codomain targets => do
    require (targets.length ≤ 1000 ∧ codomain.isSome) (.constraints .invalidReferenceClaim)
    return targets.length
  | .unique _ _ _ _ _ items => do
    require (items.length ≤ 1000) (.constraints .invalidUniqueClaim)
    return items.length

def entityWork (work : ℕ) (entity : Entity) : Except Error ℕ := do
  let candidate := entity.candidate
  require (entity.types ≠ [] ∧ entity.types.length ≤ 64 ∧ candidate.candidateValues.length ≤ 65 ∧
    candidate.claims.length ≤ 130 ∧ candidate.diagnostics.isEmpty)
    (.constraints .invalidOrDiagnosedCandidate)
  let values ← candidate.candidateValues.foldlM (valueWork db) 0
  let claims ← candidate.claims.mapM claimWork
  let total := work + 1 + entity.types.length + values + candidate.claims.length + claims.sum
  require (total ≤ maxWork) (.constraints .tooMuchCandidateWork)
  return total

variable (entities : List Entity)

/-- `input!` -/
def input : Except Error Unit := do
  require (entities.length ≤ maxEntities) (.constraints .tooManyCandidateEntities)
  require (entities.map Entity.id).Nodup (.constraints .duplicateCanonicalIdentity)
  let _ ← entities.foldlM (entityWork db) 0

/-- An entity with the temporary id that its place among the sorted ids gives it. -/
structure Planned extends Entity where
  tempid : ℤ

def plan : List Planned :=
  (entities.insertionSort fun a b ↦ Uuid.le a.id b.id).zipIdx.map fun p ↦
    { toEntity := p.1, tempid := -(p.2 + 1) }

variable (table : List Planned)

def planned? (id : Uuid) : Option Planned := table.find? fun p ↦ p.id = id

/-- A target outside the selection, as it was found. -/
structure External where
  uuid : Uuid
  eid : ℤ
  codomain : Uuid
deriving DecidableEq

/-- `target!` -/
def target (codomain id : Uuid) : Except Error (Value × Option External) :=
  match planned? table id with
  | some planned => do
    require (codomain ∈ planned.types) (.constraints .relationTargetTypeMismatch)
    return (.ref planned.tempid, none)
  | none =>
    match db.eid id with
    | none => .error (.constraints .missingRelationTarget)
    | some e => do
      require (role db e codomain) (.constraints .relationTargetTypeMismatch)
      return (.ref e, some ⟨id, e, codomain⟩)

/-- A reference claim; the input has refused one without a codomain. -/
structure Reference where
  attr : Keyword
  cardinality : Cardinality
  codomain : Uuid
  targets : List Uuid

def references (claims : List Claim) : List Reference :=
  claims.filterMap fun
    | .reference _ attr _ cardinality (some codomain) targets =>
      some ⟨attr, cardinality, codomain, targets⟩
    | _ => none

structure Resolved where
  values : List (Keyword × Stored)
  logicalReferences : List (Keyword × List Uuid)
  external : List External

def resolveReference (r : Resolved) (c : Reference) : Except Error Resolved := do
  let fits (definition : AttrSchema) : Bool :=
    definition.valueType = .ref ∧ definition.cardinality = c.cardinality
  require ((db.attr? c.attr).any fits ∧ (c.cardinality = .many ∨ c.targets.length = 1) ∧
    (get? r.values c.attr).isNone) (.constraints .referenceStorageMismatch)
  let resolved ← c.targets.mapM (target db table c.codomain)
  return {
    values := store r.values c.attr c.cardinality (resolved.map (·.1))
    logicalReferences := assoc r.logicalReferences c.attr c.targets
    external := r.external ∪ (resolved.filterMap (·.2)).dedup }

def referenceValues (candidate : Candidate) : Except Error Resolved := do
  let claims := references candidate.claims
  require (claims.map Reference.attr).Nodup (.constraints .duplicateReferenceClaim)
  claims.foldlM (resolveReference db table) ⟨candidate.candidateValues, [], []⟩

structure UniqueClaim where
  attr : Keyword
  isReference : Bool
  uniqueness : Unique
  items : List Value

def uniqueClaims (claims : List Claim) : List UniqueClaim :=
  claims.filterMap fun
    | .unique _ attr _ isReference uniqueness items => some ⟨attr, isReference, uniqueness, items⟩
    | _ => none

/-- A unique value, and how the database would hold it, if somebody may. -/
structure UniqueValue where
  attr : Keyword
  logicalValue : Value
  baseValue : Option Value
  plannedTarget : Bool
deriving DecidableEq

structure Claimed where
  seen : List ((Keyword × Value) × Uuid)
  dependencies : List UniqueValue

def claimItem (id : Uuid) (attr : Keyword) (isReference : Bool) (s : Claimed) (value : Value) :
    Except Error Claimed := do
  let target? := if isReference then value.uuid? else none
  let isPlanned := target?.any fun target ↦ (planned? table target).isSome
  let base? := if isReference then if isPlanned then none else (target?.bind db.eid).map .ref
    else some value
  require ((get? s.seen (attr, value)).all (· = id)) (.constraints .batchUniqueValueCollision)
  require (isPlanned ∨ base?.isSome) (.constraints .missingUniqueReferenceTarget)
  require (isPlanned ∨ base?.all fun base ↦ (db.avet attr base).isEmpty)
    (.constraints .baseUniqueValueCollision)
  return {
    seen := assoc s.seen (attr, value) id
    dependencies := s.dependencies.insert ⟨attr, value, base?, isPlanned⟩ }

def resolveUnique (id : Uuid) (r : Resolved) (s : Claimed) (c : UniqueClaim) :
    Except Error Claimed := do
  let isReference := (db.attr? c.attr).any fun actual ↦ actual.valueType = .ref
  let items? := if isReference then (get? r.logicalReferences c.attr).map fun ids ↦ ids.map .uuid
    else (get? r.values c.attr).map Stored.items
  require ((db.attr? c.attr).bind AttrSchema.unique = some c.uniqueness ∧
    c.isReference = isReference ∧ items? = some c.items) (.constraints .uniqueStorageMismatch)
  c.items.foldlM (claimItem db table id c.attr isReference) s

def uniqueValues (id : Uuid) (candidate : Candidate) (r : Resolved)
    (seen : List ((Keyword × Value) × Uuid)) : Except Error Claimed := do
  let claims := uniqueClaims candidate.claims
  let attrs := claims.map UniqueClaim.attr
  let expected := (r.values.map (·.1)).filter fun attr ↦
    ((db.attr? attr).bind AttrSchema.unique).isSome
  require (attrs.Nodup ∧ (∀ attr ∈ expected, attr ∈ attrs) ∧ ∀ attr ∈ attrs, attr ∈ expected)
    (.constraints .missingOrDuplicateUniqueClaim)
  claims.foldlM (resolveUnique db table id r) ⟨seen, []⟩

/-- What the database answered. -/
structure Dependencies where
  codomains : List Uuid
  externalTargets : List External
  uniqueValues : List UniqueValue
deriving DecidableEq

structure ResolvedEntity where
  id : Uuid
  types : List Uuid
  tempid : ℤ
  values : List (Keyword × Stored)

structure Progress where
  entities : List ResolvedEntity
  seen : List ((Keyword × Value) × Uuid)
  dependencies : Dependencies

def resolveEntity (s : Progress) (p : Planned) : Except Error Progress := do
  let resolved ← referenceValues db table p.candidate
  let unique ← uniqueValues db table p.id p.candidate resolved s.seen
  return {
    entities := s.entities ++ [⟨p.id, p.types, p.tempid, resolved.values⟩]
    seen := unique.seen
    dependencies :=
      { s.dependencies with
        externalTargets := s.dependencies.externalTargets ∪ resolved.external
        uniqueValues := s.dependencies.uniqueValues ∪ unique.dependencies } }

def codomains : List Uuid :=
  (entities.flatMap fun e ↦ (references e.candidate.claims).map Reference.codomain).dedup

def resolveSelection : Except Error (List ResolvedEntity × Dependencies) := do
  input db entities
  let table := plan entities
  require (∀ p ∈ table, db.eid p.id = none) (.constraints .existingCanonicalIdentity)
  require (∀ id ∈ codomains entities, isCodomain db id) (.constraints .invalidRelationCodomain)
  let s ← table.foldlM (resolveEntity db table) ⟨[], [], ⟨codomains entities, [], []⟩⟩
  return (s.entities, s.dependencies)

def Dependencies.isWellFormed (d : Dependencies) : Bool :=
  d.codomains.length + d.externalTargets.length + d.uniqueValues.length ≤ maxWork ∧
    (∀ t ∈ d.externalTargets, 0 < t.eid) ∧
    ∀ u ∈ d.uniqueValues, if u.plannedTarget then u.logicalValue.uuid?.isSome ∧ u.baseValue.isNone
      else u.baseValue.isSome

/-- `current?`; all its refusals are its own, and it answers them with `false`. -/
def isCurrent (d : Dependencies) (ownDerived : Bool) : Bool :=
  d.isWellFormed ∧ (∀ id ∈ d.codomains, isCodomain db id) ∧
    (∀ t ∈ d.externalTargets, db.eid t.uuid = some t.eid ∧ role db t.eid t.codomain) ∧
    (ownDerived ∨ ∀ u ∈ d.uniqueValues, u.plannedTarget ∨
      u.baseValue.any fun base ↦ (db.avet u.attr base).isEmpty)

end Simmis.Documents.Constraints
