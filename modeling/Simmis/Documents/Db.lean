import Simmis.Library.Checks
import Simmis.Library.Maps
import Simmis.Library.Text

/-!
# The database of a knowledge repository

A database value is its schema and its datoms. A pull of one attribute returns its value, or a list
of them where the schema says that there may be many; a nested pattern leaves out an entity on which
it finds nothing.
-/

namespace Simmis.Documents

open Maps

/-- A keyword; `:one` has no namespace. -/
structure Keyword where
  ns : Option String
  name : String
deriving DecidableEq

def kw (ns name : String) : Keyword := ⟨some ns, name⟩

def plain (name : String) : Keyword := ⟨none, name⟩

abbrev Uuid := ℕ

inductive DbType
  | string
  | keyword
  | symbol
  | long
  | bigdec
  | bigint
  | double
  | boolean
  | instant
  | uuid
  | ref
  | other (name : String)
deriving DecidableEq

inductive Cardinality
  | one
  | many
deriving DecidableEq

inductive Unique
  | value
  | identity
deriving DecidableEq

structure AttrSchema where
  valueType : DbType
  cardinality : Cardinality
  unique : Option Unique
  isComponent : Option Bool
deriving DecidableEq

/-- A stored value; a double by its bits, without `-0.0`, an instant in milliseconds. -/
inductive Value
  | string (s : String)
  | keyword (k : Keyword)
  | uuid (id : Uuid)
  | long (n : ℤ)
  | double (bits : UInt64)
  | boolean (b : Bool)
  | instant (ms : ℤ)
  | ref (e : ℤ)
  | other (printed : String)
deriving DecidableEq

structure Datom where
  e : ℤ
  a : Keyword
  v : Value
deriving DecidableEq

structure Db where
  schema : List (Keyword × AttrSchema)
  datoms : List Datom

namespace View

inductive Reason
  | invalidRoot
  | invalidSelectionPolicy
  | unsupportedEntityProfile
  | unprovisionedCanonicalSpace
  | mixedPropertyProfiles
  | missingSchemaRevision
  | missingRepository
  | tooManyWorktreeEntries
  | tooManyFiles
  | unsupportedFile
  | tooManySourceBytes
  | incompatibleCanonicalIdentitySchema
  | missingCanonicalDocumentSchema
  | incompatibleCanonicalPageTitle
  | derivedDbIsNotCanonicalSource
  | incompatibleProjectionSchema
  | tooManyExistingProjectionEntities
  | foreignProjectionChild
  | orphanProjectionEntity
  | authoredProjectionEntity
  | authoredReferenceToProjection
  | contentSizeMismatch
  | tooManySyntaxNodes
deriving DecidableEq

end View

namespace Canonical

inductive Reason
  | changedStructuralRole
  | tooManyTypedScopes
  | unsupportedGeneratedTitleDefinition
  | fileBindingTargetsGeneratedTitle
  | unmigratedEntityIdentityCollision
  | tooManyCanonicalEntities
  | existingPageTitleCollision
  | invalidTypedDeclarations
  | canonicalDocumentNeedsExplicitIdentity
deriving DecidableEq

end Canonical

namespace Properties

/-- The reasons of `::invalid-schema`; the first five errors carry a message only. -/
inductive Reason
  | invalidTrustedBindings
  | bindingMismatch
  | uniquenessMismatch
  | internalAttribute
  | sharedAttribute
  | invalidDeclarations
  | missingCategoricalSchema
  | unknownOrNonentityType
  | tooManyTypeProperties
  | propertyWithoutIdentity
  | propertyCategoryMismatch
  | invalidPropertyCodomain
  | unsupportedPropertyAttrType
  | propertyCodomainStorageMismatch
  | propertyDeclaringTypeMismatch
  | ambiguousPropertyAlias
  | ambiguousTypeStorage
deriving DecidableEq

end Properties

namespace Constraints

inductive Reason
  | invalidRelationCodomain
  | tooManyCandidateEntities
  | duplicateCanonicalIdentity
  | invalidOrDiagnosedCandidate
  | invalidNormalizedCandidateValue
  | invalidReferenceClaim
  | invalidUniqueClaim
  | tooMuchCandidateWork
  | relationTargetTypeMismatch
  | missingRelationTarget
  | duplicateReferenceClaim
  | referenceStorageMismatch
  | missingOrDuplicateUniqueClaim
  | batchUniqueValueCollision
  | missingUniqueReferenceTarget
  | baseUniqueValueCollision
  | uniqueStorageMismatch
  | existingCanonicalIdentity
  | invalidValidationDependencies
deriving DecidableEq

end Constraints

/-- An `ex-info` by its `:type`. -/
inductive Error
  | view (reason : View.Reason)
  | canonical (reason : Canonical.Reason)
  | schema (reason : Properties.Reason)
  | constraints (reason : Constraints.Reason)
  | path
  | markdown
  | blocks
deriving DecidableEq

def entityUuid : Keyword := kw "entity" "uuid"
def entityName : Keyword := kw "entity" "name"
def instanceOfRole : Keyword := kw "instance" "of-role"

def Value.uuid? : Value → Option Uuid
  | .uuid id => some id
  | _ => none

def Value.entity? : Value → Option ℤ
  | .ref e => some e
  | _ => none

namespace Db

variable (db : Db) (attr : Keyword)

/-- `(get (d/schema db) attr)` -/
def attr? : Option AttrSchema := get? db.schema attr

def contains : Bool := (db.attr? attr).isSome

/-- `(d/datoms db :aevt attr)` -/
def aevt : List Datom := db.datoms.filter fun d ↦ d.a = attr

/-- `(d/datoms db :avet attr value)` -/
def avet (value : Value) : List Datom := (db.aevt attr).filter fun d ↦ d.v = value

/-- `(d/datoms db :eavt e)` -/
def eavt (e : ℤ) : List Datom := db.datoms.filter fun d ↦ d.e = e

/-- `(d/datoms db :eavt e attr value)` is not empty. -/
def holds (e : ℤ) (attr : Keyword) (value : Value) : Bool :=
  db.datoms.any fun d ↦ d = ⟨e, attr, value⟩

/-- `(:e (first (d/datoms db :avet :entity/uuid id)))` -/
def eid (id : Uuid) : Option ℤ := (db.avet entityUuid (.uuid id)).head?.map Datom.e

end Db

/-- What a pull returns under an attribute. -/
inductive Pulled (α : Type)
  | none
  | one (a : α)
  | many (items : List α)
deriving DecidableEq

namespace Pulled

variable {α β : Type}

def one? : Pulled α → Option α
  | one a => some a
  | _ => .none

/-- `get-in` below a pulled entity. -/
def under (p : Pulled α) (f : α → Pulled β) : Pulled β := (p.one?.map f).getD .none

/-- Neither `nil` nor `false`. -/
def isTruthy : Pulled Value → Bool
  | none | one (.boolean false) => false
  | _ => true

def uuid? (p : Pulled Value) : Option Uuid := p.one?.bind Value.uuid?

/-- The entities that a nested pattern finds something on. -/
def nested (f : ℤ → Option α) : Pulled Value → Pulled α
  | none => none
  | one v => ((v.entity?.bind f).map one).getD none
  | many vs =>
    match vs.filterMap fun v ↦ v.entity?.bind f with
    | [] => none
    | items => many items

end Pulled

/-- `d/pull` of one attribute, with its bound of a thousand values. -/
def Db.pulled (db : Db) (e : ℤ) (attr : Keyword) : Pulled Value :=
  match db.attr? attr, ((db.eavt e).filter fun d ↦ d.a = attr).map Datom.v with
  | some schema, v :: vs =>
    match schema.cardinality with
    | .one => .one v
    | .many => .many ((v :: vs).take 1000)
  | _, _ => .none

/-- `[:entity/uuid :entity/name]` -/
structure EntityRow where
  uuid : Pulled Value
  name : Pulled Value
deriving DecidableEq

def Db.entityRow (db : Db) (e : ℤ) : Option EntityRow :=
  let row : EntityRow := ⟨db.pulled e entityUuid, db.pulled e entityName⟩
  if row = ⟨.none, .none⟩ then none else some row

end Simmis.Documents
