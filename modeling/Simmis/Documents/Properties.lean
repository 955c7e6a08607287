import Simmis.Documents.Metadata
import Simmis.Library.Replays

/-!
# Typed properties

A property is a morphism of the store. Compiling a scope of declarations checks its types and
properties against the schema; the revision of the compiled scope is the hash of all it has read.
Decoding values against it reads no database.
-/

namespace Simmis.Documents.Properties

open Maps List

def objectOfCategory : Keyword := kw "object" "of-category"
def objectPrimitive : Keyword := kw "object" "primitive?"
def objectEnumValues : Keyword := kw "object" "enum-values"
def objectBaseType : Keyword := kw "object" "base-type"
def morphismSrc : Keyword := kw "morphism" "src"
def morphismOfCategory : Keyword := kw "morphism" "of-category"

def Cardinality.ident : Cardinality → Keyword
  | .one => plain "one"
  | .many => plain "many"

def Unique.ident : Unique → Keyword
  | .value => kw "db.unique" "value"
  | .identity => kw "db.unique" "identity"

/-- The codomain of a morphism, as pulled. -/
structure Codomain where
  uuid : Pulled Value
  name : Pulled Value
  isPrimitive : Pulled Value
  enumValues : Pulled Value
  baseType : Pulled EntityRow
  category : Pulled EntityRow
deriving DecidableEq

/-- A morphism, as `binding-keys` pull it. -/
structure Morphism where
  uuid : Pulled Value
  name : Pulled Value
  storageAttr : Pulled Value
  computation : Pulled Value
  validation : Pulled Value
  cardinality : Pulled Value
  isOptional : Pulled Value
  attrType : Pulled Value
  unique : Pulled Value
  propertyType : Pulled Value
  category : Pulled EntityRow
  src : Pulled EntityRow
  dst : Pulled Codomain
deriving DecidableEq

variable (db : Db)

def codomainRow (e : ℤ) : Option Codomain :=
  let row : Codomain :=
    { uuid := db.pulled e entityUuid
      name := db.pulled e entityName
      isPrimitive := db.pulled e objectPrimitive
      enumValues := db.pulled e objectEnumValues
      baseType := (db.pulled e objectBaseType).nested db.entityRow
      category := (db.pulled e objectOfCategory).nested db.entityRow }
  if row = ⟨.none, .none, .none, .none, .none, .none⟩ then none else some row

def pullMorphism (e : ℤ) : Morphism :=
  { uuid := db.pulled e entityUuid
    name := db.pulled e entityName
    storageAttr := db.pulled e (kw "morphism" "storage-attr")
    computation := db.pulled e (kw "morphism" "computation")
    validation := db.pulled e (kw "morphism" "validation")
    cardinality := db.pulled e (kw "morphism" "cardinality")
    isOptional := db.pulled e (kw "morphism" "optional?")
    attrType := db.pulled e (kw "morphism" "attr-type")
    unique := db.pulled e (kw "morphism" "unique")
    propertyType := db.pulled e (kw "morphism" "property-type")
    category := (db.pulled e morphismOfCategory).nested db.entityRow
    src := (db.pulled e morphismSrc).nested db.entityRow
    dst := (db.pulled e (kw "morphism" "dst")).nested (codomainRow db) }

/-- `S/Page/title` is stored under `:S.Page/title`; empty last segments are dropped. -/
def nameToAttrIdent (name : Pulled Value) : Option Keyword :=
  match name with
  | .one (.string s) =>
    let parts := ((Text.segments s).reverse.dropWhile (· = "")).reverse
    parts.getLast?.map fun last ↦ kw (".".intercalate parts.dropLast) last
  | _ => none

/-- The attribute of a morphism; a reflected one names it. -/
def attrOf (m : Morphism) : Option Keyword :=
  match m.storageAttr with
  | .none => nameToAttrIdent m.name
  | .one (.keyword attr) => some attr
  | _ => none

def systemNamespaces : List String :=
  ["db", "entity", "block", "document", "geschichte", "morphism", "category", "object", "functor",
    "instance", "party", "room", "grant", "scope", "permission", "eacl", "kontor", "dvergr",
    "schedule", "wallet", "ledger"]

def structuralAttribute (attr : Keyword) : Bool :=
  let ns := attr.ns.getD ""
  systemNamespaces.any fun system ↦ ns = system ∨ (system ++ ".").toList.isPrefixOf ns.toList

structure Binding where
  morphism : Morphism
  attr : Keyword
  schema : AttrSchema
  owned : Bool
  cardinality : Cardinality
deriving DecidableEq

/-- The binding of one property in `compile-schema`. -/
def compileBinding (id : Uuid) : Except Error Binding := do
  let e? := if db.contains entityUuid then db.eid id else none
  match e?.map (pullMorphism db) with
  | none => .error (.schema .bindingMismatch)
  | some m =>
    match (if m.name = .none then none else attrOf m) with
    | none => .error (.schema .bindingMismatch)
    | some attr =>
      match db.attr? attr with
      | none => .error (.schema .bindingMismatch)
      | some schema =>
        let owned : Bool := m.storageAttr = .none ∧ m.computation = .none ∧
          nameToAttrIdent m.name = some attr
        require (m.uuid.isTruthy ∧
          m.cardinality = .one (.keyword (Cardinality.ident schema.cardinality)))
          (.schema .bindingMismatch)
        require (m.unique.isTruthy →
          (schema.unique.map fun u ↦ Pulled.one (.keyword (Unique.ident u))) = some m.unique)
          (.schema .uniquenessMismatch)
        require (¬ (owned ∧ structuralAttribute attr)) (.schema .internalAttribute)
        return ⟨m, attr, schema, owned, schema.cardinality⟩

/-- `compile-schema` without its profile; the revision is `hash` of the bindings. -/
def compileSchema {R : Type} (hash : List (String × Binding) → R) (db : Db)
    (bindings : List (String × Uuid)) : Except Error (List (String × Binding) × R) := do
  require (bindings.length ≤ 64 ∧ ∀ b ∈ bindings,
    1 ≤ Text.count b.1 ∧ Text.count b.1 ≤ 128 ∧ b.1 ∉ Metadata.reserved)
    (.schema .invalidTrustedBindings)
  let compiled ← (sorted Text.le bindings).mapM fun b ↦ do
    let binding ← compileBinding db b.2
    return (b.1, binding)
  require (compiled.map fun b ↦ b.2.attr).Nodup (.schema .sharedAttribute)
  return (compiled, hash compiled)

/-- `attr-type->db-type` -/
def attrTypeDbTypes : List (String × DbType) :=
  [("Identity", .string), ("String", .string), ("Str", .string), ("URI", .string),
    ("Keyword", .keyword), ("Symbol", .symbol), ("Long", .long), ("Int", .long), ("Integer", .long),
    ("Number", .long), ("BigDec", .bigdec), ("BigInt", .bigint), ("Float", .double),
    ("Double", .double), ("Boolean", .boolean), ("Bool", .boolean), ("Instant", .instant),
    ("Date", .instant), ("UUID", .uuid), ("Ref", .ref)]

def attrTypeDbType (attrType : Pulled Value) : Option DbType :=
  match attrType with
  | .one (.keyword ⟨none, name⟩) => get? attrTypeDbTypes name
  | _ => none

/-- `codomain->db-type` -/
def codomainDbType (name : Pulled Value) : DbType :=
  let named : List (String × DbType) :=
    [("S/String", .string), ("S/Number", .long), ("S/Float", .double), ("S/Boolean", .boolean),
      ("S/Date", .instant), ("S/UUID", .uuid), ("S/URL", .string), ("S/Email", .string),
      ("S/Phone", .string)]
  match name with
  | .one (.string s) => (get? named s).getD .ref
  | _ => .ref

structure CategoryRow where
  id : ℤ
  uuid : Pulled Value
  name : Pulled Value
deriving DecidableEq

/-- A type, as `compile-scope` pulls it. -/
structure TypeRow where
  id : ℤ
  uuid : Pulled Value
  name : Pulled Value
  isPrimitive : Pulled Value
  category : Pulled CategoryRow
  roles : Pulled ℤ
deriving DecidableEq

def pullType (e : ℤ) : TypeRow :=
  { id := e
    uuid := db.pulled e entityUuid
    name := db.pulled e entityName
    isPrimitive := db.pulled e objectPrimitive
    category := (db.pulled e objectOfCategory).nested fun c ↦
      some ⟨c, db.pulled c entityUuid, db.pulled c entityName⟩
    roles := (db.pulled e instanceOfRole).nested some }

def TypeRow.categoryUuid (row : TypeRow) : Pulled Value := row.category.under CategoryRow.uuid

/-- The types and the aliases of a page or of a block, its own role among the types. -/
structure Declaration where
  types : List Uuid
  bindings : List (String × Metadata.Alias)
deriving DecidableEq

/-- What the revision of a compiled scope is the hash of. -/
structure ScopeContent where
  types : List (Uuid × TypeRow)
  properties : List (Uuid × Binding)
  bindings : List (String × Binding)
deriving DecidableEq

structure Compiled (R : Type) extends ScopeContent where
  revision : R
deriving DecidableEq

/-- The type whose instances are the entity types. -/
def metaType : Option ℤ :=
  (db.avet entityName (.string "S/EntityType")).head?.map Datom.e

def compileType (id : Uuid) : Except Error (Uuid × TypeRow) :=
  match db.eid id with
  | none => .error (.schema .unknownOrNonentityType)
  | some e => do
    let row := pullType db e
    let isEntityType : Bool := match metaType db, row.roles with
      | some m, .many roles => m ∈ roles
      | _, _ => false
    require (isEntityType ∧ row.name.isTruthy ∧ row.categoryUuid.isTruthy ∧
      row.isPrimitive ≠ .one (.boolean true)) (.schema .unknownOrNonentityType)
    return (id, row)

/-- One outgoing property of the types. -/
def compileProperty (types : List (Uuid × TypeRow)) (e : ℤ) : Except Error (Uuid × Binding) :=
  match (db.pulled e entityUuid).uuid? with
  | none => .error (.schema .propertyWithoutIdentity)
  | some id => do
    let binding ← compileBinding db id
    let m := binding.morphism
    let row? := (m.src.under EntityRow.uuid).uuid?.bind (get? types)
    let category := (row?.map TypeRow.categoryUuid).getD .none
    require (category = m.category.under EntityRow.uuid) (.schema .propertyCategoryMismatch)
    require ((m.dst.under Codomain.uuid).isTruthy ∧ (m.dst.under Codomain.name).isTruthy ∧
      category = m.dst.under (fun dst ↦ dst.category.under EntityRow.uuid))
      (.schema .invalidPropertyCodomain)
    require (m.attrType.isTruthy → (attrTypeDbType m.attrType).isSome)
      (.schema .unsupportedPropertyAttrType)
    require ((attrTypeDbType m.attrType).getD (codomainDbType (m.dst.under Codomain.name)) =
      binding.schema.valueType) (.schema .propertyCodomainStorageMismatch)
    return (id, binding)

def compileAlias (types : List (Uuid × TypeRow)) (properties : List (Uuid × Binding))
    (entry : String × Metadata.Alias) : Except Error (String × Binding) :=
  match get? properties entry.2.id with
  | none => .error (.schema .propertyDeclaringTypeMismatch)
  | some binding => do
    let src := binding.morphism.src.under EntityRow.uuid
    require ((get? types entry.2.declaringType).isSome ∧
      src = .one (.uuid entry.2.declaringType)) (.schema .propertyDeclaringTypeMismatch)
    return (entry.1, binding)

def maxTypeProperties : ℕ := 256

variable {R : Type}

/-- `compile-scope`; the revision is `hash` of the content. -/
def compileScope (hash : ScopeContent → R) (db : Db) (declaration : Declaration) :
    Except Error (Compiled R) := do
  require (declaration.types.length ≤ 64 ∧ declaration.types.Nodup ∧
    declaration.bindings.length ≤ 64 ∧ ∀ b ∈ declaration.bindings, Metadata.isAlias b.1)
    (.schema .invalidDeclarations)
  require (∀ attr ∈ [entityUuid, entityName, objectOfCategory, instanceOfRole, morphismSrc,
    morphismOfCategory], db.contains attr) (.schema .missingCategoricalSchema)
  let rows ← declaration.types.mapM (compileType db)
  let types := sorted Uuid.le rows
  let outgoing := types.flatMap fun row ↦ (db.avet morphismSrc (.ref row.2.id)).map Datom.e
  require (outgoing.length ≤ maxTypeProperties) (.schema .tooManyTypeProperties)
  let defined ← outgoing.mapM (compileProperty db types)
  let properties := sorted Uuid.le defined
  let aliased ← declaration.bindings.mapM (compileAlias types properties)
  let bindings := sorted Text.le aliased
  require (bindings.map fun b ↦ b.2.attr).Nodup (.schema .ambiguousPropertyAlias)
  require (properties.map fun p ↦ p.2.attr).Nodup (.schema .ambiguousTypeStorage)
  let content : ScopeContent := ⟨types, properties, bindings⟩
  return ⟨content, hash content⟩

/-- Conversions of the host: an integer to the bits of the nearest double, and
`java.time.Instant/parse` in milliseconds. -/
structure Java where
  toDouble : ℤ → UInt64
  parseInstant : String → Option ℤ

/-- `Double/isFinite`: the exponent bits are not all set. -/
def isFinite (bits : UInt64) : Bool := (bits >>> 52) &&& 0x7FF ≠ 0x7FF

/-- The two zeros are equal, to Clojure and to the index. -/
def oneZero (bits : UInt64) : UInt64 := if bits = 0x8000000000000000 then 0 else bits

variable (java : Java)

def scalar (type : DbType) (value : Yaml) : Option Value :=
  match type, value with
  | .string, .str s => some (.string s)
  | .boolean, .bool b => some (.boolean b)
  | .long, .int n => if -2 ^ 63 ≤ n ∧ n < 2 ^ 63 then some (.long n) else none
  | .double, .int n => if isFinite (java.toDouble n) then some (.double (java.toDouble n)) else none
  | .double, .double bits => if isFinite bits then some (.double (oneZero bits)) else none
  | .uuid, .str s => (canonicalUuid s).map .uuid
  | .instant, .date ms => some (.instant ms)
  | .instant, .str s => (java.parseInstant s).map .instant
  | _, _ => none

/-- The path that may stand beside the id of a reference. -/
def isHint : Option Yaml → Bool
  | none => true
  | some (.str path) => Text.count path ≤ 512 ∧ ¬ path.toList.any Text.isControl
  | some _ => false

/-- A reference is a UUID, or a mapping with an `id` and an inert `path`. -/
def referenceId (raw : Yaml) : Option Value :=
  match raw with
  | .str s => (canonicalUuid s).map .uuid
  | .map entries => do
    guard (∀ entry ∈ entries, entry.1 ∈ [Key.text "id", Key.text "path"])
    guard (isHint (get? entries (.text "path")))
    ((get? entries (.text "id")).bind Yaml.canonicalUuid?).map .uuid
  | _ => none

def maxItems : ℕ := 1000

/-- What is wrong with the value of a property, or the items it decodes to. -/
def field (binding : Binding) (value : Yaml) (candidate : Bool) : Except Problem (List Value) :=
  let schema := binding.schema
  let m := binding.morphism
  let isReference : Bool := schema.valueType = .ref
  let items? := match binding.cardinality, value with
    | .one, _ => some [value]
    | .many, .seq items => some items
    | .many, _ => none
  let decoded? := do
    let items ← items?
    guard (items.length ≤ maxItems)
    items.mapM (if candidate ∧ isReference then referenceId else scalar java schema.valueType)
  let needsValidator : Bool := m.validation.isTruthy ∨
    m.dst.one?.any (fun dst ↦ dst.baseType ≠ .none) ∨
    (m.dst.under Codomain.enumValues).isTruthy
  if ¬ binding.owned then .error .ownerManagedProperty
  else if schema.isComponent = some true then .error .componentProperty
  else if schema.unique.isSome ∧ ¬ candidate then .error .uniquePropertyNeedsValidation
  else if needsValidator then .error .propertyNeedsValidator
  else if isReference ∧ ¬ candidate then .error .unresolvedPropertyReference
  else if items?.any fun items ↦ maxItems < items.length then .error .tooManyPropertyValues
  else match decoded? with
    | some items => .ok items
    | none => .error (if isReference then .invalidPropertyReference else .invalidPropertyValue)

/-- A stored value, or the list of them. -/
inductive Stored
  | one (v : Value)
  | many (items : List Value)
deriving DecidableEq

def Stored.items : Stored → List Value
  | one v => [v]
  | many items => items

/-- Values with those of one more attribute, a list of them where there may be many. -/
def store (values : List (Keyword × Stored)) (attr : Keyword) (cardinality : Cardinality)
    (items : List Value) : List (Keyword × Stored) :=
  match cardinality, items with
  | .many, items => assoc values attr (.many items)
  | .one, v :: _ => assoc values attr (.one v)
  | .one, [] => values

/-- What is left to validate of a value. -/
inductive Claim
  | reference (slot : Key) (attr : Keyword) (property : Pulled Value)
      (cardinality : Cardinality) (codomain : Option Uuid) (targets : List Uuid)
  | unique (slot : Key) (attr : Keyword) (property : Pulled Value) (isReference : Bool)
      (uniqueness : Unique) (items : List Value)
deriving DecidableEq

def Claim.attr : Claim → Keyword
  | reference _ attr _ _ _ _ | unique _ attr _ _ _ _ => attr

structure Decoded where
  unknown : Mapping
  values : List (Keyword × Stored)
  claims : List Claim
  diagnostics : List Diagnostic

def isMissing (raw : Mapping) (slot : Key) : Bool :=
  match get? raw slot with
  | none | some .null | some (.seq []) => true
  | _ => false

def isRequired (binding : Binding) : Bool := binding.morphism.isOptional = .one (.boolean false)

variable (bindings : List (Key × Binding))

/-- One entry of the frontmatter in `decode*`. -/
def decodeEntry (candidate : Bool) (result : Decoded) (entry : Key × Yaml) : Decoded :=
  match get? bindings entry.1, entry.2 with
  | none, value => { result with unknown := assoc result.unknown entry.1 value }
  | some _, .null => result
  | some binding, value =>
    match field java binding value candidate with
    | .error problem =>
      { result with diagnostics := result.diagnostics ++ [.property problem entry.1] }
    | .ok items =>
      let isReference : Bool := binding.schema.valueType = .ref
      let property := binding.morphism.uuid
      let values := if isReference then result.values
        else store result.values binding.attr binding.cardinality items
      let reference := if candidate ∧ isReference
        then [Claim.reference entry.1 binding.attr property binding.cardinality
          (binding.morphism.dst.under Codomain.uuid).uuid? (items.filterMap Value.uuid?)]
        else []
      let unique := match binding.schema.unique with
        | some uniqueness => if candidate
            then [Claim.unique entry.1 binding.attr property isReference uniqueness items] else []
        | none => []
      { result with values, claims := result.claims ++ reference ++ unique }

/-- `decode*` -/
def decodeRaw (raw : Mapping) (candidate : Bool) :
    Decoded :=
  let missing := bindings.filter fun b ↦ isRequired b.2 ∧ isMissing raw b.1
  let diagnostics := missing.map fun b ↦ .property .missingRequiredProperty b.1
  raw.foldl (decodeEntry java bindings candidate) ⟨[], [], [], diagnostics⟩

def slots (bindings : List (String × Binding)) : List (Key × Binding) :=
  bindings.map fun b ↦ (.text b.1, b.2)

/-- `decode`, for the bindings that the host trusts. -/
def decode (bindings : List (String × Binding)) (raw : Mapping) : Decoded :=
  decodeRaw java (slots bindings) raw false

/-- A property without an alias is missing if it is required, unless another system owns it. -/
def scopeDiagnostics (properties : List (Uuid × Binding)) (bindings : List (Key × Binding))
    (diagnostics : List Diagnostic) : List Diagnostic :=
  let bound := bindings.map fun b ↦ b.2.morphism.uuid
  let managed (slot : Key) : Bool := (get? bindings slot).any fun b ↦ ¬ b.owned
  let renamed := diagnostics.map fun
    | .property .missingRequiredProperty slot =>
      .property (if managed slot then .requiredOwnerManagedProperty else .missingRequiredProperty)
        slot
    | diagnostic => diagnostic
  let unbound := properties.filter fun p ↦ isRequired p.2 ∧ .one (.uuid p.1) ∉ bound
  renamed ++ unbound.map fun p ↦
    .requiredProperty
      (if p.2.owned then .missingRequiredProperty else .requiredOwnerManagedProperty) p.1

/-- The values of one scope before references and unique values are validated. -/
structure Candidate where
  candidateValues : List (Keyword × Stored)
  claims : List Claim
  diagnostics : List Diagnostic

/-- `decode-candidate`, of a scope whose slots may hold a generated one. -/
def decodeCandidate (properties : List (Uuid × Binding)) (bindings : List (Key × Binding))
    (raw : Mapping) : Candidate :=
  let decoded := decodeRaw java bindings raw true
  ⟨decoded.values, decoded.claims, scopeDiagnostics properties bindings decoded.diagnostics⟩

section

variable {db : Db}

theorem compileBinding_schema {id : Uuid} {b : Binding} (h : compileBinding db id = .ok b) :
    db.attr? b.attr = some b.schema := by
  unfold compileBinding at h
  dsimp only at h
  split at h
  · cases h
  · split at h
    · cases h
    · split at h
      · cases h
      · next schema hschema =>
        simp only [bind_eq_ok, require_eq_ok] at h
        obtain ⟨-, -, -, -, -, -, h⟩ := h
        cases h
        exact hschema

theorem compileProperty_schema {types : List (Uuid × TypeRow)} {e : ℤ} {p : Uuid × Binding}
    (h : compileProperty db types e = .ok p) : db.attr? p.2.attr = some p.2.schema := by
  unfold compileProperty at h
  split at h
  · cases h
  · simp only [bind_eq_ok, require_eq_ok] at h
    obtain ⟨b, hb, -, -, -, -, -, -, -, -, h⟩ := h
    cases h
    exact compileBinding_schema hb

theorem compileAlias_property {types : List (Uuid × TypeRow)} {properties : List (Uuid × Binding)}
    {entry : String × Metadata.Alias} {b : String × Binding}
    (h : compileAlias types properties entry = .ok b) : ∃ p ∈ properties, p.2 = b.2 := by
  unfold compileAlias at h
  split at h
  · cases h
  · next binding hbinding =>
    simp only [bind_eq_ok, require_eq_ok] at h
    obtain ⟨-, -, h⟩ := h
    cases h
    exact ⟨_, mem_of_get? hbinding, rfl⟩

/-- A compiled scope has the schema of its properties, some aliases, and the hash of its content. -/
structure Compiled.Reads (hash : ScopeContent → R) (db : Db) (c : Compiled R) : Prop where
  schema : ∀ p ∈ c.properties, db.attr? p.2.attr = some p.2.schema
  aliased : ∀ b ∈ c.bindings, ∃ p ∈ c.properties, p.2 = b.2
  revision : c.revision = hash c.toScopeContent

theorem compileScope_reads {hash : ScopeContent → R} {d : Declaration} {c : Compiled R}
    (h : compileScope hash db d = .ok c) : c.Reads hash db := by
  unfold compileScope at h
  simp only [bind_eq_ok, require_eq_ok] at h
  obtain ⟨-, -, -, -, rows, -, -, -, defined, hdefined, aliased, haliased, -, -, -, -, h⟩ := h
  cases h
  constructor
  · intro p hp
    obtain ⟨e, -, he⟩ := of_mem_mapM hdefined (mem_sorted hp)
    exact compileProperty_schema he
  · intro b hb
    obtain ⟨entry, -, hentry⟩ := of_mem_mapM haliased (mem_sorted hb)
    exact compileAlias_property hentry
  · rfl

/-- An `::invalid-schema`. -/
def IsSchema (e : Error) : Prop := ∃ reason, e = .schema reason

theorem compileBinding_throws (id : Uuid) : Throws IsSchema (compileBinding db id) := by
  have hschema (reason : Reason) : IsSchema (.schema reason) := ⟨reason, rfl⟩
  unfold compileBinding
  dsimp only
  split
  · exact .error (hschema _)
  · split
    · exact .error (hschema _)
    · split
      · exact .error (hschema _)
      · exact .bind (.require (hschema _)) fun _ _ ↦ .bind (.require (hschema _)) fun _ _ ↦
          .bind (.require (hschema _)) fun _ _ ↦ .ok _

theorem compileScope_throws (hash : ScopeContent → R) (d : Declaration) :
    Throws IsSchema (compileScope hash db d) := by
  have hschema (reason : Reason) : IsSchema (.schema reason) := ⟨reason, rfl⟩
  have htype (id : Uuid) : Throws IsSchema (compileType db id) := by
    unfold compileType
    split
    · exact .error (hschema _)
    · exact .bind (.require (hschema _)) fun _ _ ↦ .ok _
  have hproperty (types : List (Uuid × TypeRow)) (e : ℤ) :
      Throws IsSchema (compileProperty db types e) := by
    unfold compileProperty
    split
    · exact .error (hschema _)
    · exact .bind (compileBinding_throws _) fun _ _ ↦ .bind (.require (hschema _)) fun _ _ ↦
        .bind (.require (hschema _)) fun _ _ ↦ .bind (.require (hschema _)) fun _ _ ↦
        .bind (.require (hschema _)) fun _ _ ↦ .ok _
  have halias (types : List (Uuid × TypeRow)) (properties : List (Uuid × Binding))
      (entry : String × Metadata.Alias) : Throws IsSchema (compileAlias types properties entry) := by
    unfold compileAlias
    split
    · exact .error (hschema _)
    · exact .bind (.require (hschema _)) fun _ _ ↦ .ok _
  exact .bind (.require (hschema _)) fun _ _ ↦ .bind (.require (hschema _)) fun _ _ ↦
    .bind (.mapM htype _) fun _ _ ↦ .bind (.require (hschema _)) fun _ _ ↦
    .bind (.mapM (hproperty _) _) fun _ _ ↦ .bind (.mapM (halias _ _) _) fun _ _ ↦
    .bind (.require (hschema _)) fun _ _ ↦ .bind (.require (hschema _)) fun _ _ ↦ .ok _

/-- A declaration that compiles to the same revision compiles to the same scope. -/
theorem compileScope_eq {hash : ScopeContent → R} (hinj : Function.Injective hash) {db' : Db}
    {d : Declaration} {c c' : Compiled R} (h : compileScope hash db d = .ok c)
    (h' : compileScope hash db' d = .ok c') (hrevision : c'.revision = c.revision) : c' = c := by
  have hcontent : c'.toScopeContent = c.toScopeContent := by
    apply hinj
    rw [← (compileScope_reads h').revision, ← (compileScope_reads h).revision, hrevision]
  obtain ⟨content, revision⟩ := c
  cases hcontent
  cases hrevision
  rfl

end

/-- The attributes of the values and of the claims. -/
def Candidate.attrs (c : Candidate) : List Keyword :=
  c.candidateValues.map (·.1) ++ c.claims.map Claim.attr

theorem store_attr {values : List (Keyword × Stored)} {attr : Keyword} {cardinality : Cardinality}
    {items : List Value} {p : Keyword × Stored} (hp : p ∈ store values attr cardinality items) :
    p.1 = attr ∨ p ∈ values := by
  unfold store at hp
  split at hp
  · exact (mem_assoc hp).imp_left (congrArg Prod.fst)
  · exact (mem_assoc hp).imp_left (congrArg Prod.fst)
  · exact .inr hp

/-- The attributes of what has been decoded are those of bindings. -/
structure Decoded.Bound (bindings : List (Key × Binding)) (d : Decoded) : Prop where
  values : ∀ p ∈ d.values, ∃ b ∈ bindings, b.2.attr = p.1
  claims : ∀ c ∈ d.claims, ∃ b ∈ bindings, b.2.attr = c.attr

theorem Decoded.Bound.entry {java : Java} {bindings : List (Key × Binding)} {candidate : Bool}
    {d : Decoded} (h : d.Bound bindings) (entry : Key × Yaml) :
    (decodeEntry java bindings candidate d entry).Bound bindings := by
  unfold decodeEntry
  split
  · exact ⟨h.values, h.claims⟩
  · exact h
  · next binding hbinding _ =>
    have hmem : ∃ b ∈ bindings, b.2 = binding := ⟨_, mem_of_get? hbinding, rfl⟩
    obtain ⟨b, hb, rfl⟩ := hmem
    split
    · exact ⟨h.values, h.claims⟩
    · next items _ =>
      constructor
      · intro p hp
        dsimp only at hp
        split at hp
        · exact h.values p hp
        · obtain hattr | hold := store_attr hp
          · exact ⟨b, hb, hattr.symm⟩
          · exact h.values p hold
      · intro c hc
        obtain (hold | hreference) | hunique := by simpa only [mem_append] using hc
        · exact h.claims c hold
        · split at hreference
          · obtain rfl := mem_singleton.mp hreference
            exact ⟨b, hb, rfl⟩
          · cases hreference
        · split at hunique
          · split at hunique
            · obtain rfl := mem_singleton.mp hunique
              exact ⟨b, hb, rfl⟩
            · cases hunique
          · cases hunique

theorem decodeRaw_bound (raw : Mapping) (candidate : Bool) :
    (decodeRaw java bindings raw candidate).Bound bindings := by
  have hfold : ∀ (entries : Mapping) (d : Decoded), d.Bound bindings →
      (entries.foldl (decodeEntry java bindings candidate) d).Bound bindings := by
    intro entries
    induction entries with
    | nil => exact fun d hd ↦ hd
    | cons entry entries ih => exact fun d hd ↦ ih _ (hd.entry entry)
  exact hfold raw _ ⟨fun _ hp ↦ absurd hp not_mem_nil, fun _ hc ↦ absurd hc not_mem_nil⟩

theorem decodeCandidate_bound {java : Java} {properties : List (Uuid × Binding)}
    {bindings : List (Key × Binding)} {raw : Mapping} {attr : Keyword}
    (h : attr ∈ (decodeCandidate java properties bindings raw).attrs) :
    ∃ b ∈ bindings, b.2.attr = attr := by
  have hbound : (decodeRaw java bindings raw true).Bound bindings := decodeRaw_bound ..
  obtain hvalue | hclaim := mem_append.mp h
  · obtain ⟨p, hp, rfl⟩ := mem_map.mp hvalue
    exact hbound.values p hp
  · obtain ⟨c, hc, rfl⟩ := mem_map.mp hclaim
    exact hbound.claims c hc

theorem mem_slots {bindings : List (String × Binding)} {b : Key × Binding} (h : b ∈ slots bindings) :
    ∃ b' ∈ bindings, b'.2 = b.2 := by
  obtain ⟨b', hb', rfl⟩ := mem_map.mp h
  exact ⟨b', hb', rfl⟩

end Simmis.Documents.Properties
