import Simmis.Documents.Blocks
import Simmis.Documents.Constraints

/-!
# The canonical stage

Every document with an explicit identity becomes an entity, and so does each of its explicit blocks.
Their values are staged, and then all of them are resolved together, unless a declaration or a
constraint was refused.
-/

namespace Simmis.Documents

open Maps

/-- A page or a block with its types, its candidate and later its values. -/
structure TypedScope where
  types : List (Uuid × Properties.TypeRow)
  candidate : Option Properties.Candidate
  tempid : Option ℤ
  values : List (Keyword × Properties.Stored)

structure CanonicalScopes where
  page : TypedScope
  blocks : List (Uuid × TypedScope)

structure Document where
  id : Option Uuid
  identityStatus : IdentityStatus
  path : String
  content : Option Uuid
  parsed : Parsed
  semantic : Option Blocks.Semantic
  properties : Properties.Decoded
  diagnostics : List Diagnostic
  metadata : Option Metadata.Decoded
  canonical : Option CanonicalScopes

namespace Document

def explicitBlocks (d : Document) : List Block :=
  (d.semantic.map Blocks.Semantic.all).getD [] |>.filter fun block ↦ block.status = .explicit

/-- The identities that a document claims, its own first. -/
def ids (d : Document) : List Uuid := d.id.toList ++ d.explicitBlocks.map Block.id

end Document

namespace Canonical

open Properties Constraints

def pageRole : Uuid := 0x22
def blockRole : Uuid := 0x20
def titleProperty : Uuid := 0x111
def pageTitle : Keyword := kw "S.Page" "title"

def maxScopes : ℕ := 256
def maxEntities : ℕ := 20000

def declaration (role : Uuid) (scope : Metadata.Scope) : Declaration :=
  ⟨(scope.types ++ [role]).dedup.insertionSort fun a b ↦ Uuid.le a b, scope.bindings⟩

variable {R : Type} (hash : ScopeContent → R) (java : Java) (db : Db)

def compileDeclaration (declaration : Declaration) : Except Error (Compiled R) := do
  let compiled ← compileScope hash db declaration
  let keeps (id : Uuid) (name : String) : Bool :=
    (get? compiled.types id).all fun row ↦ row.name = .one (.string name)
  require (keeps pageRole "S/Page" ∧ keeps blockRole "S/Block") (.canonical .changedStructuralRole)
  return compiled

abbrev Cache (R : Type) := List (Declaration × Compiled R)

def compileOnce (cache : Cache R) (declaration : Declaration) :
    Except Error (Compiled R × Cache R) :=
  match get? cache declaration with
  | some compiled => .ok (compiled, cache)
  | none => do
    require (cache.length < maxScopes) (.canonical .tooManyTypedScopes)
    let compiled ← compileDeclaration hash db declaration
    return (compiled, assoc cache declaration compiled)

/-- The definition that the generated title of a page must have. -/
def isTitle (title : Binding) : Bool :=
  let m := title.morphism
  title.attr = pageTitle ∧ title.owned ∧ m.name = .one (.string "S/Page/title") ∧
    m.src.under EntityRow.uuid = .one (.uuid pageRole) ∧ title.cardinality = .one ∧
    title.schema.valueType = .string ∧ m.validation = .none ∧
    m.dst.one?.all (fun dst ↦ dst.baseType = .none) ∧ ¬ (m.dst.under Codomain.enumValues).isTruthy

/-- The candidate of a page, with its path as the generated title. -/
def pageCandidate (compiled : Compiled R) (raw : Mapping) (path : String) :
    Except Error Candidate :=
  match get? compiled.properties titleProperty with
  | none => .error (.canonical .unsupportedGeneratedTitleDefinition)
  | some title => do
    require (isTitle title) (.canonical .unsupportedGeneratedTitleDefinition)
    require (∀ b ∈ compiled.bindings, b.2.attr ≠ pageTitle)
      (.canonical .fileBindingTargetsGeneratedTitle)
    let slot := Key.generated titleProperty
    return decodeCandidate java compiled.properties (slots compiled.bindings ++ [(slot, title)])
      (raw ++ [(slot, .str path)])

structure BlocksState (R : Type) where
  cache : Cache R
  blocks : List (Uuid × TypedScope)
  diagnostics : List Diagnostic

def prepareBlock (decoded : Metadata.Decoded) (s : BlocksState R) (block : Block) :
    Except Error (BlocksState R) := do
  let scope := (get? decoded.blocks block.id).getD ⟨[], [], []⟩
  let (compiled, cache) ← compileOnce hash db s.cache (declaration blockRole scope)
  let values := decodeCandidate java compiled.properties (slots compiled.bindings) scope.values
  return {
    cache
    blocks := assoc s.blocks block.id ⟨compiled.types, some values, none, []⟩
    diagnostics := s.diagnostics ++ values.diagnostics }

structure State (R : Type) where
  documents : List Document
  cache : Cache R
  count : ℕ
  diagnostics : List Diagnostic

/-- The page and the blocks of a document with an explicit identity. -/
def prepareExplicit (s : State R) (document : Document) (decoded : Metadata.Decoded) :
    Except Error (State R) := do
  let explicit := document.explicitBlocks
  let count := s.count + 1 + explicit.length
  require (count ≤ maxEntities) (.canonical .tooManyCanonicalEntities)
  require (∀ id ∈ document.ids, db.eid id = none) (.canonical .unmigratedEntityIdentityCollision)
  let (compiled, cache) ← compileOnce hash db s.cache (declaration pageRole decoded.page)
  let values ← pageCandidate java compiled decoded.page.values document.path
  let blocks ← explicit.foldlM (prepareBlock hash java db decoded) ⟨cache, [], []⟩
  let scopes : CanonicalScopes := ⟨⟨compiled.types, some values, none, []⟩, blocks.blocks⟩
  let diagnostics := values.diagnostics ++ blocks.diagnostics
  return {
    documents := s.documents ++ [{ document with metadata := decoded, canonical := scopes }]
    cache := blocks.cache
    count
    diagnostics := s.diagnostics ++ diagnostics.map (.canonical document.path) }

/-- One document, without the handler of its refusals. -/
def prepareDocument (s : State R) (document : Document) : Except Error (State R) := do
  let properties := document.parsed.properties
  let decoded := Metadata.decode properties (document.explicitBlocks.map Block.id)
  require (decoded.status ≠ .invalid) (.canonical .invalidTypedDeclarations)
  require (document.identityStatus = .explicit ∨
    (get? (properties.getD []) (.text "simmis")).isNone)
    (.canonical .canonicalDocumentNeedsExplicitIdentity)
  if document.identityStatus = .explicit then prepareExplicit hash java db s document decoded
  else return { s with documents := s.documents ++ [document] }

/-- A refusal becomes a diagnostic; nothing is done after the first. -/
def prepareStep (s : State R) (document : Document) : Except Error (State R) :=
  if s.diagnostics.isEmpty then
    match prepareDocument hash java db s document with
    | .ok s' => .ok s'
    | .error (.canonical reason) => .ok (refused (.canonical reason))
    | .error (.schema reason) => .ok (refused (.schema reason))
    | .error e => .error e
  else .ok s
where
  refused (reason : Error) : State R :=
    { s with
      documents := s.documents ++ [document]
      diagnostics := s.diagnostics ++ [.invalidCanonicalDocument document.path reason] }

def TypedScope.entity (scope : TypedScope) (id : Uuid) : Option Entity :=
  scope.candidate.map fun candidate ↦ ⟨id, scope.types.map (·.1), candidate⟩

/-- The entities of a document that has been staged. -/
def entities (document : Document) : List Entity :=
  match document.canonical, document.id with
  | some scopes, some id =>
    (TypedScope.entity scopes.page id).toList ++
      scopes.blocks.filterMap fun b ↦ TypedScope.entity b.2 b.1
  | _, _ => []

def resolvedScope (resolved : List ResolvedEntity) (id : Option Uuid) (scope : TypedScope) :
    TypedScope :=
  match resolved.find? fun r ↦ some r.id = id with
  | some r => { scope with candidate := none, tempid := r.tempid, values := r.values }
  | none => { scope with candidate := none }

def resolvedDocument (resolved : List ResolvedEntity) (document : Document) : Document :=
  let resolve (scopes : CanonicalScopes) : CanonicalScopes :=
    ⟨resolvedScope resolved document.id scopes.page,
      scopes.blocks.map fun b ↦ (b.1, resolvedScope resolved (some b.1) b.2)⟩
  { document with canonical := document.canonical.map resolve }

structure Result (R : Type) where
  documents : List Document
  diagnostics : List Diagnostic
  dependencies : Option Dependencies
  scopes : List (Declaration × R)

/-- `resolve-values`: the documents, the diagnostics and the dependencies. -/
def resolveValues (documents : List Document) (diagnostics : List Diagnostic) :
    Except Error (List Document × List Diagnostic × Option Dependencies) :=
  if diagnostics.isEmpty then
    match resolveSelection db (documents.flatMap entities) with
    | .ok (resolved, dependencies) =>
      .ok (documents.map (resolvedDocument resolved), diagnostics, some dependencies)
    | .error (.constraints reason) =>
      .ok (documents, diagnostics ++ [.invalidSelectionConstraints reason], none)
    | .error e => .error e
  else .ok (documents, diagnostics, none)

/-- The revisions of the compiled scopes, in the order of their printed declarations. -/
def scopes (prStr : Declaration → String) (cache : Cache R) : List (Declaration × R) :=
  (cache.insertionSort fun a b ↦ Text.le (prStr a.1) (prStr b.1)).map fun c ↦ (c.1, c.2.revision)

def prepare (prStr : Declaration → String) (db : Db) (documents : List Document) :
    Except Error (Result R) := do
  let s ← documents.foldlM (prepareStep hash java db) ⟨[], [], 0, []⟩
  let (documents, diagnostics, dependencies) ← resolveValues db s.documents s.diagnostics
  return ⟨documents, diagnostics, dependencies, scopes prStr s.cache⟩

/-- `source-available?`; its refusals are its own. -/
def sourceAvailable (documents : List Document) : Bool :=
  let explicit := documents.filter fun d ↦ d.identityStatus = .explicit
  let ids := explicit.flatMap Document.ids
  ids.length ≤ maxEntities ∧ (∀ id ∈ ids, db.eid id = none) ∧
    ∀ d ∈ explicit, (db.avet pageTitle (.string d.path)).isEmpty

variable [DecidableEq R]

/-- Every scope compiles to its revision again. -/
def scopesCurrent (db : Db) : List (Declaration × R) → Except Error Bool
  | [] => .ok true
  | (declaration, revision) :: rest => do
    let compiled ← compileScope hash db declaration
    if compiled.revision = revision then scopesCurrent db rest else return false

/-- `current?`; a definition that does not compile any more is not current. -/
def isCurrent (db : Db) (scopes : List (Declaration × R)) (dependencies : Option Dependencies)
    (ownDerived : Bool) : Except Error Bool :=
  match scopesCurrent hash db scopes with
  | .ok true => .ok (dependencies.any fun d ↦ Constraints.isCurrent db d ownDerived)
  | .ok false => .ok false
  | .error (.schema _) => .ok false
  | .error e => .error e

end Canonical

end Simmis.Documents
