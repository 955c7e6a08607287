import Simmis.Documents.Canonical

/-!
# Knowledge views

A view is prepared from one database value: the Markdown files of the worktree are selected and
parsed, and their declarations resolved. It is current for a database value if all of that holds
still.
-/

namespace Simmis.Documents

open Maps Properties Canonical

/-- `documents/schema` -/
def projectionAttributes : List (Keyword × AttrSchema) :=
  let node (name : String) (type : DbType) : Keyword × AttrSchema :=
    (kw "document.node" name, ⟨type, .one, none, none⟩)
  let block (name : String) (type : DbType) : Keyword × AttrSchema :=
    (kw "document.block" name, ⟨type, .one, none, none⟩)
  [(kw "document" "id", ⟨.uuid, .one, some .identity, none⟩),
    (kw "document" "path", ⟨.string, .one, some .identity, none⟩),
    (kw "document" "source-content", ⟨.ref, .one, none, none⟩),
    (kw "document" "nodes", ⟨.ref, .many, none, some true⟩),
    (kw "document.node" "children", ⟨.ref, .many, none, some true⟩),
    (kw "document" "blocks", ⟨.ref, .many, none, some true⟩),
    (kw "document.block" "children", ⟨.ref, .many, none, some true⟩),
    (kw "document.block" "id", ⟨.uuid, .one, some .identity, none⟩),
    (kw "document" "revision", ⟨.uuid, .one, none, none⟩),
    (kw "document" "projection-version", ⟨.long, .one, none, none⟩),
    (kw "document" "valid?", ⟨.boolean, .one, none, none⟩),
    node "kind" .keyword, node "heading-level" .long, node "ordinal" .long,
    node "checked?" .boolean, node "table-header?" .boolean, node "table-alignment" .keyword,
    node "from" .long, node "to" .long, block "from" .long, block "to" .long,
    block "ordinal" .long, block "identity-status" .keyword]

namespace View

def maxFiles : ℕ := 200
def maxScannedEntries : ℕ := 20000
def maxTotalBytes : ℕ := 8 * 1024 * 1024
def maxTotalNodes : ℕ := 100000
def maxSourceBytes : ℤ := 2097152

/-- `space/profile` -/
def profile : Keyword := kw "simmis" "canonical-knowledge-v1"

def workPath : Keyword := kw "geschichte.work" "path"
def contentId : Keyword := kw "geschichte.content" "id"

/-- The options of a view; `root` is an old spelling that is refused. -/
structure Options where
  root : Option String
  roots : List String
  excludePrefixes : List String
  schemaRevision : Option String
  propertyBindings : List (String × Uuid)
  entityProfile : Option Keyword

structure FileEntry where
  content : Option Uuid
  size : Option ℤ
  mode : Option ℤ
deriving DecidableEq

/-- The codecs that a selection names besides are constants. -/
structure Selection (R : Type) where
  repositoryId : Uuid
  roots : List String
  excludePrefixes : List String
  files : List (String × FileEntry)
  propertySchema : R
  schemaRevision : String
  entityProfile : Option Keyword
deriving DecidableEq

/-- `query/repository` -/
structure Repository where
  id : Option Uuid
  profile : Option Keyword

/-- What the host supplies: the files, the parser, conversions, the printer and the hashes. -/
structure Host (R : Type) where
  repository : Db → Repository
  defaultMode : ℤ
  readById : Db → Uuid → Option (List UInt8)
  workspacePath : String → String
  parse : List UInt8 → Except Error Parsed
  java : Java
  prStr : Declaration → String
  hashScope : ScopeContent → R
  hashBindings : List (String × Binding) → R
  hashDocument : Uuid → String → Uuid
  hashBlock : Uuid → Uuid → ℕ → ℕ → Uuid
  hashView : Selection R → Option (List (Declaration × R) × Option Constraints.Dependencies) → R

def isSegment (excluded : List String) (segment : String) : Bool :=
  ¬ Text.isBlank segment ∧ segment ∉ excluded

def hasForbidden (path : String) : Bool := path.toList.any fun c ↦ c = '\\' ∨ Text.isControl c

/-- A root is empty or an exact repository-relative folder. -/
def isRoot (root : String) : Bool :=
  Text.count root ≤ 512 ∧ ¬ hasForbidden root ∧ (root = "" ∨
    (Text.segments root).all (isSegment [".", "..", ".git", ".geschichte"]))

def policyPrefixes (paths : List String) : Except Error (List String) := do
  require (paths.length ≤ 64) (.view .invalidSelectionPolicy)
  require (∀ path ∈ paths, isRoot path) (.view .invalidRoot)
  let folders := paths.map fun path ↦ if path = "" then "" else path ++ "/"
  return folders.dedup.insertionSort fun a b ↦ Text.le a b

def startsWith (path folder : String) : Bool := folder.toList.isPrefixOf path.toList

/-- `$` also matches before a line terminator at the end. -/
def withoutLineEnd (reversed : List Char) : List Char :=
  match reversed with
  | '\n' :: '\r' :: rest => rest
  | c :: rest => if c ∈ ['\n', '\r', '\u0085', '\u2028', '\u2029'] then rest else reversed
  | [] => []

/-- `#"(?i)\.(md|markdown)$"` -/
def isMarkdown (path : String) : Bool :=
  let reversed := (withoutLineEnd path.toList.reverse).map Char.toLower
  [".md", ".markdown"].any fun extension ↦ extension.toList.reverse.isPrefixOf reversed

def isSelected (roots excluded : List String) (path : String) : Bool :=
  roots.any (startsWith path) ∧ ¬ excluded.any (startsWith path) ∧ isMarkdown path

def long? (p : Pulled Value) : Option ℤ :=
  match p with
  | .one (.long n) => some n
  | _ => none

/-- An entry of the worktree. -/
def fileEntry (db : Db) (e : ℤ) : FileEntry :=
  let content := db.pulled e (kw "geschichte.work" "content")
  { content := ((content.nested some).one?.map fun c ↦ db.pulled c contentId).bind Pulled.uuid?
    size := long? (db.pulled e (kw "geschichte.work" "size"))
    mode := long? (db.pulled e (kw "geschichte.work" "mode")) }

variable {R : Type} (host : Host R)

/-- `files/path!` -/
def isPath (path : String) : Bool :=
  1 ≤ Text.count path ∧ Text.count path ≤ 512 ∧ ¬ hasForbidden path ∧
    (Text.segments path).all (isSegment [".", ".."]) ∧ "/" ++ path = host.workspacePath path

def checkFile (file : String × FileEntry) : Except Error Unit := do
  require (isPath host file.1) .path
  require (file.2.content.isSome ∧ (file.2.size.any fun n ↦ 0 ≤ n ∧ n ≤ maxSourceBytes) ∧
    file.2.mode = some host.defaultMode) (.view .unsupportedFile)

/-- `space/provisioned?` -/
def isProvisioned (db : Db) : Bool :=
  db.contains (kw "document.repository" "profile") ∧ (host.repository db).profile = some profile

/-- The selected files, by their paths. -/
def selectedFiles (db : Db) (roots excluded : List String) : List (String × FileEntry) :=
  sorted Text.le <| (db.aevt workPath).filterMap fun d ↦
    match d.v with
    | .string path =>
      if isSelected roots excluded path then some (path, fileEntry db d.e) else none
    | _ => none

def selection (db : Db) (options : Options) : Except Error (Selection R) := do
  require (options.root = none) (.view .invalidSelectionPolicy)
  require (options.entityProfile.all (· = profile)) (.view .unsupportedEntityProfile)
  require (options.entityProfile.isSome → isProvisioned host db)
    (.view .unprovisionedCanonicalSpace)
  require (options.entityProfile.isSome → options.propertyBindings = [])
    (.view .mixedPropertyProfiles)
  let revision ← demand options.schemaRevision (.view .missingSchemaRevision)
  let roots ← policyPrefixes options.roots
  let excluded ← policyPrefixes options.excludePrefixes
  let repositoryId ← demand (host.repository db).id (.view .missingRepository)
  require ((db.aevt workPath).length ≤ maxScannedEntries) (.view .tooManyWorktreeEntries)
  let files := selectedFiles db roots excluded
  require (files.length ≤ maxFiles) (.view .tooManyFiles)
  files.forM (checkFile host)
  require ((files.map fun file ↦ file.2.size.getD 0).sum ≤ maxTotalBytes)
    (.view .tooManySourceBytes)
  let schema ← compileSchema host.hashBindings db options.propertyBindings
  return ⟨repositoryId, roots, excluded, files, schema.2, revision, options.entityProfile⟩

def hasSchema (db : Db) (attr : Keyword) (p : AttrSchema → Bool) : Bool := (db.attr? attr).any p

/-- `projection-schema!` lets the schema of one attribute pass. -/
def fitsProjection (expected actual : AttrSchema) : Bool :=
  actual.valueType = expected.valueType ∧ actual.cardinality = expected.cardinality ∧
    actual.unique = expected.unique ∧
    (actual.isComponent = some true ↔ expected.isComponent = some true)

def projectionSchema (db : Db) : Except Error Unit :=
  require (∀ expected ∈ projectionAttributes,
    (db.attr? expected.1).all (fitsProjection expected.2)) (.view .incompatibleProjectionSchema)

/-- `canonical-base!` -/
def canonicalBase (db : Db) (ownDerived : Bool) : Except Error Unit := do
  require (hasSchema db entityUuid (fun s ↦ s.valueType = .uuid ∧ s.cardinality = .one ∧
      s.unique = some .identity) ∧
    hasSchema db instanceOfRole fun s ↦ s.valueType = .ref ∧ s.cardinality = .many)
    (.view .incompatibleCanonicalIdentitySchema)
  require (∀ attr ∈ projectionAttributes, db.contains attr.1) (.view .missingCanonicalDocumentSchema)
  projectionSchema db
  require (hasSchema db pageTitle fun s ↦ s.valueType = .string ∧ s.cardinality = .one ∧
    s.unique = some .value) (.view .incompatibleCanonicalPageTitle)
  require (ownDerived ∨ ∀ attr ∈ projectionAttributes, (db.aevt attr.1).isEmpty)
    (.view .derivedDbIsNotCanonicalSource)

def childAttributes : List Keyword :=
  [kw "document" "nodes", kw "document.node" "children", kw "document" "blocks",
    kw "document.block" "children"]

/-- The entities below an entity of the projection. -/
def projected (db : Db) (e : ℤ) : List ℤ :=
  childAttributes.flatMap fun attr ↦
    match (db.pulled e attr).nested some with
    | .none => []
    | .one child => [child]
    | .many children => children

/-- The loop over the pending entities, the last one first. Each entity is expanded once. -/
def reachable (db : Db) (owned : List ℤ) : ℕ → List ℤ → List ℤ → Except Error (List ℤ)
  | _, [], seen => .ok seen
  | 0, _ :: _, seen => .ok seen
  | fuel + 1, e :: pending, seen =>
    if e ∈ seen then reachable db owned fuel pending seen
    else do
      let children := projected db e
      require (∀ child ∈ children, child ∈ owned) (.view .foreignProjectionChild)
      reachable db owned fuel (children.reverse ++ pending) (e :: seen)

/-- `projection-ownership!` -/
def projectionOwnership (db : Db) : Except Error Unit := do
  projectionSchema db
  let of (attr : Keyword) : List ℤ := (db.aevt attr).map Datom.e
  let roots := of (kw "document" "id")
  let nodes := of (kw "document.node" "kind")
  let blocks := of (kw "document.block" "id")
  let owned := roots ++ nodes ++ blocks
  require (roots.length ≤ maxFiles ∧ nodes.length + blocks.length ≤ maxTotalNodes)
    (.view .tooManyExistingProjectionEntities)
  let seen ← reachable db owned (roots.length + db.datoms.length) roots.reverse []
  require ((∀ e ∈ owned, e ∈ seen) ∧ ∀ e ∈ seen, e ∈ owned) (.view .orphanProjectionEntity)
  require (∀ e ∈ owned, ∀ d ∈ db.eavt e, d.a ∈ projectionAttributes.map (·.1))
    (.view .authoredProjectionEntity)
  require (∀ d ∈ db.datoms, (∃ e ∈ owned, d.v = .ref e) → d.e ∈ owned ∧ d.a ∈ childAttributes)
    (.view .authoredReferenceToProjection)

/-- The size that is recorded for a content. -/
def contentSize (db : Db) (id : Uuid) : Option ℤ :=
  (db.avet contentId (.uuid id)).head?.bind fun d ↦
    long? (db.pulled d.e (kw "geschichte.content" "size"))

/-- One file in `analyze`, after the documents before it and their number of nodes. -/
def analyzeFile (db : Db) (repositoryId : Uuid) (bindings : List (String × Binding))
    (s : List Document × ℕ) (file : String × FileEntry) : Except Error (List Document × ℕ) := do
  let (path, entry) := file
  require (entry.size = entry.content.bind (contentSize db)) (.view .contentSizeMismatch)
  let bytes ← demand (entry.content.bind (host.readById db)) (.view .contentSizeMismatch)
  require (entry.size = some (bytes.length : ℤ)) (.view .contentSizeMismatch)
  let parsed ← host.parse bytes
  let (id, status, refused) := identityDocument host.hashDocument repositoryId path parsed
  let semantic ← id.mapM fun id ↦ Blocks.project host.hashBlock id parsed
  let values := Properties.decode host.java bindings (parsed.properties.getD [])
  let nodes := s.2 + 1 + (parsed.nodes.flatMap Node.nodes).length
  require (nodes ≤ maxTotalNodes) (.view .tooManySyntaxNodes)
  let diagnostics := (semantic.map Blocks.Semantic.diagnostics).getD parsed.diagnostics
  let document : Document :=
    { id, identityStatus := status, path, content := entry.content, parsed, semantic
      properties := values
      diagnostics := diagnostics ++ refused ++ values.diagnostics
      metadata := none
      canonical := none }
  return (s.1 ++ [document], nodes)

/-- Identities that occur twice, those of the blocks reported where the block is. -/
def duplicates (documents : List Document) : List Diagnostic :=
  let blocks (d : Document) : List Block := (d.semantic.map Blocks.Semantic.all).getD []
  let ids := documents.filterMap Document.id
  let all := documents.flatMap fun d ↦ d.id.toList ++ (blocks d).map Block.id
  let repeated (d : Document) : List Diagnostic :=
    if d.id.any fun id ↦ 1 < ids.count id then [.duplicateDocumentId d.path] else []
  let shared (d : Document) : List Diagnostic :=
    ((blocks d).filter fun block ↦ 1 < all.count block.id).map fun block ↦
      .duplicateSemanticId d.path block.span.start
  documents.flatMap repeated ++ documents.flatMap shared

structure Analysis (R : Type) where
  selection : Selection R
  documents : List Document
  canonicalResult : Option (Canonical.Result R)
  diagnostics : List Diagnostic

/-- The canonical stage, where the options ask for it. -/
def canonicalStage (db : Db) (options : Options) (documents : List Document) :
    Except Error (Option (Canonical.Result R)) :=
  if options.entityProfile.isSome then
    some <$> Canonical.prepare host.hashScope host.java host.prStr db documents
  else .ok none

/-- `analyze` of the files as they are. -/
def analyze (db : Db) (options : Options) : Except Error (Analysis R) := do
  let selected ← selection host db options
  (if options.entityProfile.isSome then canonicalBase db false else .ok ())
  projectionOwnership db
  let schema ← compileSchema host.hashBindings db options.propertyBindings
  let documents ← selected.files.foldlM
    (analyzeFile host db selected.repositoryId schema.1) ([], 0)
  let result ← canonicalStage host db options documents.1
  let diagnostics := documents.1.flatMap Document.diagnostics ++
    (result.map Canonical.Result.diagnostics).getD [] ++ duplicates documents.1
  return ⟨selected, documents.1, result, diagnostics⟩

/-- A step of the transaction that derives the database of a view from its source. -/
inductive Tx
  | install (attr : Keyword × AttrSchema)
  | retractEntity (e : ℤ)
  | project (document : Document)

inductive Status
  | ready
  | invalid
deriving DecidableEq

end View

/-- A view; its database is the source with `tx` applied, if any. -/
structure KnowledgeView (R : Type) where
  id : R
  selection : View.Selection R
  documents : List Document
  diagnostics : List Diagnostic
  typedScopes : List (Declaration × R)
  constraintDependencies : Option Constraints.Dependencies
  status : View.Status
  tx : List View.Tx

namespace View

variable {R : Type} (host : Host R)

/-- The transaction of a ready view. -/
def transaction (db : Db) (documents : List Document) (isCanonical : Bool) : List Tx :=
  let missing := projectionAttributes.filter fun attr ↦ ¬ db.contains attr.1
  let old := if isCanonical then [] else (db.aevt (kw "document" "id")).map Datom.e
  missing.map .install ++ old.map .retractEntity ++ documents.map .project

def prepare (db : Db) (options : Options) : Except Error (KnowledgeView R) := do
  let analysis ← analyze host db options
  let ready := analysis.diagnostics.isEmpty
  let typed := analysis.canonicalResult.map fun r ↦ (r.scopes, r.dependencies)
  let documents := (analysis.canonicalResult.map Canonical.Result.documents).getD analysis.documents
  return {
    id := host.hashView analysis.selection typed
    selection := analysis.selection
    documents := analysis.documents
    diagnostics := analysis.diagnostics
    typedScopes := (typed.map (·.1)).getD []
    constraintDependencies := typed.bind (·.2)
    status := if ready then .ready else .invalid
    tx := if ready then transaction db documents options.entityProfile.isSome else [] }

variable [DecidableEq R]

/-- The other checks of a canonical view; `ownDerived` says that `db` is its own database. -/
def recheckCanonical (db : Db) (view : KnowledgeView R) (ownDerived : Bool) :
    Except Error Bool := do
  canonicalBase db ownDerived
  let typed ← Canonical.isCurrent host.hashScope db view.typedScopes view.constraintDependencies
    ownDerived
  return typed ∧ (ownDerived ∨ sourceAvailable db view.documents)

/-- The body of `current?`. -/
def recheck (db : Db) (options : Options) (view : KnowledgeView R) (ownDerived : Bool) :
    Except Error Bool := do
  let selected ← selection host db options
  if view.selection = selected then
    if options.entityProfile.isSome then recheckCanonical host db view ownDerived
    else return true
  else return false

/-- `current?`; a refusal of the view itself is an answer under the canonical profile. -/
def isCurrent (db : Db) (options : Options) (view : KnowledgeView R) (ownDerived : Bool) :
    Except Error Bool :=
  match recheck host db options view ownDerived with
  | .error (.view reason) =>
    if options.entityProfile.isSome then .ok false else .error (.view reason)
  | result => result

end View

end Simmis.Documents
