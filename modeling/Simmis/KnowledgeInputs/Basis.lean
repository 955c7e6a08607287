import Simmis.KnowledgeInputs.Scope

/-!
# The publication basis

When a workflow is admitted, the host records which files and directories there are in the folder
that its output will go to. What stands at a target of the output is later decided from this record
and not from the worktree.
-/

namespace Simmis.KnowledgeInputs

open Documents Maps

def maxIndexEntries : ℕ := 20000
def maxBasisBytes : ℕ := 8 * 1024 * 1024
def workDirPath : Keyword := kw "geschichte.work-dir" "path"

/-- The default target that the host admits. -/
structure Identity where
  registrySystem : Uuid
  runtimeSystem : String
deriving DecidableEq

/-- What identifies a worktree; a value of another type is as good as none. -/
structure Target where
  repository : Option Uuid
  store : Option Uuid
  backend : Option Keyword
  branch : Option Keyword
  ref : Option String
  identity : Option Identity
deriving DecidableEq

structure Basis where
  id : Option Uuid
  version : ℕ
  root : String
  target : Target
  files : List (String × View.FileEntry)
  directories : List String
  scope : Option Scope
deriving DecidableEq

/-- What the host supplies besides: the target of a database, and the printer and the hashes of a
basis. -/
structure Host (R : Type) extends View.Host R where
  target : Db → Target
  printBasis : Basis → String
  hashBasis : Basis → Uuid

/-- `wiki-path?` -/
def isWikiPath (path : String) : Bool :=
  isBounded 1 path ∧ (path = "wiki" ∨ View.startsWith path "wiki/") ∧ ¬ View.hasForbidden path ∧
    (Text.segments path).all (View.isSegment [".", ".."])

/-- `host-target?` -/
def isHostTarget (identity : Identity) : Bool :=
  1 ≤ Text.count identity.runtimeSystem ∧ Text.count identity.runtimeSystem ≤ 4096 ∧
    ¬ Text.isBlank identity.runtimeSystem

/-- `target-schema` -/
def Target.isValid (target : Target) : Bool :=
  target.repository.isSome ∧ target.store.isSome ∧ target.backend.isSome ∧ target.branch.isSome ∧
    (target.ref.any fun ref ↦ 1 ≤ Text.count ref ∧ Text.count ref ≤ 4096) ∧
    target.identity.all isHostTarget

/-- Nothing of the target is missing. -/
def Target.isPresent (target : Target) : Bool :=
  target.repository.isSome ∧ target.store.isSome ∧ target.backend.isSome ∧ target.branch.isSome ∧
    target.ref.any fun ref ↦ ¬ Text.isBlank ref

/-- The metadata of a file in both schemas. -/
def isEntry (entry : View.FileEntry) : Bool :=
  entry.content.isSome ∧ (entry.size.any fun n ↦ 0 ≤ n ∧ n < 2 ^ 63) ∧
    entry.mode.any fun n ↦ 0 ≤ n ∧ n < 2 ^ 31

namespace Basis

def paths (basis : Basis) : List String := basis.files.map (·.1) ++ basis.directories

/-- What both schemas ask for, with their rule for a path. -/
def fitsSchema (isPath : String → Bool) (basis : Basis) : Bool :=
  basis.id.isSome ∧ basis.target.isValid ∧ basis.files.length ≤ maxIndexEntries ∧
    (basis.files.all fun file ↦ isEntry file.2) ∧ basis.directories.length ≤ maxIndexEntries ∧
    basis.paths.all isPath

/-- `v1-schema` -/
def fitsV1 (basis : Basis) : Bool :=
  basis.version = 1 ∧ basis.root = "wiki" ∧ basis.scope = none ∧ basis.fitsSchema isWikiPath

/-- `v2-schema` -/
def fitsV2 (basis : Basis) : Bool :=
  basis.version = 2 ∧ isBounded 0 basis.root ∧ basis.scope.any Scope.isValid ∧
    basis.fitsSchema (isBounded 1)

end Basis

variable {R : Type} (host : Host R)

/-- A path of a basis of version 2. -/
def checkOccupied (root path : String) : Except Error Unit := do
  checkPath host.toHost path
  require (containsPath root path ∨ containsPath path root) (.publication .outsideScope)

variable (basis : Basis)

/-- The checks of a basis of version 2 before its schema. -/
def checkScope : Except Error Unit := do
  let scope ← demand basis.scope (.scope .invalid)
  let scope ← normalizeScope host.toHost scope
  require (basis.root = scope.destinationRoot) (.publication .rootMismatch)
  basis.paths.forM (checkOccupied host basis.root)

/-- `validate!` -/
def validate : Except Error Basis := do
  (if basis.version = 2 then checkScope host basis else .ok ())
  require ((basis.fitsV1 ∨ basis.fitsV2) ∧ basis.target.ref.any (fun ref ↦ ¬ Text.isBlank ref) ∧
      basis.files.length + basis.directories.length ≤ maxIndexEntries ∧ basis.directories.Nodup ∧
      (host.printBasis basis).utf8ByteSize ≤ maxBasisBytes ∧
      basis.id = some (host.hashBasis { basis with id := none }))
    (.publication .invalid)
  return basis

def pathOf (d : Datom) : String :=
  match d.v with
  | .string path => path
  | _ => ""

variable (db : Db)

/-- The datoms of an attribute, in the order of their paths. -/
def byPath (attr : Keyword) : List Datom :=
  (db.aevt attr).insertionSort fun a b ↦ Text.le (pathOf a) (pathOf b)

/-- `d/index-range` from `root/` to `root0` -/
def indexRange (attr : Keyword) (root : String) : List Datom :=
  (byPath db attr).filter fun d ↦ inRange root (pathOf d)

variable (isScoped : Bool)

/-- The datoms of an attribute at the root, below it or on the way to it. -/
def rows (root : String) (attr : Keyword) : List Datom :=
  if root = "" then (byPath db attr).take (maxIndexEntries + 1)
  else
    (if isScoped then (pathParents root).flatMap fun path ↦ db.avet attr (.string path) else []) ++
      db.avet attr (.string root) ++
      ((indexRange db attr root).take (maxIndexEntries + 1)).filter fun d ↦ pathOf d ≠ root ++ "0"

def occupancy (root : String) : List Datom :=
  (rows db isScoped root View.workPath ++ rows db isScoped root workDirPath).take
    (maxIndexEntries + 1)

/-- `files/entry` -/
def fileAt (path : String) : Option View.FileEntry :=
  (db.avet View.workPath (.string path)).head?.map fun d ↦ View.fileEntry db d.e

/-- A file of the basis. -/
def publicationEntry (d : Datom) : Except Error (String × View.FileEntry) := do
  checkPath host.toHost (pathOf d)
  let metadata ← demand (fileAt db (pathOf d)) (.refused .invalidPublicationEntry)
  require (metadata.content.isSome ∧ (metadata.size.any fun n ↦ 0 ≤ n) ∧ metadata.mode.isSome)
    (.refused .invalidPublicationEntry)
  return (pathOf d, metadata)

def explicitDirectory (d : Datom) : Except Error String := do
  checkPath host.toHost (pathOf d)
  return pathOf d

/-- Add a directory, within the bound on all entries. -/
def addDirectory (files : ℕ) (dirs : List String) (path : String) : Except Error (List String) := do
  let dirs := dirs.insert path
  require (files + dirs.length ≤ maxIndexEntries) (.refused .tooManyPublicationEntries)
  return dirs

/-- At or under the root or, under a scope, on the way to it. -/
def isNear (root path : String) : Bool :=
  containsPath root path || isScoped && containsPath path root

/-- The files and the directories of a basis. -/
def listOccupancy (root : String) :
    Except Error (List (String × View.FileEntry) × List String) := do
  let occupied := occupancy db isScoped root
  require (occupied.length ≤ maxIndexEntries) (.refused .tooManyPublicationEntries)
  let entries ← (occupied.filter fun d ↦ d.a = View.workPath).mapM (publicationEntry host db)
  let files := sorted Text.le entries
  let explicit ← (occupied.filter fun d ↦ d.a = workDirPath).mapM (explicitDirectory host)
  let candidates := explicit ++ (files.map (·.1) ++ explicit).flatMap pathParents
  let directories ← (candidates.filter (isNear isScoped root)).foldlM (addDirectory files.length) []
  return (files, directories.insertionSort fun a b ↦ Text.le a b)

def checkOutputScope (outputScope : Option Scope) : Except Error Unit :=
  match outputScope with
  | some scope => normalizeScope host.toHost scope >>= fun _ ↦ .ok ()
  | none => .ok ()

/-- `publication-basis` -/
def publicationBasis (identity : Option Identity) (outputScope : Option Scope) :
    Except Error Basis := do
  checkOutputScope host outputScope
  require (identity.all isHostTarget) (.refused .invalidDefaultTarget)
  let root := (outputScope.map Scope.destinationRoot).getD "wiki"
  let target : Target := { host.target db with identity }
  require target.isPresent (.refused .missingPublicationTarget)
  let (files, directories) ← listOccupancy host db outputScope.isSome root
  let version := if outputScope.isSome then 2 else 1
  let basis : Basis := ⟨none, version, root, target, files, directories, outputScope⟩
  require ((host.printBasis basis).utf8ByteSize ≤ maxBasisBytes) (.refused .publicationBasisTooLarge)
  validate host { basis with id := some (host.hashBasis basis) }

/-- The check of a target against the version of a basis. -/
def checkTarget (path : String) : Except Error Unit := do
  if basis.version = 2 then
    let scope ← demand basis.scope (.scope .invalid)
    targetPath host.toHost scope path
  else
    require (basis.version = 1 ∧ basis.root = "wiki" ∧ View.startsWith path "wiki/" ∧
      View.isMarkdown path) (.refused .invalidPublicationPath)

/-- `publication-before`: the metadata of the file that is present, if there is one. -/
def publicationBefore (path : String) : Except Error (Option View.FileEntry) := do
  checkPath host.toHost path
  checkTarget host basis path
  require (path ∉ basis.directories ∧ ∀ parent ∈ pathParents path, get? basis.files parent = none)
    (.refused .publicationPathCollision)
  match get? basis.files path with
  | some metadata => do
    require (metadata.mode = some host.defaultMode) (.refused .unsupportedPublicationTarget)
    return some metadata
  | none => return none

end Simmis.KnowledgeInputs
