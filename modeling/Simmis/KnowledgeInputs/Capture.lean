import Simmis.KnowledgeInputs.Occupancy
import Simmis.KnowledgeInputs.Selection

/-!
# Frozen evidence

A capture copies the bytes of the selected files beside their manifest. It is later verified without
looking at the database again: the manifest has to agree with the policy and its identities, and the
copies with their hashes.
-/

namespace Simmis.KnowledgeInputs

open Documents Maps

abbrev Inputs := List (String × String)

structure Captured where
  triggerId : Uuid
  executionId : Uuid
  isEmpty : Bool
  manifest : Manifest
  inputs : Inputs
deriving DecidableEq

/-- A file of an explicit selection. -/
structure ExplicitFile where
  path : String
  role : Role
  entry : View.FileEntry
deriving DecidableEq

variable {R : Type} (codec : Codec R)

/-- The metadata in the schemas of a frozen file. -/
def isFrozen (entry : View.FileEntry) : Bool :=
  entry.content.isSome ∧ (entry.size.any fun n ↦ 0 ≤ n ∧ n ≤ maxFileBytes) ∧
    entry.mode = some codec.defaultMode

variable (db : Db) (policy : Policy)

def checkExplicit (file : ExplicitFile) : Except Error Unit := do
  checkPath codec.toHost file.path
  require (View.isMarkdown file.path ∧ some file.entry = fileAt db file.path ∧
      file.entry.size = file.entry.content.bind (View.contentSize db) ∧
      rolePath policy file.role file.path ∧ Text.count (inputPath file.path) ≤ 512)
    (.refused .explicitSourceMismatch)

def filesOf (files : List ExplicitFile) (role : Role) : FileMap :=
  sorted Text.le ((files.filter fun file ↦ file.role = role).map fun file ↦ (file.path, file.entry))

/-- `selection-of-files` -/
def selectionOfFiles (selectedFiles : List ExplicitFile) : Except Error Selected := do
  let policy ← normalizePolicy codec.toHost policy
  require (selectedFiles.length ≤ 99 ∧
      ∀ file ∈ selectedFiles, isBounded 1 file.path ∧ isFrozen codec file.entry)
    (.refused .invalidExplicitSelection)
  let entries := selectedFiles.insertionSort fun a b ↦ Text.le a.path b.path
  require (entries.map ExplicitFile.path).Nodup (.refused .duplicateInputPath)
  entries.forM (checkExplicit codec db policy)
  let repository ← demand (codec.repository db).id (.refused .invalidRepository)
  let triggerId := codec.hashTrigger repository policy (filesOf entries .trigger)
  let executionId := codec.hashExecution triggerId (filesOf entries .context)
  let files := entries.map fun file ↦ ⟨file.path, file.role, inputPath file.path, file.entry⟩
  let manifest : Manifest :=
    ⟨.explicit, policy.version, repository, policy, triggerId, executionId, files⟩
  let text := codec.print manifest
  require (byteCount text ≤ maxFileBytes) (.refused .manifestTooLarge)
  require (byteCount text + manifest.size ≤ maxInputBytes) (.refused .tooManyInputBytes)
  return ⟨triggerId, executionId, (filesOf entries .trigger).isEmpty, manifest, text⟩

def isOwned (path : String) : Bool := View.startsWith path "/in/knowledge/"

/-- The bytes of a text. -/
def bytesOf (text : String) : List UInt8 := text.toUTF8.data.toList

namespace Manifest

/-- `manifest-schema` -/
def fitsSchema (manifest : Manifest) : Bool :=
  (manifest.version = 1 ∨ manifest.version = 2) ∧
    (manifest.policy.fitsV1 ∨ manifest.policy.fitsV2) ∧ manifest.files.length ≤ 99 ∧
    manifest.files.all fun file ↦
      isBounded 1 file.path && isBounded 1 file.input && isFrozen codec file.entry

/-- No file has the role of a trigger. -/
def lacksTrigger (manifest : Manifest) : Bool := manifest.files.all fun file ↦ file.role ≠ .trigger

end Manifest

def verifyFile (file : ManifestFile) : Except Error Unit := do
  checkPath codec.toHost file.path
  let _ ← foldersOf codec.toHost (policy.roots file.role)
  let _ ← foldersOf codec.toHost policy.excludePrefixes
  require (file.input = inputPath file.path ∧ rolePath policy file.role file.path)
    (.refused .invalidFrozenSource)

/-- `verify-manifest` -/
def verifyManifest (manifest : Manifest) : Except Error Manifest := do
  let policy ← normalizePolicy codec.toHost policy
  require (manifest.fitsSchema codec ∧ policy.version = manifest.version ∧ policy = manifest.policy)
    (.refused .invalidFrozenInputs)
  let expectedTrigger := codec.hashTrigger manifest.repository policy
    (sorted Text.le (manifest.ofRole .trigger))
  require ((manifest.files.map ManifestFile.path).Nodup ∧
      (manifest.files.map ManifestFile.input).Nodup ∧ manifest.triggerId = expectedTrigger ∧
      manifest.executionId =
        codec.hashExecution expectedTrigger (sorted Text.le (manifest.ofRole .context)))
    (.refused .invalidFrozenIdentity)
  manifest.files.forM (verifyFile codec policy)
  return manifest

def verifyCopy (inputs : Inputs) (file : ManifestFile) : Except Error Unit := do
  let text ← demand (get? inputs file.input) (.refused .invalidFrozenSource)
  require (file.size = (bytesOf text).length ∧ file.entry.content = some (codec.blobId (bytesOf text)))
    (.refused .invalidFrozenSource)

/-- `verify-capture` -/
def verifyCapture (captured : Captured) : Except Error Captured := do
  let manifest ← verifyManifest codec policy captured.manifest
  let texts := captured.inputs.map Prod.snd
  require (captured.inputs.length ≤ maxInputFiles ∧
      (∀ text ∈ texts, byteCount text ≤ maxFileBytes) ∧
      (texts.map byteCount).sum ≤ maxInputBytes ∧ captured.triggerId = manifest.triggerId ∧
      captured.executionId = manifest.executionId ∧
      get? captured.inputs manifestPath = some (codec.print manifest))
    (.refused .invalidFrozenInputs)
  let paths := captured.inputs.map Prod.fst
  let listedPaths := manifestPath :: manifest.files.map ManifestFile.input
  require ((∀ path ∈ paths, path ∈ listedPaths) ∧ (∀ path ∈ listedPaths, path ∈ paths) ∧
      captured.isEmpty = manifest.lacksTrigger)
    (.refused .invalidFrozenIdentity)
  manifest.files.forM (verifyCopy codec captured.inputs)
  return captured

/-- The inputs that the collector owns. -/
def owned (inputFiles : Inputs) : Inputs :=
  sorted Text.le (inputFiles.filter fun file ↦ isOwned file.1)

/-- `from-inputs` -/
def fromInputs (inputFiles : Inputs) : Except Error Captured := do
  let inputs := owned inputFiles
  let text ← demand (get? inputs manifestPath) (.refused .missingFrozenManifest)
  require (byteCount text ≤ maxFileBytes) (.refused .missingFrozenManifest)
  let value ← demand (codec.read text) (.refused .invalidFrozenManifest)
  match value with
  | some manifest =>
    verifyCapture codec policy
      ⟨manifest.triggerId, manifest.executionId, manifest.lacksTrigger, manifest, inputs⟩
  | none => do
    let _ ← normalizePolicy codec.toHost policy
    .error (.refused .invalidFrozenInputs)

/-- `markdown/decode` -/
def decode (bytes : List UInt8) : Except Error String := do
  require ((bytes.length : ℤ) ≤ View.maxSourceBytes) (.document .markdown)
  demand (String.fromUTF8? ⟨bytes.toArray⟩) (.document .markdown)

def copyFile (file : ManifestFile) : Except Error (String × String) := do
  let bytes ← demand (file.entry.content.bind (codec.readById db)) (.refused .sourceUnavailable)
  require (file.size = bytes.length) (.refused .sourceUnavailable)
  let text ← decode bytes
  return (file.input, text)

/-- `capture-selected` -/
def captureSelected (selected : Selected) : Except Error Captured := do
  let copies ← selected.manifest.files.mapM (copyFile codec db)
  return {
    triggerId := selected.triggerId
    executionId := selected.executionId
    isEmpty := selected.isEmpty
    manifest := selected.manifest
    inputs := sorted Text.le ((manifestPath, selected.manifestText) :: copies) }

/-- `capture-files` -/
def captureFiles (selectedFiles : List ExplicitFile) : Except Error Captured := do
  let selected ← selectionOfFiles codec db policy selectedFiles
  let captured ← captureSelected codec db selected
  verifyCapture codec policy captured

/-- `capture` -/
def capture : Except Error Captured := do
  let selected ← selection codec db policy
  captureSelected codec db selected

end Simmis.KnowledgeInputs
