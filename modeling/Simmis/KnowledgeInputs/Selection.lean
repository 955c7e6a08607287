import Simmis.KnowledgeInputs.Roles

/-!
# The selection of a policy

A selection lists the trigger files and the context files of a policy. The trigger files have an
identity of their own, the execution has one over all of them, and both are written down in a
manifest with every file and its role.
-/

namespace Simmis.KnowledgeInputs

open Documents Maps View List

structure ManifestFile where
  path : String
  role : Role
  input : String
  entry : View.FileEntry
deriving DecidableEq

/-- The order of a listed file's keys, which printing shows. -/
inductive Layout
  | merged
  | explicit
deriving DecidableEq

structure Manifest where
  layout : Layout
  version : ℕ
  repository : Uuid
  policy : Policy
  triggerId : Uuid
  executionId : Uuid
  files : List ManifestFile
deriving DecidableEq

/-- Metadata by path, as it is hashed. -/
abbrev FileMap := List (String × View.FileEntry)

/-- What the host supplies besides: hashes, a printer and a reader of manifests. The reader throws,
or returns what may not be a manifest. -/
structure Codec (R : Type) extends View.Host R where
  hashTrigger : Uuid → Policy → FileMap → Uuid
  hashExecution : Uuid → FileMap → Uuid
  print : Manifest → String
  read : String → Option (Option Manifest)
  blobId : List UInt8 → Uuid

def maxInputFiles : ℕ := 100
def maxInputBytes : ℤ := 2097152
def maxFileBytes : ℤ := 524288

def byteCount (text : String) : ℤ := text.utf8ByteSize

/-- Where the copy of a file stands. -/
def inputPath (path : String) : String := "/in/knowledge/sources/" ++ path

def manifestPath : String := "/in/knowledge/manifest.edn"

def ManifestFile.size (file : ManifestFile) : ℤ := file.entry.size.getD 0

def Manifest.size (manifest : Manifest) : ℤ := (manifest.files.map ManifestFile.size).sum

/-- The files of a role, by their paths. -/
def Manifest.ofRole (manifest : Manifest) (role : Role) : FileMap :=
  (manifest.files.filter fun file ↦ file.role = role).map fun file ↦ (file.path, file.entry)

structure Selected where
  triggerId : Uuid
  executionId : Uuid
  isEmpty : Bool
  manifest : Manifest
  manifestText : String
deriving DecidableEq

variable {R : Type} (codec : Codec R)

/-- The options of a view over roots. -/
def viewOptions (policy : Policy) (roots : List String) : View.Options :=
  { root := none
    roots
    excludePrefixes :=
      if policy.version = 2 then
        policy.excludedRoots.filter fun root ↦ root ∉ [".git", ".geschichte"]
      else policy.excludePrefixes
    schemaRevision :=
      some (if policy.version = 2 then "knowledge-inputs-v2" else "knowledge-inputs-v1")
    propertyBindings := []
    entityProfile := none }

variable (db : Db)

/-- The repository and the files of a role. -/
def selectRole (policy : Policy) (role : Role) : Except Error (Uuid × FileMap) := do
  let selected ← (View.selection codec.toHost db (viewOptions policy (policy.roots role))).mapError
    .document
  return (selected.repositoryId,
    if policy.version = 2 then selected.files.filter fun file ↦ rolePath policy role file.1
    else selected.files)

def listed (role : Role) (file : String × View.FileEntry) : ManifestFile :=
  ⟨file.1, role, inputPath file.1, file.2⟩

def checkListed (file : ManifestFile) : Except Error Unit := do
  require (file.size ≤ maxFileBytes) (.refused .inputFileTooLarge)
  require (Text.count file.input ≤ 512) (.refused .inputPathTooLong)
  require (file.entry.size = file.entry.content.bind (View.contentSize db))
    (.refused .contentSizeMismatch)

/-- `(sort-by :path files)` -/
def sortByPath (files : List ManifestFile) : List ManifestFile :=
  files.insertionSort fun a b ↦ Text.le a.path b.path

/-- `selection` -/
def selection (policy : Policy) : Except Error Selected := do
  let policy ← normalizePolicy codec.toHost policy
  let trigger ← selectRole codec db policy .trigger
  let context ← selectRole codec db policy .context
  let triggerId := codec.hashTrigger trigger.1 policy trigger.2
  let executionId := codec.hashExecution triggerId context.2
  let files := sortByPath (trigger.2.map (listed .trigger) ++ context.2.map (listed .context))
  let manifest : Manifest :=
    ⟨.merged, policy.version, trigger.1, policy, triggerId, executionId, files⟩
  require (files.length + 1 ≤ maxInputFiles) (.refused .tooManyInputFiles)
  files.forM (checkListed db)
  require (manifest.size ≤ maxInputBytes) (.refused .tooManyInputBytes)
  let text := codec.print manifest
  require (byteCount text ≤ maxFileBytes) (.refused .manifestTooLarge)
  require (byteCount text + manifest.size ≤ maxInputBytes) (.refused .tooManyInputBytes)
  return ⟨triggerId, executionId, trigger.2.isEmpty, manifest, text⟩

/-- The files of the worktree with their metadata. -/
def worktreeRows : FileMap :=
  (db.aevt View.workPath).filterMap fun d ↦
    match d.v with
    | .string path => some (path, View.fileEntry db d.e)
    | _ => none

/-- The file of the worktree at a path. -/
def worktreeFile (path : String) : Option View.FileEntry := get? (ofPairs (worktreeRows db)) path

/-- The Markdown files of a role in the worktree. -/
def roleFiles (policy : Policy) (role : Role) : FileMap :=
  sorted Text.le <| (worktreeRows db).filter fun file ↦
    rolePath policy role file.1 && View.isMarkdown file.1

theorem selectedFiles_eq (roots excluded : List String) :
    selectedFiles db roots excluded = sorted Text.le
      ((worktreeRows db).filter fun file ↦ isSelected roots excluded file.1) := by
  unfold selectedFiles worktreeRows
  rw [filter_filterMap]
  congr 1
  apply filterMap_congr
  intro d _
  cases d.v <;> simp [Option.filter]

theorem isSelected_iff {roots excluded : List String} {path : String} :
    isSelected (canonical (roots.map folder)) (canonical (excluded.map folder)) path ↔
      within roots path ∧ ¬ within excluded path ∧ isMarkdown path := by
  have hany : ∀ roots : List String,
      (canonical (roots.map folder)).any (startsWith path) = within roots path := by
    intro roots
    unfold within
    rw [Bool.eq_iff_iff, any_eq_true, any_eq_true]
    simp only [mem_canonical, mem_map, exists_exists_and_eq_and]
  unfold isSelected
  rw [decide_eq_true_eq, hany, hany]

theorem policyPrefixes_eq {roots folders : List String}
    (h : policyPrefixes roots = .ok folders) : folders = canonical (roots.map folder) := by
  obtain ⟨-, h⟩ := require_bind_eq_ok.mp h
  obtain ⟨-, h⟩ := require_bind_eq_ok.mp h
  cases h
  rfl

variable {codec}

/-- What the files of a role are. -/
structure OfRole (codec : Codec R) (db : Db) (policy : Policy) (role : Role)
    (selected : Uuid × FileMap) : Prop where
  repository : (codec.repository db).id = some selected.1
  files : selected.2 = roleFiles db policy role
  checked : ∀ file ∈ selected.2, View.checkFile codec.toHost file = .ok ()

theorem viewSelection_eq_ok {db : Db} {options : View.Options} {selected : View.Selection R}
    (h : View.selection codec.toHost db options = .ok selected) :
    (codec.repository db).id = some selected.repositoryId ∧
      selected.files = sorted Text.le ((worktreeRows db).filter fun file ↦
        within options.roots file.1 && !within options.excludePrefixes file.1 &&
          isMarkdown file.1) ∧ ∀ file ∈ selected.files, checkFile codec.toHost file = .ok () := by
  simp only [View.selection, bind_eq_ok, require_eq_ok, demand_eq_ok] at h
  obtain ⟨-, -, -, -, -, -, -, -, revision, -, roots, hroots, excluded, hexcluded, id, hid, -, -, -,
    -, u, hchecked, -, -, schema, -, h⟩ := h
  cases h
  obtain rfl := policyPrefixes_eq hroots
  obtain rfl := policyPrefixes_eq hexcluded
  refine ⟨hid, ?_, forM_eq_ok.mp hchecked⟩
  rw [selectedFiles_eq]
  have hcondition : ∀ path, isSelected (canonical (options.roots.map folder))
      (canonical (options.excludePrefixes.map folder)) path =
      (within options.roots path && !within options.excludePrefixes path &&
        isMarkdown path) := by
    intro path
    rw [Bool.eq_iff_iff, isSelected_iff]
    simp [and_assoc]
  simp only [hcondition]

theorem selectRole_ofRole {db : Db} {policy : Policy} {role : Role} {selected : Uuid × FileMap}
    (hversion : policy.version = 1 ∨ policy.version = 2)
    (h : selectRole codec db policy role = .ok selected) : OfRole codec db policy role selected := by
  obtain ⟨view, hview, h⟩ := bind_eq_ok.mp h
  rw [mapError_eq_ok] at hview
  obtain ⟨hrepository, hfiles, hchecked⟩ := viewSelection_eq_ok hview
  cases h
  obtain hone | htwo := hversion
  · have hne : ¬ policy.version = 2 := by omega
    simp only [if_neg hne]
    refine ⟨hrepository, ?_, hchecked⟩
    have hexcluded : policy.excludedRoots = policy.excludePrefixes := by
      unfold Policy.excludedRoots
      rw [if_neg hne, append_nil]
    have hcondition : ∀ path, (within (viewOptions policy (policy.roots role)).roots path &&
        !within (viewOptions policy (policy.roots role)).excludePrefixes path &&
          isMarkdown path) = (rolePath policy role path && isMarkdown path) := by
      unfold rolePath
      rw [hexcluded]
      simp [viewOptions, hone]
    unfold roleFiles
    simp only [hfiles, hcondition]
  · simp only [if_pos htwo]
    refine ⟨hrepository, ?_, fun file hfile ↦ hchecked file (mem_filter.mp hfile).1⟩
    have hexcluded : ∀ path,
        within ((viewOptions policy (policy.roots role)).excludePrefixes) path →
          within policy.excludedRoots path := by
      intro path
      unfold viewOptions within
      rw [if_pos htwo]
      simp only [any_eq_true]
      rintro ⟨root, hroot, hstart⟩
      exact ⟨root, (mem_filter.mp hroot).1, hstart⟩
    have hcondition : ∀ path, (rolePath policy role path &&
        (within (viewOptions policy (policy.roots role)).roots path &&
          !within (viewOptions policy (policy.roots role)).excludePrefixes path &&
            isMarkdown path)) = (rolePath policy role path && isMarkdown path) := by
      intro path
      rw [Bool.eq_iff_iff]
      simp only [Bool.and_eq_true, Bool.not_eq_true', ← Bool.not_eq_true, rolePath_iff]
      tauto
    unfold roleFiles
    simp only [hfiles, filter_sorted textLe_total textLe_trans textLe_antisymm, List.filter_filter,
      hcondition]

/-- The manifest of an accepted policy in its normal form. -/
def manifestOf (codec : Codec R) (db : Db) (policy : Policy) (repository : Uuid) : Manifest :=
  let trigger := roleFiles db policy .trigger
  let context := roleFiles db policy .context
  let triggerId := codec.hashTrigger repository policy trigger
  { layout := .merged
    version := policy.version
    repository
    policy
    triggerId
    executionId := codec.hashExecution triggerId context
    files := sortByPath (trigger.map (listed .trigger) ++ context.map (listed .context)) }

/-- What a selection is. -/
structure Selects (codec : Codec R) (db : Db) (policy : Policy) (selected : Selected) : Prop where
  accepted : policy.Accepted codec.toHost
  repository : (codec.repository db).id = some selected.manifest.repository
  manifest : selected.manifest = manifestOf codec db policy.normal selected.manifest.repository
  text : selected.manifestText = codec.print selected.manifest
  triggerId : selected.triggerId = selected.manifest.triggerId
  executionId : selected.executionId = selected.manifest.executionId
  isEmpty : selected.isEmpty = (roleFiles db policy.normal .trigger).isEmpty
  few : selected.manifest.files.length + 1 ≤ maxInputFiles
  listed : ∀ file ∈ selected.manifest.files, checkListed db file = .ok ()
  textBytes : byteCount selected.manifestText ≤ maxFileBytes
  bytes : byteCount selected.manifestText + selected.manifest.size ≤ maxInputBytes
  checked : ∀ role, ∀ file ∈ roleFiles db policy.normal role,
    View.checkFile codec.toHost file = .ok ()

theorem selection_selects {db : Db} {policy : Policy} {selected : Selected}
    (h : selection codec db policy = .ok selected) : Selects codec db policy selected := by
  obtain ⟨normal, hnormal, h⟩ := bind_eq_ok.mp h
  obtain ⟨haccepted, rfl⟩ := normalizePolicy_eq_ok.mp hnormal
  obtain ⟨⟨repository, trigger⟩, htrigger, h⟩ := bind_eq_ok.mp h
  obtain ⟨⟨repository', context⟩, hcontext, h⟩ := bind_eq_ok.mp h
  have hversion := haccepted.normal.version
  obtain ⟨hrepository, htriggers, hchecked⟩ := selectRole_ofRole hversion htrigger
  obtain ⟨-, hcontexts, hchecked'⟩ := selectRole_ofRole hversion hcontext
  subst htriggers hcontexts
  obtain ⟨hfew, h⟩ := require_bind_eq_ok.mp h
  rw [bind_eq_ok, Unique.exists_iff, forM_eq_ok] at h
  obtain ⟨hlisted, h⟩ := h
  obtain ⟨-, h⟩ := require_bind_eq_ok.mp h
  obtain ⟨htext, h⟩ := require_bind_eq_ok.mp h
  obtain ⟨hbytes, h⟩ := require_bind_eq_ok.mp h
  cases h
  refine ⟨haccepted, hrepository, rfl, rfl, rfl, rfl, rfl, hfew, hlisted, htext, hbytes, ?_⟩
  intro role
  cases role with
  | trigger => exact hchecked
  | context => exact hchecked'

/-- The files of a role are the same as soon as the worktrees agree where the role is. -/
theorem roleFiles_congr {db db' : Db} {policy : Policy} {role : Role}
    (h : ∀ path, rolePath policy role path → worktreeFile db path = worktreeFile db' path) :
    roleFiles db policy role = roleFiles db' policy role := by
  have hlookup : ∀ (db : Db) (path : String), get? (roleFiles db policy role) path =
      if (rolePath policy role path && isMarkdown path) then worktreeFile db path
      else none := by
    intro db path
    unfold roleFiles worktreeFile
    rw [get?_sorted, ← filter_reverse, get?_ofPairs,
      get?_filter fun path ↦ rolePath policy role path && isMarkdown path]
  apply eq_of_get? textLe_antisymm (sorted_pairwise textLe_total textLe_trans _)
    (sorted_pairwise textLe_total textLe_trans _) (nodup_sorted _ _) (nodup_sorted _ _)
  intro path
  rw [← roleFiles, ← roleFiles, hlookup, hlookup]
  split
  · rename_i hpath
    rw [Bool.and_eq_true] at hpath
    exact h path hpath.1
  · rfl

end Simmis.KnowledgeInputs
