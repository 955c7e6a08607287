import Simmis.KnowledgeInputs.Paths

/-!
# The scope of a publication

A scope names the folder that a workflow may publish into and what is left out below it. Its targets
are the Markdown files below the folder that are neither reserved nor left out.
-/

namespace Simmis.KnowledgeInputs

open Documents View Unique

/-- `::scope/invalid`, by its message. -/
inductive ScopeProblem
  | invalid
  | reservedNamespace
  | notCanonical
  | outside (path : String)
deriving DecidableEq

/-- `::publication/invalid`, by its message. -/
inductive BasisProblem
  | rootMismatch
  | outsideScope
  | invalid
deriving DecidableEq

/-- The reasons of `refuse!`. -/
inductive Reason
  | invalidPolicy
  | overlappingInputRoles
  | workflowStagingIsNotKnowledgeInput
  | unprotectedSourceOutputOverlap
  | rootTriggerForbidden
  | invalidDefaultTarget
  | missingPublicationTarget
  | tooManyPublicationEntries
  | invalidPublicationEntry
  | publicationBasisTooLarge
  | invalidPublicationPath
  | publicationPathCollision
  | unsupportedPublicationTarget
  | tooManyInputFiles
  | inputFileTooLarge
  | inputPathTooLong
  | contentSizeMismatch
  | tooManyInputBytes
  | manifestTooLarge
  | invalidExplicitSelection
  | duplicateInputPath
  | explicitSourceMismatch
  | invalidRepository
  | sourceUnavailable
  | invalidFrozenInputs
  | invalidFrozenIdentity
  | invalidFrozenSource
  | missingFrozenManifest
  | invalidFrozenManifest
deriving DecidableEq

inductive Error
  | document (e : Documents.Error)
  | scope (problem : ScopeProblem)
  | publication (problem : BasisProblem)
  | refused (reason : Reason)
deriving DecidableEq

/-- The version and the output root of a scope are constants. -/
structure Scope where
  destinationRoot : String
  excludePrefixes : List String
deriving DecidableEq

def reserved : List String := ["workflows", "in", "out", ".git", ".geschichte"]

/-- `(sort (distinct paths))` -/
def canonical (paths : List String) : List String := paths.dedup.insertionSort fun a b ↦ Text.le a b

/-- The length of a string within a schema. -/
def isBounded (low : ℕ) (path : String) : Bool := low ≤ Text.count path ∧ Text.count path ≤ 512

/-- `scope/schema` -/
def Scope.isValid (scope : Scope) : Bool :=
  isBounded 0 scope.destinationRoot ∧ scope.excludePrefixes.length ≤ 32 ∧
    scope.excludePrefixes.all (isBounded 1)

variable {R : Type} (host : View.Host R)

/-- `files/path!` -/
def checkPath (path : String) : Except Error Unit := require (View.isPath host path) (.document .path)

/-- `scope/normalize!` -/
def normalizeScope (scope : Scope) : Except Error Scope := do
  require scope.isValid (.scope .invalid)
  (if scope.destinationRoot = "" then .ok () else checkPath host scope.destinationRoot)
  scope.excludePrefixes.forM (checkPath host)
  require (∀ path ∈ reserved, ¬ containsPath path scope.destinationRoot) (.scope .reservedNamespace)
  require (scope.excludePrefixes = canonical scope.excludePrefixes) (.scope .notCanonical)
  return scope

/-- `target-path!` -/
def targetPath (scope : Scope) (path : String) : Except Error Unit := do
  let scope ← normalizeScope host scope
  checkPath host path
  require (containsPath scope.destinationRoot path ∧ scope.destinationRoot ≠ path ∧
    View.isMarkdown path ∧ ∀ root ∈ reserved ++ scope.excludePrefixes, ¬ containsPath root path)
    (.scope (.outside path))

variable {host} {scope : Scope} {path : String}

theorem checkPath_eq_ok {u : Unit} : checkPath host path = .ok u ↔ isPath host path :=
  require_eq_ok

/-- What an accepted scope is. -/
structure Scope.Accepted (host : View.Host R) (scope : Scope) : Prop where
  valid : scope.isValid = true
  root : scope.destinationRoot = "" ∨ View.isPath host scope.destinationRoot = true
  excluded : ∀ path ∈ scope.excludePrefixes, View.isPath host path = true
  free : ∀ path ∈ reserved, ¬ containsPath path scope.destinationRoot = true
  canonical : scope.excludePrefixes = canonical scope.excludePrefixes

theorem normalizeScope_eq_ok {scope' : Scope} :
    normalizeScope host scope = .ok scope' ↔ scope.Accepted host ∧ scope' = scope := by
  have hroot : (if scope.destinationRoot = "" then .ok ()
      else checkPath host scope.destinationRoot) = .ok () ↔
      scope.destinationRoot = "" ∨ isPath host scope.destinationRoot := by
    split
    · simp [*]
    · simp [*, checkPath_eq_ok]
  unfold normalizeScope
  rw [require_bind_eq_ok, bind_eq_ok, exists_iff, bind_eq_ok, exists_iff,
    require_bind_eq_ok, require_bind_eq_ok, forM_eq_ok]
  constructor
  · rintro ⟨hvalid, hr, hexcluded, hfree, hcanonical, h⟩
    exact ⟨⟨hvalid, hroot.mp hr, fun path hp ↦ checkPath_eq_ok.mp (hexcluded path hp), hfree,
      hcanonical⟩, (Except.ok.inj h).symm⟩
  · rintro ⟨h, rfl⟩
    exact ⟨h.valid, hroot.mpr h.root, fun path hp ↦ checkPath_eq_ok.mpr (h.excluded path hp), h.free,
      h.canonical, rfl⟩

/-- What a target of a scope is. -/
structure Scope.Admits (host : View.Host R) (scope : Scope) (path : String) : Prop where
  accepted : scope.Accepted host
  isPath : View.isPath host path = true
  below : IsAbove scope.destinationRoot path ∨ scope.destinationRoot = ""
  markdown : View.isMarkdown path = true
  free : ∀ root ∈ reserved ++ scope.excludePrefixes, ¬ containsPath root path = true

theorem isPath_ne_empty (h : isPath host path) : path ≠ "" := by
  rintro rfl
  unfold isPath at h
  have hcount : ¬ 1 ≤ Text.count "" := by decide
  simp [hcount] at h

theorem targetPath_eq_ok {u : Unit} :
    targetPath host scope path = .ok u ↔ scope.Admits host path := by
  unfold targetPath
  rw [bind_eq_ok]
  constructor
  · rintro ⟨scope', hscope, h⟩
    obtain ⟨haccepted, rfl⟩ := normalizeScope_eq_ok.mp hscope
    rw [bind_eq_ok, exists_iff, checkPath_eq_ok, require_eq_ok] at h
    obtain ⟨hpath, hbelow, hne, hmarkdown, hfree⟩ := h
    refine ⟨haccepted, hpath, ?_, hmarkdown, hfree⟩
    obtain hempty | heq | habove := containsPath_iff.mp hbelow
    · exact .inr hempty
    · exact absurd heq hne
    · exact .inl habove
  · intro h
    refine ⟨scope, normalizeScope_eq_ok.mpr ⟨h.accepted, rfl⟩, ?_⟩
    rw [bind_eq_ok, exists_iff, checkPath_eq_ok, require_eq_ok]
    refine ⟨h.isPath, containsPath_iff.mpr ?_, ?_, h.markdown, h.free⟩
    · exact h.below.elim (fun habove ↦ .inr (.inr habove)) .inl
    · rintro rfl
      obtain habove | hempty := h.below
      · exact not_isAbove_self _ habove
      · exact isPath_ne_empty h.isPath hempty

/-- An admissible target of a scope, or below `wiki` without one. -/
def Admissible (host : View.Host R) (scope : Option Scope) (path : String) : Prop :=
  match scope with
  | some scope => scope.Admits host path
  | none => View.isPath host path = true ∧ IsAbove "wiki" path ∧ View.isMarkdown path = true

theorem Admissible.isPath {scope : Option Scope} (h : Admissible host scope path) :
    isPath host path := by
  cases scope with
  | none => exact h.1
  | some s => exact Scope.Admits.isPath h

end Simmis.KnowledgeInputs
