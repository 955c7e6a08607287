import Mathlib.Data.List.Dedup
import Simmis.KnowledgeInputs.Scope

/-!
# Folder policies

A policy names the folders whose files trigger a workflow, the folders that only give it context,
and what is left out. An accepted policy is brought into a normal form, in which it is accepted as
it is.
-/

namespace Simmis.KnowledgeInputs

open List Documents

structure Policy where
  version : ℕ
  triggerRoots : List String
  contextRoots : List String
  excludePrefixes : List String
  outputScope : Option Scope
deriving DecidableEq

inductive Role
  | trigger
  | context
deriving DecidableEq

/-- The bounds of a vector of roots. -/
def isRoots (fewest most low : ℕ) (roots : List String) : Bool :=
  fewest ≤ roots.length ∧ roots.length ≤ most ∧ roots.all (isBounded low)

namespace Policy

/-- `v1-policy-schema` -/
def fitsV1 (policy : Policy) : Bool :=
  policy.version = 1 ∧ isRoots 1 16 1 policy.triggerRoots ∧ isRoots 0 16 1 policy.contextRoots ∧
    isRoots 0 16 1 policy.excludePrefixes ∧ policy.outputScope = none

/-- `v2-policy-schema` -/
def fitsV2 (policy : Policy) : Bool :=
  policy.version = 2 ∧ isRoots 1 16 1 policy.triggerRoots ∧ isRoots 0 16 0 policy.contextRoots ∧
    isRoots 1 16 1 policy.excludePrefixes ∧ policy.outputScope.any Scope.isValid

end Policy

/-- A root as it is compared: with a slash at its end, unless it is empty. -/
def folder (root : String) : String := if root = "" then "" else root ++ "/"

/-- `(subs folder 0 (dec (count folder)))` -/
def withoutSlash (folder : String) : String := String.ofList folder.toList.dropLast

def overlap (a b : String) : Bool := View.startsWith a b || View.startsWith b a

def staging : List String := ["workflows/", "in/", "out/"]

variable {R : Type} (host : View.Host R)

def checkRoot (root : String) : Except Error Unit := if root = "" then .ok () else checkPath host root

/-- `prefixes!` -/
def foldersOf (roots : List String) : Except Error (List String) := do
  roots.forM (checkRoot host)
  return canonical (roots.map folder)

/-- What is protected does not meet the destination outside of the exclusions. -/
def isProtected (destination : String) (exclusions : List String) (path : String) : Bool :=
  (containsPath destination path || containsPath path destination) →
    exclusions.any fun exclusion ↦ containsPath exclusion path

/-- The checks of a policy of version 2. -/
def checkOutput (policy : Policy) (triggers : List String) : Except Error Unit := do
  let scope ← demand policy.outputScope (.scope .invalid)
  let scope ← normalizeScope host scope
  require (∀ path ∈ policy.triggerRoots ++ policy.excludePrefixes,
      isProtected scope.destinationRoot (reserved ++ scope.excludePrefixes) path)
    (.refused .unprotectedSourceOutputOverlap)
  require ("" ∉ triggers) (.refused .rootTriggerForbidden)

/-- `normalize-policy` -/
def normalizePolicy (policy : Policy) : Except Error Policy := do
  require (policy.fitsV1 ∨ policy.fitsV2) (.refused .invalidPolicy)
  let triggers ← foldersOf host policy.triggerRoots
  let context ← foldersOf host policy.contextRoots
  let excluded ← foldersOf host policy.excludePrefixes
  require (policy.version = 1 → ∀ a ∈ triggers, ∀ b ∈ context, ¬ overlap a b)
    (.refused .overlappingInputRoles)
  require (∀ a ∈ triggers ++ context.filter (· ≠ ""), ∀ b ∈ staging, ¬ overlap a b)
    (.refused .workflowStagingIsNotKnowledgeInput)
  (if policy.version = 2 then checkOutput host policy triggers else .ok ())
  return {
    version := policy.version
    triggerRoots := triggers.map withoutSlash
    contextRoots := context.map withoutSlash
    excludePrefixes := excluded.map withoutSlash
    outputScope := policy.outputScope }

def within (roots : List String) (path : String) : Bool :=
  roots.any fun root ↦ View.startsWith path (folder root)

/-- `excluded-roots` -/
def Policy.excludedRoots (policy : Policy) : List String :=
  policy.excludePrefixes ++ if policy.version = 2 then reserved else []

def Policy.roots (policy : Policy) : Role → List String
  | .trigger => policy.triggerRoots
  | .context => policy.contextRoots

/-- `role-path?` -/
def rolePath (policy : Policy) (role : Role) (path : String) : Bool :=
  within (policy.roots role) path && !within policy.excludedRoots path &&
    (role = .trigger || policy.version = 1 || !within policy.triggerRoots path)

theorem canonical_nodup (paths : List String) : (canonical paths).Nodup :=
  (perm_insertionSort _ _).nodup_iff.mpr (nodup_dedup paths)

theorem mem_canonical {paths : List String} {path : String} :
    path ∈ canonical paths ↔ path ∈ paths := by
  unfold canonical
  rw [mem_insertionSort, mem_dedup]

theorem length_canonical (paths : List String) : (canonical paths).length ≤ paths.length := by
  unfold canonical
  rw [length_insertionSort]
  exact (dedup_sublist paths).length_le

theorem canonical_canonical (paths : List String) : canonical (canonical paths) = canonical paths := by
  have htotal : Std.Total fun a b : String ↦ Text.le a b := ⟨textLe_total⟩
  have htrans : IsTrans String fun a b ↦ Text.le a b := ⟨textLe_trans⟩
  have hsorted := pairwise_insertionSort (fun a b : String ↦ Text.le a b) paths.dedup
  calc
    canonical (canonical paths) = (canonical paths).insertionSort fun a b ↦ Text.le a b := by
      change (canonical paths).dedup.insertionSort _ = _
      rw [dedup_eq_self.mpr (canonical_nodup paths)]
    _ = canonical paths := hsorted.insertionSort_eq

theorem withoutSlash_folder (root : String) : withoutSlash (folder root) = root := by
  unfold withoutSlash folder
  split
  · rename_i hempty
    rw [hempty]
    rfl
  · have hslash : "/".toList = ['/'] := rfl
    rw [String.toList_append, hslash, dropLast_concat, String.ofList_toList]

/-- The normal form of a list of roots. -/
def canonicalRoots (roots : List String) : List String :=
  (canonical (roots.map folder)).map withoutSlash

variable {root : String} {roots : List String}

theorem mem_canonicalRoots : root ∈ canonicalRoots roots ↔ root ∈ roots := by
  unfold canonicalRoots
  rw [List.mem_map]
  constructor
  · rintro ⟨f, hf, rfl⟩
    obtain ⟨r, hr, rfl⟩ := mem_map.mp (mem_canonical.mp hf)
    rwa [withoutSlash_folder]
  · intro h
    exact ⟨folder root, mem_canonical.mpr (mem_map_of_mem h), withoutSlash_folder root⟩

theorem map_folder_canonicalRoots (roots : List String) :
    (canonicalRoots roots).map folder = canonical (roots.map folder) := by
  unfold canonicalRoots
  rw [List.map_map]
  have hfolder : ∀ f ∈ canonical (roots.map folder), (folder ∘ withoutSlash) f = id f := by
    intro f hf
    obtain ⟨r, -, rfl⟩ := mem_map.mp (mem_canonical.mp hf)
    rw [Function.comp_apply, withoutSlash_folder, id]
  rw [List.map_congr_left hfolder, List.map_id]

theorem isRoots_canonicalRoots {fewest most low : ℕ} (hfewest : fewest ≤ 1)
    (h : isRoots fewest most low roots) : isRoots fewest most low (canonicalRoots roots) := by
  unfold isRoots at *
  rw [decide_eq_true_eq] at *
  obtain ⟨hmin, hmax, hall⟩ := h
  have hlength : (canonicalRoots roots).length ≤ roots.length := by
    unfold canonicalRoots
    rw [length_map]
    exact (length_canonical _).trans_eq (length_map ..)
  have hpos : roots ≠ [] → canonicalRoots roots ≠ [] := by
    intro hne
    obtain ⟨root, hroot⟩ := exists_mem_of_ne_nil roots hne
    exact ne_nil_of_mem (mem_canonicalRoots.mpr hroot)
  refine ⟨?_, hlength.trans hmax, ?_⟩
  · rw [← length_pos_iff, ← length_pos_iff] at hpos
    omega
  · rw [List.all_eq_true] at *
    exact fun root hroot ↦ hall root (mem_canonicalRoots.mp hroot)

variable {host} {policy result : Policy}

theorem checkRoot_eq_ok {u : Unit} :
    checkRoot host root = .ok u ↔ root = "" ∨ View.isPath host root := by
  unfold checkRoot
  split
  · simp [*]
  · simp [*, checkPath_eq_ok]

theorem foldersOf_eq_ok {folders : List String} : foldersOf host roots = .ok folders ↔
      (∀ root ∈ roots, root = "" ∨ View.isPath host root) ∧
        folders = canonical (roots.map folder) := by
  unfold foldersOf
  rw [bind_eq_ok, Unique.exists_iff, forM_eq_ok]
  simp only [checkRoot_eq_ok]
  exact and_congr_right fun _ ↦ ⟨fun h ↦ (Except.ok.inj h).symm, fun h ↦ h ▸ rfl⟩

/-- What the output of an accepted policy of version 2 is. -/
structure Policy.Output (host : View.Host R) (policy : Policy) (scope : Scope) : Prop where
  scope_eq : policy.outputScope = some scope
  accepted : scope.Accepted host
  isProtected : ∀ path ∈ policy.triggerRoots ++ policy.excludePrefixes,
    isProtected scope.destinationRoot (reserved ++ scope.excludePrefixes) path = true
  root : "" ∉ policy.triggerRoots

/-- What an accepted policy is. -/
structure Policy.Accepted (host : View.Host R) (policy : Policy) : Prop where
  fits : policy.fitsV1 = true ∨ policy.fitsV2 = true
  triggers : ∀ root ∈ policy.triggerRoots, root = "" ∨ View.isPath host root = true
  context : ∀ root ∈ policy.contextRoots, root = "" ∨ View.isPath host root = true
  excluded : ∀ root ∈ policy.excludePrefixes, root = "" ∨ View.isPath host root = true
  disjoint : policy.version = 1 → ∀ a ∈ policy.triggerRoots, ∀ b ∈ policy.contextRoots,
    ¬ overlap (folder a) (folder b) = true
  outside : ∀ a ∈ policy.triggerRoots ++ policy.contextRoots.filter (· ≠ ""), ∀ b ∈ staging,
    ¬ overlap (folder a) b = true
  output : policy.version = 2 → ∃ scope, policy.Output host scope

def Policy.normal (policy : Policy) : Policy :=
  { policy with
    triggerRoots := canonicalRoots policy.triggerRoots
    contextRoots := canonicalRoots policy.contextRoots
    excludePrefixes := canonicalRoots policy.excludePrefixes }

theorem folder_eq_empty : folder root = "" ↔ root = "" := by
  unfold folder
  split
  · simp [*]
  · simp [*]

theorem mem_folders {p : String → Prop} :
    (∀ a ∈ canonical (roots.map folder), p a) ↔ ∀ a ∈ roots, p (folder a) := by
  simp only [mem_canonical, List.mem_map, forall_exists_index, and_imp, forall_apply_eq_imp_iff₂]

theorem checkOutput_eq_ok {u : Unit} : checkOutput host policy
    (canonical (policy.triggerRoots.map folder)) = .ok u ↔ ∃ scope, policy.Output host scope := by
  have hroot : "" ∉ canonical (policy.triggerRoots.map folder) ↔ "" ∉ policy.triggerRoots := by
    rw [mem_canonical, List.mem_map, not_iff_not]
    constructor
    · rintro ⟨root, hroot, hempty⟩
      exact folder_eq_empty.mp hempty ▸ hroot
    · exact fun h ↦ ⟨"", h, rfl⟩
  unfold checkOutput
  rw [bind_eq_ok]
  constructor
  · rintro ⟨scope, hscope, h⟩
    obtain ⟨scope', hscope', hrest⟩ := bind_eq_ok.mp h
    obtain ⟨haccepted, rfl⟩ := normalizeScope_eq_ok.mp hscope'
    obtain ⟨hprotected, hempty⟩ := require_bind_eq_ok.mp hrest
    rw [require_eq_ok, hroot] at hempty
    exact ⟨scope', demand_eq_ok.mp hscope, haccepted, hprotected, hempty⟩
  · rintro ⟨scope, h⟩
    refine ⟨scope, demand_eq_ok.mpr h.scope_eq, bind_eq_ok.mpr ⟨scope, ?_, ?_⟩⟩
    · exact normalizeScope_eq_ok.mpr ⟨h.accepted, rfl⟩
    · exact require_bind_eq_ok.mpr ⟨h.isProtected, require_eq_ok.mpr (hroot.mpr h.root)⟩

theorem normalizePolicy_eq_ok :
    normalizePolicy host policy = .ok result ↔ policy.Accepted host ∧ result = policy.normal := by
  have hstaging : ∀ q : String → Prop, (∀ a ∈ canonical (policy.triggerRoots.map folder) ++
      (canonical (policy.contextRoots.map folder)).filter (· ≠ ""), q a) ↔
        ∀ a ∈ policy.triggerRoots ++ policy.contextRoots.filter (· ≠ ""), q (folder a) := by
    intro q
    rw [forall_mem_append, forall_mem_append, mem_folders]
    apply and_congr_right
    intro _
    have hfilter : (∀ a ∈ canonical (policy.contextRoots.map folder), a ≠ "" → q a) ↔
        ∀ a ∈ policy.contextRoots, folder a ≠ "" → q (folder a) := mem_folders
    simp only [folder_eq_empty, ne_eq] at hfilter
    simp only [mem_filter, decide_eq_true_eq, ne_eq, and_imp]
    exact hfilter
  unfold normalizePolicy
  rw [require_bind_eq_ok]
  constructor
  · rintro ⟨hfits, h⟩
    obtain ⟨triggers, htrigger, h⟩ := bind_eq_ok.mp h
    obtain ⟨context, hcontext, h⟩ := bind_eq_ok.mp h
    obtain ⟨excluded, hexclude, h⟩ := bind_eq_ok.mp h
    obtain ⟨htriggers, rfl⟩ := foldersOf_eq_ok.mp htrigger
    obtain ⟨hcontexts, rfl⟩ := foldersOf_eq_ok.mp hcontext
    obtain ⟨hexcluded, rfl⟩ := foldersOf_eq_ok.mp hexclude
    obtain ⟨hdisjoint, h⟩ := require_bind_eq_ok.mp h
    obtain ⟨houtside, h⟩ := require_bind_eq_ok.mp h
    rw [bind_eq_ok, Unique.exists_iff] at h
    obtain ⟨houtput, h⟩ := h
    refine ⟨⟨hfits, htriggers, hcontexts, hexcluded, ?_, (hstaging _).mp houtside, ?_⟩, ?_⟩
    · intro hversion a ha b hb
      exact hdisjoint hversion _ (mem_canonical.mpr (mem_map_of_mem ha)) _
        (mem_canonical.mpr (mem_map_of_mem hb))
    · intro hversion
      rw [if_pos hversion] at houtput
      exact checkOutput_eq_ok.mp houtput
    · exact (Except.ok.inj h).symm
  · rintro ⟨h, rfl⟩
    refine ⟨h.fits, bind_eq_ok.mpr ⟨_, foldersOf_eq_ok.mpr ⟨h.triggers, rfl⟩, ?_⟩⟩
    refine bind_eq_ok.mpr ⟨_, foldersOf_eq_ok.mpr ⟨h.context, rfl⟩, ?_⟩
    refine bind_eq_ok.mpr ⟨_, foldersOf_eq_ok.mpr ⟨h.excluded, rfl⟩, ?_⟩
    refine require_bind_eq_ok.mpr ⟨fun hversion ↦ ?_, require_bind_eq_ok.mpr ⟨?_, ?_⟩⟩
    · rw [mem_folders]
      intro a ha
      rw [mem_folders]
      exact h.disjoint hversion a ha
    · exact (hstaging _).mpr h.outside
    · rw [bind_eq_ok, Unique.exists_iff]
      refine ⟨?_, rfl⟩
      split
      · exact checkOutput_eq_ok.mpr (h.output ‹_›)
      · rfl

/-- The normal form of an accepted policy is accepted. -/
theorem Policy.Accepted.normal (h : policy.Accepted host) : policy.normal.Accepted host := by
  refine ⟨?_, ?_, ?_, ?_, ?_, ?_, ?_⟩
  · obtain hfits | hfits := h.fits
    · left
      unfold fitsV1 at *
      rw [decide_eq_true_eq] at *
      exact ⟨hfits.1, isRoots_canonicalRoots (by omega) hfits.2.1,
        isRoots_canonicalRoots (by omega) hfits.2.2.1,
        isRoots_canonicalRoots (by omega) hfits.2.2.2.1, hfits.2.2.2.2⟩
    · right
      unfold fitsV2 at *
      rw [decide_eq_true_eq] at *
      exact ⟨hfits.1, isRoots_canonicalRoots (by omega) hfits.2.1,
        isRoots_canonicalRoots (by omega) hfits.2.2.1,
        isRoots_canonicalRoots (by omega) hfits.2.2.2.1, hfits.2.2.2.2⟩
  · exact fun root hroot ↦ h.triggers root (mem_canonicalRoots.mp hroot)
  · exact fun root hroot ↦ h.context root (mem_canonicalRoots.mp hroot)
  · exact fun root hroot ↦ h.excluded root (mem_canonicalRoots.mp hroot)
  · intro hversion a ha b hb
    exact h.disjoint hversion a (mem_canonicalRoots.mp ha) b (mem_canonicalRoots.mp hb)
  · intro a ha
    apply h.outside a
    simp only [Policy.normal, mem_append, mem_filter, mem_canonicalRoots] at ha ⊢
    exact ha
  · intro hversion
    obtain ⟨scope, hscope⟩ := h.output hversion
    refine ⟨scope, hscope.scope_eq, hscope.accepted, fun path hpath ↦ ?_, fun hroot ↦ ?_⟩
    · apply hscope.isProtected path
      simpa only [Policy.normal, mem_append, mem_canonicalRoots] using hpath
    · exact hscope.root (mem_canonicalRoots.mp hroot)

theorem canonicalRoots_canonicalRoots (roots : List String) :
    canonicalRoots (canonicalRoots roots) = canonicalRoots roots := by
  calc
    canonicalRoots (canonicalRoots roots) =
        (canonical (canonical (roots.map folder))).map withoutSlash := by
      rw [← map_folder_canonicalRoots]
      rfl
    _ = canonicalRoots roots := by
      rw [canonical_canonical]
      rfl

theorem Policy.normal_normal (policy : Policy) : policy.normal.normal = policy.normal := by
  unfold Policy.normal
  simp only [canonicalRoots_canonicalRoots]

/-- A normal form is its own normal form. -/
theorem normalizePolicy_normal (h : normalizePolicy host policy = .ok result) :
    normalizePolicy host result = .ok result := by
  obtain ⟨haccepted, rfl⟩ := normalizePolicy_eq_ok.mp h
  exact normalizePolicy_eq_ok.mpr ⟨haccepted.normal, (Policy.normal_normal policy).symm⟩

end Simmis.KnowledgeInputs
