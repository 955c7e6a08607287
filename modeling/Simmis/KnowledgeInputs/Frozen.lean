import Simmis.KnowledgeInputs.Evidence
import Simmis.KnowledgeInputs.OwnOutput
import Simmis.Library.Codes

/-!
# Frozen evidence and its identities

The identity of a trigger depends on the policy, the repository and the trigger files only, the one
of an execution on the context files as well.
-/

namespace Simmis.KnowledgeInputs

open List Option Documents Maps Text

section

variable {R : Type} {codec : Codec R} {db : Db} {policy : Policy} {selected : Selected}

/-- Where the identities of a selection come from. -/
structure Identified (codec : Codec R) (policy : Policy) (selected : Selected) : Prop where
  triggerId : selected.triggerId = codec.hashTrigger selected.manifest.repository policy.normal
    (selected.manifest.ofRole .trigger)
  executionId : selected.executionId = codec.hashExecution selected.triggerId
    (selected.manifest.ofRole .context)

theorem sorted_of_pairwise {files : FileMap} (hpairwise : files.Pairwise fun p q ↦ le p.1 q.1)
    (hnodup : (files.map (·.1)).Nodup) : sorted le files = files :=
  sorted_of_perm textLe_total textLe_trans textLe_antisymm (List.Perm.refl _) hpairwise hnodup

theorem Manifest.sorted_ofRole {manifest : Manifest} (role : Role)
    (hpairwise : manifest.files.Pairwise fun a b ↦ le a.path b.path)
    (hpaths : (manifest.files.map ManifestFile.path).Nodup) :
    sorted le (manifest.ofRole role) = manifest.ofRole role := by
  apply sorted_of_pairwise
  · exact pairwise_map.mpr (hpairwise.sublist filter_sublist)
  · have hsublist := (filter_sublist (l := manifest.files)
      (p := fun file ↦ file.role = role)).map ManifestFile.path
    unfold Manifest.ofRole
    rw [List.map_map]
    exact hpaths.sublist hsublist

theorem sortByPath_pairwise (files : List ManifestFile) :
    (sortByPath files).Pairwise fun a b ↦ le a.path b.path := by
  have htotal : Std.Total fun a b : ManifestFile ↦ le a.path b.path :=
    ⟨fun a b ↦ textLe_total a.path b.path⟩
  have htrans : IsTrans ManifestFile fun a b ↦ le a.path b.path :=
    ⟨fun a b c ↦ textLe_trans a.path b.path c.path⟩
  exact pairwise_insertionSort (fun a b : ManifestFile ↦ le a.path b.path) _

theorem Selects.ofRole (h : Selects codec db policy selected) (role : Role) :
    selected.manifest.ofRole role = roleFiles db policy.normal role := by
  have hpairwise : selected.manifest.files.Pairwise fun a b ↦ le a.path b.path := by
    rw [h.manifest]
    exact sortByPath_pairwise _
  rw [← sorted_ofRole role h.files_perm]
  exact (Manifest.sorted_ofRole role hpairwise h.verifiedManifest.paths).symm

theorem Selects.identified (h : Selects codec db policy selected) :
    Identified codec policy selected := by
  constructor
  · rw [h.ofRole, h.triggerId]
    conv_lhs => rw [h.manifest]
    rfl
  · rw [h.ofRole, h.executionId, h.triggerId]
    conv_lhs => rw [h.manifest]
    conv_rhs => rw [h.manifest]
    rfl

theorem filesOf_eq {entries : List ExplicitFile} (role : Role)
    (hpairwise : entries.Pairwise fun a b ↦ le a.path b.path)
    (hnodup : (entries.map ExplicitFile.path).Nodup) : filesOf entries role =
      (entries.filter fun file ↦ file.role = role).map fun file ↦ (file.path, file.entry) := by
  apply sorted_of_pairwise
  · exact pairwise_map.mpr (hpairwise.sublist filter_sublist)
  · have hsublist := (filter_sublist (l := entries)
      (p := fun file ↦ file.role = role)).map ExplicitFile.path
    rw [List.map_map]
    exact hnodup.sublist hsublist

theorem selectionOfFiles_identified {files : List ExplicitFile}
    (h : selectionOfFiles codec db policy files = .ok selected) :
    Identified codec policy selected := by
  obtain ⟨normal, hnormal, h⟩ := bind_eq_ok.mp h
  obtain ⟨-, rfl⟩ := normalizePolicy_eq_ok.mp hnormal
  obtain ⟨-, h⟩ := require_bind_eq_ok.mp h
  obtain ⟨hpaths, h⟩ := require_bind_eq_ok.mp h
  obtain ⟨u, -, h⟩ := bind_eq_ok.mp h
  obtain ⟨repository, -, h⟩ := bind_eq_ok.mp h
  obtain ⟨-, h⟩ := require_bind_eq_ok.mp h
  obtain ⟨-, h⟩ := require_bind_eq_ok.mp h
  cases h
  have htotal : Std.Total fun a b : ExplicitFile ↦ le a.path b.path :=
    ⟨fun a b ↦ textLe_total a.path b.path⟩
  have htrans : IsTrans ExplicitFile fun a b ↦ le a.path b.path :=
    ⟨fun a b c ↦ textLe_trans a.path b.path c.path⟩
  have hpairwise := pairwise_insertionSort
    (fun a b : ExplicitFile ↦ le a.path b.path) files
  have hofRole : ∀ role, filesOf (files.insertionSort fun a b ↦ le a.path b.path) role =
      (((files.insertionSort fun a b ↦ le a.path b.path).map fun file ↦
        (⟨file.path, file.role, inputPath file.path, file.entry⟩ : ManifestFile)).filter
          fun file ↦ file.role = role).map fun file ↦ (file.path, file.entry) := by
    intro role
    rw [filesOf_eq role hpairwise hpaths, List.filter_map, List.map_map]
    rfl
  exact ⟨congrArg _ (hofRole .trigger), congrArg _ (hofRole .context)⟩

/-- A capture comes back from its inputs, every listed file has its role, and other inputs give
another manifest. -/
structure Frozen (codec : Codec R) (policy : Policy) (captured : Captured) : Prop where
  verified : verifyCapture codec policy captured = .ok captured
  rebuilt : ∀ outside files : Inputs, (∀ file ∈ outside, isOwned file.1 = false) →
    files.Perm (outside ++ captured.inputs) → fromInputs codec policy files = .ok captured
  roles : ∀ file ∈ captured.manifest.files,
    rolePath captured.manifest.policy file.role file.path = true
  disjoint : ∀ path, ¬ (rolePath captured.manifest.policy .trigger path = true ∧
    rolePath captured.manifest.policy .context path = true)
  once : (captured.manifest.files.map ManifestFile.path).Nodup
  tampered : ∀ files captured', owned files ≠ captured.inputs →
    fromInputs codec policy files = .ok captured' →
      captured'.manifest ≠ captured.manifest ∧
        verifyManifest codec policy captured'.manifest = .ok captured'.manifest

theorem Verified.frozen (hcodec : codec.Lawful) {captured : Captured}
    (h : Verified codec policy captured) (hmap : IsMap captured.inputs) :
    Frozen codec policy captured := by
  refine ⟨verifyCapture_eq_ok.mpr ⟨h, rfl⟩, ?_, ?_, ?_, h.manifest.paths, ?_⟩
  · intro outside files houtside hperm
    exact (fromInputs_eq_ok hcodec).mpr ⟨h, (h.owned hmap houtside hperm).symm⟩
  · intro file hfile
    rw [h.manifest.policy_eq]
    exact (h.manifest.files file hfile).2.2
  · rw [h.manifest.policy_eq]
    exact h.manifest.accepted.normal.roles_disjoint
  · intro files captured' hne hrebuilt
    obtain ⟨hverified, hinputs⟩ := (fromInputs_eq_ok hcodec).mp hrebuilt
    have hmap' : IsMap captured'.inputs := hinputs ▸ isMap_sorted _
    refine ⟨fun hmanifest ↦ hne ?_, verifyManifest_eq_ok.mpr ⟨hverified.manifest, rfl⟩⟩
    rw [← hinputs, h.inputs_eq hcodec hverified hmap hmap' hmanifest]

/-- A selection of the folders or of explicit files. -/
def IsSelection (codec : Codec R) (db : Db) (policy : Policy) (selected : Selected) : Prop :=
  selection codec db policy = .ok selected ∨
    ∃ files, selectionOfFiles codec db policy files = .ok selected

theorem IsSelection.identified (h : IsSelection codec db policy selected) :
    Identified codec policy selected := by
  obtain h | ⟨files, h⟩ := h
  · exact (selection_selects h).identified
  · exact selectionOfFiles_identified h

/-- Frozen evidence round-trips, and the identities depend on what they are to depend on. -/
theorem frozen_evidence (hcodec : codec.Lawful) (policy : Policy) :
    (∀ db captured, (capture codec db policy = .ok captured ∨
      ∃ files, captureFiles codec db policy files = .ok captured) → Frozen codec policy captured) ∧
    (∀ db selected, UniquePaths db → selection codec db policy = .ok selected →
      ∃ explicit, selectionOfFiles codec db policy
          (selected.manifest.files.map ManifestFile.explicit) = .ok explicit ∧
        explicit.triggerId = selected.triggerId ∧ explicit.executionId = selected.executionId ∧
        explicit.manifest.files = selected.manifest.files) ∧
    (∀ db db' selected selected', IsSelection codec db policy selected →
      IsSelection codec db' policy selected' →
      selected.manifest.repository = selected'.manifest.repository →
      selected.manifest.ofRole .trigger = selected'.manifest.ofRole .trigger →
        selected.triggerId = selected'.triggerId ∧
        (selected.manifest.ofRole .context ≠ selected'.manifest.ofRole .context →
          selected.executionId ≠ selected'.executionId)) := by
  refine ⟨?_, ?_, ?_⟩
  · rintro db captured (h | ⟨files, h⟩)
    · obtain ⟨hverified, hmap⟩ := capture_verified hcodec h
      exact hverified.frozen hcodec hmap
    · obtain ⟨hverified, hmap⟩ := captureFiles_verified h
      exact hverified.frozen hcodec hmap
  · intro db selected hunique h
    exact selectionOfFiles_selected hcodec hunique (selection_selects h)
  · intro db db' selected selected' h h' hrepository htrigger
    have hid : selected.triggerId = selected'.triggerId := by
      rw [h.identified.triggerId, h'.identified.triggerId, hrepository, htrigger]
    refine ⟨hid, fun hne hsame ↦ hne ?_⟩
    rw [h.identified.executionId, h'.identified.executionId, hid] at hsame
    exact hcodec.execution_injective _ _ _ hsame

end

namespace Codes

open Simmis.Codes

def role : Code Role :=
  nat.via (fun role ↦ match role with | .trigger => 0 | .context => 1)
    (fun n ↦ if n = 0 then .trigger else .context) fun role ↦ by cases role <;> rfl

def entry : Code View.FileEntry :=
  (nat.option.pair (int.option.pair int.option)).via
    (fun entry ↦ (entry.content, entry.size, entry.mode)) (fun p ↦ ⟨p.1, p.2.1, p.2.2⟩)
    fun _ ↦ rfl

def files : Code FileMap := (string.pair entry).list

def scope : Code Scope :=
  (string.pair string.list).via (fun scope ↦ (scope.destinationRoot, scope.excludePrefixes))
    (fun p ↦ ⟨p.1, p.2⟩) fun _ ↦ rfl

def policy : Code Policy :=
  (nat.pair (string.list.pair (string.list.pair (string.list.pair scope.option)))).via
    (fun policy ↦ (policy.version, policy.triggerRoots, policy.contextRoots,
      policy.excludePrefixes, policy.outputScope))
    (fun p ↦ ⟨p.1, p.2.1, p.2.2.1, p.2.2.2.1, p.2.2.2.2⟩) fun _ ↦ rfl

def file : Code ManifestFile :=
  (string.pair (role.pair (string.pair entry))).via
    (fun file ↦ (file.path, file.role, file.input, file.entry))
    (fun p ↦ ⟨p.1, p.2.1, p.2.2.1, p.2.2.2⟩) fun _ ↦ rfl

/-- Both layouts are equally long. -/
def layout : Code Layout :=
  nat.via (fun layout ↦ match layout with | .merged => 2 | .explicit => 3)
    (fun n ↦ if n = 2 then .merged else .explicit) fun layout ↦ by cases layout <;> rfl

def manifest : Code Manifest :=
  (layout.pair (nat.pair (nat.pair (policy.pair (nat.pair (nat.pair file.list)))))).via
    (fun manifest ↦ (manifest.layout, manifest.version, manifest.repository, manifest.policy,
      manifest.triggerId, manifest.executionId, manifest.files))
    (fun p ↦ ⟨p.1, p.2.1, p.2.2.1, p.2.2.2.1, p.2.2.2.2.1, p.2.2.2.2.2.1, p.2.2.2.2.2.2⟩)
    fun _ ↦ rfl

end Codes

/-- Bytes as the digits of a number. -/
def blobNumber (bytes : List UInt8) : ℕ := Nat.ofDigits 257 (bytes.map fun b ↦ b.toNat + 1)

theorem blobNumber_injective : Function.Injective blobNumber := by
  have hdigits : ∀ bytes, Nat.digits 257 (blobNumber bytes) = bytes.map fun b ↦ b.toNat + 1 := by
    intro bytes
    apply Nat.digits_ofDigits 257 (by decide)
    · intro digit hdigit
      obtain ⟨b, -, rfl⟩ := mem_map.mp hdigit
      have hlt := b.toNat_lt
      omega
    · intro hne
      obtain ⟨b, -, hb⟩ := mem_map.mp (getLast_mem hne)
      omega
  intro bytes bytes' h
  have hbytes := (hdigits bytes).symm.trans ((congrArg _ h).trans (hdigits bytes'))
  exact map_injective_iff.mpr
    (fun a b hab ↦ UInt8.toNat_inj.mp (Nat.succ_injective hab)) hbytes

/-- A codec whose hashes are codes; the store holds the content of all files. -/
def codes : Codec ℕ :=
  { exampleView with
    readById := fun _ id ↦ if id = 0x77 then some [118] else none
    hashTrigger := fun repository policy files ↦
      (Simmis.Codes.nat.pair (Codes.policy.pair Codes.files)).number (repository, policy, files)
    hashExecution := fun triggerId files ↦
      (Simmis.Codes.nat.pair Codes.files).number (triggerId, files)
    print := Codes.manifest.print
    read := fun text ↦ some (Codes.manifest.parse text)
    blobId := blobNumber }

theorem codes_lawful : codes.Lawful where
  read_print manifest := congrArg some (Codes.manifest.parse_print manifest)
  blobId_injective := blobNumber_injective
  stored db id bytes h := by
    change (if id = 0x77 then some [118] else none) = some bytes at h
    split at h
    · cases h
      subst id
      decide
    · cases h
  execution_injective id files files' h := by
    have hsame := (Simmis.Codes.nat.pair Codes.files).number_injective h
    exact (Prod.mk.inj hsame).2
  layout manifest layout := by
    have hprint : ∀ manifest : Manifest, codes.print manifest =
        Simmis.Codes.toText (Codes.layout.write manifest.layout) ++
          Simmis.Codes.toText ((Codes.manifest.write { manifest with layout := .merged }).drop 1) := by
      intro manifest
      rw [← Simmis.Codes.toText_append]
      rfl
    have hlayout : ∀ layout, (Simmis.Codes.toText (Codes.layout.write layout)).utf8ByteSize = 1 := by
      intro layout
      cases layout <;> decide +kernel
    unfold byteCount
    rw [hprint, hprint, String.utf8ByteSize_append, String.utf8ByteSize_append, hlayout, hlayout]

/-- A trigger file and a context file are captured. -/
theorem frozen_evidence_example :
    ∃ captured, capture codes (worktree ["inbox/a.md", "wiki/b.md"] []) defaultPolicy = .ok captured ∧
      captured.manifest.files.length = 2 ∧ Frozen codes defaultPolicy captured := by
  have hfiles : (capture codes (worktree ["inbox/a.md", "wiki/b.md"] []) defaultPolicy).toOption.map
      (fun captured ↦ captured.manifest.files.length) = some 2 := by
    have hprint (manifest : Manifest) : byteCount (codes.print manifest) =
        (Simmis.Codes.pack (Codes.manifest.write manifest)).length :=
      congrArg Nat.cast (Simmis.Codes.utf8ByteSize_toText _)
    unfold capture selection
    simp only [hprint]
    decide +kernel
  have hfrozen := (frozen_evidence codes_lawful defaultPolicy).1
    (worktree ["inbox/a.md", "wiki/b.md"] [])
  cases hcapture : capture codes (worktree ["inbox/a.md", "wiki/b.md"] []) defaultPolicy with
  | error e =>
    rw [hcapture] at hfiles
    cases hfiles
  | ok captured =>
    rw [hcapture] at hfiles
    exact ⟨captured, rfl, some.inj hfiles, hfrozen captured (.inl hcapture)⟩

end Simmis.KnowledgeInputs
