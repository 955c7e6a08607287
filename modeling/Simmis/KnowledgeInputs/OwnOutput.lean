import Simmis.KnowledgeInputs.Occupancy
import Simmis.KnowledgeInputs.Selection

/-!
# A workflow and its own output

An adopted output changes the worktree at targets of the policy only. It does not trigger the workflow
again if no target is a trigger.
-/

namespace Simmis.KnowledgeInputs

open Documents

variable {R : Type} {codec : Codec R} {policy result : Policy}

/-- Two databases of one repository, whose worktrees differ at most where `p` holds. -/
structure DifferAt (host : View.Host R) (p : String → Prop) (db db' : Db) : Prop where
  repository : (host.repository db).id = (host.repository db').id
  files : ∀ path, ¬ p path → worktreeFile db path = worktreeFile db' path

/-- A normal form is stable, with disjoint roles and no trigger among its targets. -/
structure NeverTriggered (codec : Codec R) (policy result : Policy) : Prop where
  stable : normalizePolicy codec.toHost result = .ok result
  disjoint : ∀ path, ¬ (rolePath result .trigger path = true ∧ rolePath result .context path = true)
  targets : ∀ path, Admissible codec.toHost result.outputScope path →
    rolePath result .trigger path = false
  identity : ∀ db db' selected selected',
    DifferAt codec.toHost (Admissible codec.toHost result.outputScope) db db' →
    selection codec db policy = .ok selected → selection codec db' policy = .ok selected' →
    selected.triggerId = selected'.triggerId ∧ selected.isEmpty = selected'.isEmpty

theorem outputSafe_normal (policy : Policy) : outputSafe policy.normal = outputSafe policy := by
  unfold outputSafe Policy.normal
  simp only [mem_canonicalRoots]

theorem same_trigger {db db' : Db} {selected selected' : Selected}
    (htargets : ∀ path, Admissible codec.toHost policy.normal.outputScope path →
      rolePath policy.normal .trigger path = false)
    (hdiffer : DifferAt codec.toHost (Admissible codec.toHost policy.normal.outputScope) db db')
    (h : Selects codec db policy selected) (h' : Selects codec db' policy selected') :
    selected.triggerId = selected'.triggerId ∧ selected.isEmpty = selected'.isEmpty := by
  have hfiles : roleFiles db policy.normal .trigger = roleFiles db' policy.normal .trigger := by
    apply roleFiles_congr
    intro path hrole
    apply hdiffer.files path
    intro htarget
    rw [htargets path htarget] at hrole
    cases hrole
  have hrepository : selected.manifest.repository = selected'.manifest.repository := by
    apply Option.some.inj
    rw [← h.repository, ← h'.repository]
    exact hdiffer.repository
  constructor
  · calc
      selected.triggerId = codec.hashTrigger selected.manifest.repository policy.normal
          (roleFiles db policy.normal .trigger) := by
        rw [h.triggerId, h.manifest]
        rfl
      _ = codec.hashTrigger selected'.manifest.repository policy.normal
          (roleFiles db' policy.normal .trigger) := by rw [hrepository, hfiles]
      _ = selected'.triggerId := by
        rw [h'.triggerId, h'.manifest]
        rfl
  · rw [h.isEmpty, h'.isEmpty, hfiles]

theorem Policy.Accepted.scope_v1 {host : View.Host R} (h : policy.Accepted host)
    (hversion : policy.version = 1) : policy.outputScope = none := by
  obtain hfits | hfits := h.fits
  · unfold fitsV1 at hfits
    rw [decide_eq_true_eq] at hfits
    exact hfits.2.2.2.2
  · unfold fitsV2 at hfits
    rw [decide_eq_true_eq] at hfits
    omega

/-- A codec whose hashes count files. -/
def exampleCodec : Codec ℕ :=
  { exampleView with
    hashTrigger := fun _ _ files ↦ files.length
    hashExecution := fun triggerId files ↦ triggerId + 1000 * files.length
    print := fun manifest ↦ " ".intercalate (manifest.files.map ManifestFile.path)
    read := fun _ ↦ none
    blobId := List.length }

/-- `default-policy` -/
def defaultPolicy : Policy := ⟨1, ["inbox", "transcripts"], ["wiki"], [], none⟩

end Simmis.KnowledgeInputs
