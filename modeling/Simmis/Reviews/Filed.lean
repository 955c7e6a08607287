import Simmis.Reviews.Calls

/-!
# What is filed

A proposal is filed of a recorded, escalated Review, with an id that is a function of the Review and
that is taken once.
-/

namespace Simmis.Reviews

open List

variable {R U W P T K : Type}

/-- What is filed. -/
structure Filed (proposalId : R → U) (s : State R U W P T K) : Prop where
  reviews : (s.store.reviews.map Review.id).Nodup
  proposals : ∀ proposal ∈ s.store.proposals, ∃ review ∈ s.store.reviews, ∃ context,
    review.decision = .escalated ∧ proposal.filing = filingOf proposalId review context
  ids : (s.store.proposals.map fun proposal ↦ proposal.filing.id).Nodup
  filers : ∀ filer ∈ s.filers, filer.Sighted s.store.reviews

theorem Filed.unique {proposalId : R → U} {s : State R U W P T K}
    (h : Filed proposalId s) {proposal proposal' : Proposal R U W P T K}
    (hmem : proposal ∈ s.store.proposals) (hmem' : proposal' ∈ s.store.proposals)
    (hid : proposal.filing.id = proposal'.filing.id) : proposal = proposal' :=
  inj_on_of_nodup_map h.ids hmem hmem' hid

section

variable {proposalId : R → U} {s : State R U W P T K}

theorem get_eq_none [DecidableEq U] {store : Store R U W P T K} {id : U} (h : store.get id = none) :
    ∀ proposal ∈ store.proposals, proposal.filing.id ≠ id := by
  intro proposal hmem hid
  have hnot := find?_eq_none.mp h proposal hmem
  exact hnot (decide_eq_true hid)

variable [DecidableEq U] [DecidableEq W]

theorem Filed.moves {s' : State R U W P T K} (h : Filed proposalId s)
    (hmoves : Moves proposalId s s') : Filed proposalId s' := by
  cases hmoves with
  | notes reviews filers hreviews hids hfilers =>
    refine ⟨hids h.reviews, fun proposal hproposal ↦ ?_, h.ids, hfilers h.filers⟩
    obtain ⟨review, hmem, hfiled⟩ := h.proposals proposal hproposal
    exact ⟨review, hreviews hmem, hfiled⟩
  | files filer filers hmem hstage hnone hfilers =>
    refine ⟨h.reviews, ?_, ?_, hfilers h.filers⟩
    · intro proposal hproposal
      obtain hproposal | hproposal := mem_append.mp hproposal
      · exact h.proposals proposal hproposal
      · obtain rfl := mem_singleton.mp hproposal
        obtain ⟨hreview, hescalated⟩ := h.filers filer hmem
        exact ⟨filer.review, hreview, filer.context, hescalated hstage, rfl⟩
    · rw [map_append, nodup_append]
      refine ⟨h.ids, nodup_singleton _, ?_⟩
      rintro a ha b hb rfl
      obtain ⟨proposal, hproposal, rfl⟩ := mem_map.mp ha
      rw [map_singleton, mem_singleton] at hb
      exact get_eq_none hnone proposal hproposal hb
  | acts i old new store hold hproceeds hcontinues =>
    obtain ⟨hreviews, hfilings⟩ := hproceeds.filings
    have hproposals : ∀ filing ∈ s.store.proposals.map Proposal.filing,
        ∃ review ∈ s.store.reviews, ∃ context,
          review.decision = .escalated ∧ filing = filingOf proposalId review context :=
      forall_mem_map.mpr h.proposals
    have hids : ((s.store.proposals.map Proposal.filing).map Filing.id).Nodup := by
      rw [map_map]
      exact h.ids
    rw [← hfilings, ← hreviews] at hproposals
    rw [← hfilings, map_map] at hids
    exact ⟨hreviews ▸ h.reviews, fun _ hmem ↦ hproposals _ (mem_map_of_mem hmem), hids,
      hreviews ▸ h.filers⟩
  | _ => exact { h with }

end

end Simmis.Reviews
