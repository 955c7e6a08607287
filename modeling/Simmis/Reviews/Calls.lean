import Mathlib.Data.List.Nodup
import Simmis.Reviews.Process

/-!
# What one step of a decision can do

A call settles a world, records its decision and writes its labels in this order; every other step
leaves the store alone.
-/

namespace Simmis.Reviews

open Proposal List Decider Function

variable {R U W P T K : Type}

variable {proposal : Proposal R U W P T K}

theorem status_eq_open (h : proposal.resolution = none) : proposal.status = .open := by
  unfold status
  rw [h]
  rfl

theorem status_ne_open (h : proposal.status ≠ .open) :
    ∃ resolution, proposal.resolution = some resolution := by
  cases hresolution : proposal.resolution with
  | none => exact absurd (status_eq_open hresolution) h
  | some resolution => exact ⟨resolution, rfl⟩

theorem status_eq {resolution : Resolution P} (h : proposal.resolution = some resolution) :
    proposal.status = resolution.verdict.status := by
  unfold status
  rw [h]
  rfl

theorem status_eq_decided {verdict : Verdict} (h : proposal.status = verdict.status) :
    ∃ resolution, proposal.resolution = some resolution ∧ resolution.verdict = verdict := by
  have hdecided : proposal.status ≠ .open := by
    rw [h]
    cases verdict <;> decide
  obtain ⟨resolution, hresolution⟩ := status_ne_open hdecided
  rw [status_eq hresolution] at h
  refine ⟨resolution, hresolution, ?_⟩
  revert h
  cases resolution.verdict <;> cases verdict <;> decide

/-- The claim of a call that has settled its world. -/
def Stage.held : Stage R U W P T K → Option (Claim R U W P T K)
  | .settled claim => some claim
  | .recorded claim => some claim
  | .labelled claim => some claim
  | _ => none

/-- The claim of a call that has recorded its decision. -/
def Stage.decided : Stage R U W P T K → Option (Claim R U W P T K)
  | .recorded claim => some claim
  | .labelled claim => some claim
  | _ => none

/-- The claim of a call that has recorded its labels. -/
def Stage.done : Stage R U W P T K → Option (Claim R U W P T K)
  | .labelled claim => some claim
  | _ => none

def Stage.claim : Stage R U W P T K → Option (Claim R U W P T K)
  | .called => none
  | .checked claim => some claim
  | .found claim => some claim
  | .settled claim => some claim
  | .recorded claim => some claim
  | .labelled claim => some claim

variable {stage : Stage R U W P T K}

theorem Stage.held_of_decided {claim : Claim R U W P T K} (h : stage.decided = some claim) :
    stage.held = some claim := by
  cases stage with
  | recorded claim => exact h
  | labelled claim => exact h
  | _ => cases h

theorem Stage.decided_of_done {claim : Claim R U W P T K} (h : stage.done = some claim) :
    stage.decided = some claim := by
  cases stage with
  | labelled claim => exact h
  | _ => cases h

theorem Stage.decided_cases {claim : Claim R U W P T K} (h : stage.decided = some claim) :
    stage = .recorded claim ∨ stage = .labelled claim := by
  cases stage with
  | recorded claim =>
    cases h
    exact .inl rfl
  | labelled claim =>
    cases h
    exact .inr rfl
  | _ => cases h

theorem Stage.held_cases {claim : Claim R U W P T K} (h : stage.held = some claim) :
    stage = .settled claim ∨ stage.decided = some claim := by
  cases stage with
  | settled claim =>
    cases h
    exact .inl rfl
  | recorded claim => exact .inr h
  | labelled claim => exact .inr h
  | _ => cases h

theorem Stage.claim_of_held {claim : Claim R U W P T K} (h : stage.held = some claim) :
    stage.claim = some claim := by
  cases stage with
  | settled claim => exact h
  | recorded claim => exact h
  | labelled claim => exact h
  | _ => cases h

def Decider.resolution (decider : Decider R U W P T K) (claim : Claim R U W P T K) : Resolution P :=
  ⟨decider.verdict, claim.by_, cleaned decider.note⟩

/-- The labels that a decision asks for. -/
def decisionLabels (filing : Filing R U W P T K) (resolution : Resolution P) :
    List (Label R U P K) :=
  let label (about : About) : Label R U P K := {
    subject := filing.id
    about
    review := filing.review
    policy := filing.reviewPolicy
    reviewerVerdict := filing.reviewerVerdict
    workflow := filing.workflow
    verdict := resolution.verdict
    by_ := resolution.by_
    reasons := resolution.note }
  label .workflow :: if filing.isSpotCheck then [label .reviewer] else []

theorem labelsOf_eq (decider : Decider R U W P T K) (claim : Claim R U W P T K) :
    labelsOf decider claim = decisionLabels claim.filing (decider.resolution claim) := rfl

theorem subject_of_mem {filing : Filing R U W P T K} {resolution : Resolution P}
    {label : Label R U P K} (h : label ∈ decisionLabels filing resolution) :
    label.subject = filing.id := by
  obtain rfl | h := mem_cons.mp h
  · rfl
  · split at h
    · obtain rfl := mem_singleton.mp h
      rfl
    · cases h

/-- A state of a call, and its next one. -/
structure Decider.Continues (old new : Decider R U W P T K) : Prop where
  proposal : new.proposal = old.proposal
  verdict : new.verdict = old.verdict
  party : new.party = old.party
  note : new.note = old.note
  running : old.ended = none
  returned : new.ended = some .returned → ∃ claim, new.stage = .labelled claim

theorem Decider.Continues.resolution {old new : Decider R U W P T K} (h : old.Continues new)
    (claim : Claim R U W P T K) : new.resolution claim = old.resolution claim := by
  unfold Decider.resolution
  rw [h.verdict, h.note]

theorem at_continues {decider : Decider R U W P T K} (hrunning : decider.ended = none)
    (stage : Stage R U W P T K) : decider.Continues (decider.at stage) := by
  refine ⟨rfl, rfl, rfl, rfl, hrunning, fun hreturned ↦ ?_⟩
  change decider.ended = _ at hreturned
  rw [hrunning] at hreturned
  cases hreturned

theorem settle_eq_ok [DecidableEq T] {verdict : Verdict} {expected : T} {world world' : World T}
    (h : settle verdict expected world = .ok world') :
    world.isLive = true ∧ world' = verdict.outcome expected := by
  cases verdict with
  | accept =>
    cases world with
    | live token =>
      change (if token = expected then _ else _) = _ at h
      split at h
      · cases h
        subst expected
        exact ⟨rfl, rfl⟩
      · cases h
    | _ => cases h
  | reject =>
    cases world with
    | live token =>
      cases h
      exact ⟨rfl, rfl⟩
    | _ => cases h

theorem get_eq_some [DecidableEq U] {store : Store R U W P T K} {id : U}
    (h : store.get id = some proposal) : proposal ∈ store.proposals ∧ proposal.filing.id = id := by
  refine ⟨mem_of_find?_eq_some h, ?_⟩
  have hid := find?_some h
  rwa [decide_eq_true_eq] at hid

variable (store : Store R U W P T K)

@[simp] theorem settled_worlds_self [DecidableEq W] (world : W) (outcome : World T) :
    (store.settled world outcome).worlds world = outcome :=
  update_self ..

theorem settled_worlds_of_ne [DecidableEq W] {world other : W} (outcome : World T)
    (h : other ≠ world) :
    (store.settled world outcome).worlds other = store.worlds other :=
  update_of_ne h ..

theorem record_filings [DecidableEq U] (id : U) (resolution : Resolution P) :
    (store.record id resolution).proposals.map filing = store.proposals.map filing := by
  unfold Store.record
  rw [map_map]
  apply map_congr_left
  intro proposal _
  rw [comp_apply]
  split
  · rfl
  · rfl

section

variable [DecidableEq U] [DecidableEq W]

/-- What a step of a call does to the store. -/
inductive Proceeds (store : Store R U W P T K) (old new : Decider R U W P T K) :
    Store R U W P T K → Prop
  | stays (hstage : new.stage = old.stage) : Proceeds store old new store
  | checks (claim : Claim R U W P T K) (proposal : Proposal R U W P T K)
      (hold : old.stage = .called) (hnew : new.stage = .checked claim)
      (hmem : proposal ∈ store.proposals) (hfiling : proposal.filing = claim.filing)
      (hid : claim.filing.id = old.proposal) (hparty : old.party = some claim.by_) :
      Proceeds store old new store
  | finds (claim : Claim R U W P T K) (hold : old.stage = .checked claim)
      (hnew : new.stage = .found claim) : Proceeds store old new store
  | settles (claim : Claim R U W P T K) (hold : old.stage = .found claim)
      (hnew : new.stage = .settled claim)
      (hlive : (store.worlds claim.filing.world).isLive = true) :
      Proceeds store old new
        (store.settled claim.filing.world (old.verdict.outcome claim.filing.reviewState))
  | records (claim : Claim R U W P T K) (hold : old.stage = .settled claim)
      (hnew : new.stage = .recorded claim) :
      Proceeds store old new (store.record claim.filing.id (old.resolution claim))
  | labels (claim : Claim R U W P T K) (hold : old.stage = .recorded claim)
      (hnew : new.stage = .labelled claim) :
      Proceeds store old new (store.labelled (labelsOf old claim))

variable {decider : Decider R U W P T K} (store : Store R U W P T K)

section

variable (hrunning : decider.ended = none)
include hrunning

theorem raise_proceeds (refusal : Refusal) : Proceeds store decider (decider.raise refusal) store ∧
      decider.Continues (decider.raise refusal) :=
  ⟨.stays rfl, rfl, rfl, rfl, rfl, hrunning, nofun⟩

theorem check_proceeds (mayMerge : Bool) (hcalled : decider.stage = .called) :
    Proceeds store decider (decider.check store mayMerge) store ∧
      decider.Continues (decider.check store mayMerge) := by
  unfold check
  split
  · exact raise_proceeds store hrunning _
  · rename_i proposal hget
    obtain ⟨hmem, hid⟩ := get_eq_some hget
    split
    · exact raise_proceeds store hrunning _
    · split
      · exact raise_proceeds store hrunning _
      · rename_i party hparty
        split
        · exact ⟨.checks ⟨proposal.filing, party⟩ proposal hcalled rfl hmem rfl hid hparty,
            at_continues hrunning _⟩
        · exact raise_proceeds store hrunning _

theorem proceed_proceeds [DecidableEq T] (action : Action) :
    Proceeds store decider (decider.proceed store action).2 (decider.proceed store action).1 ∧
      decider.Continues (decider.proceed store action).2 := by
  unfold proceed
  split
  · exact ⟨.stays rfl, rfl, rfl, rfl, rfl, hrunning, nofun⟩
  · rename_i mayMerge hstage
    exact check_proceeds store hrunning mayMerge hstage
  · rename_i roomLive claim hstage
    split
    · exact raise_proceeds store hrunning _
    · split
      · exact ⟨.finds claim hstage rfl, at_continues hrunning _⟩
      · exact raise_proceeds store hrunning _
  · exact raise_proceeds store hrunning _
  · rename_i claim hstage
    split
    · exact raise_proceeds store hrunning _
    · rename_i world hsettle
      obtain ⟨hlive, rfl⟩ := settle_eq_ok hsettle
      exact ⟨.settles claim hstage rfl hlive, at_continues hrunning _⟩
  · exact raise_proceeds store hrunning _
  · rename_i claim hstage
    exact ⟨.records claim hstage rfl, at_continues hrunning _⟩
  · exact raise_proceeds store hrunning _
  · rename_i claim hstage
    exact ⟨.labels claim hstage rfl, rfl, rfl, rfl, rfl, hrunning, fun _ ↦ ⟨claim, rfl⟩⟩
  · exact ⟨.stays rfl, at_continues hrunning decider.stage⟩

end

theorem Proceeds.filings {store store' : Store R U W P T K} {old new : Decider R U W P T K}
    (h : Proceeds store old new store') : store'.reviews = store.reviews ∧
      store'.proposals.map filing = store.proposals.map filing := by
  cases h with
  | records claim hold hnew => exact ⟨rfl, record_filings ..⟩
  | _ => exact ⟨rfl, rfl⟩

theorem Proceeds.claim {store store' : Store R U W P T K} {old new : Decider R U W P T K}
    (h : Proceeds store old new store') {claim : Claim R U W P T K}
    (hclaim : new.stage.claim = some claim) : old.stage.claim = some claim ∨
      (∃ proposal ∈ store.proposals, proposal.filing = claim.filing) ∧
        claim.filing.id = old.proposal ∧ old.party = some claim.by_ := by
  cases h with
  | stays hstage => exact .inl (hstage ▸ hclaim)
  | checks claim' proposal hold hnew hmem hfiling hid hparty =>
    rw [hnew] at hclaim
    obtain rfl := Option.some.inj hclaim
    exact .inr ⟨⟨proposal, hmem, hfiling⟩, hid, hparty⟩
  | finds claim' hold hnew | settles claim' hold hnew | records claim' hold hnew
  | labels claim' hold hnew =>
    rw [hnew] at hclaim
    exact .inl (hold ▸ hclaim)

end

theorem forall_set {α : Type} {l : List α} {i : ℕ} {new : α} {p : α → Prop} (hl : ∀ a ∈ l, p a)
    (hnew : p new) : ∀ a ∈ l.set i new, p a := by
  intro a ha
  obtain ha | rfl := mem_or_eq_of_mem_set ha
  · exact hl a ha
  · exact hnew

/-- A sighting is of a recorded Review, which is escalated if it is on its way. -/
def Filer.Sighted (reviews : List (Review R W T K)) (filer : Filer R W P T K) : Prop :=
  filer.review ∈ reviews ∧ (filer.stage ≠ .queued → filer.review.decision = .escalated)

theorem sighted_set {s : State R U W P T K} {j : ℕ} {filer new : Filer R W P T K}
    (hfiler : s.filers[j]? = some filer)
    (hnew : filer.Sighted s.store.reviews → new.Sighted s.store.reviews)
    (h : ∀ filer ∈ s.filers, filer.Sighted s.store.reviews) :
    ∀ filer ∈ s.filers.set j new, filer.Sighted s.store.reviews :=
  forall_set h (hnew (h filer (mem_of_getElem? hfiler)))

section

variable [DecidableEq U] (proposalId : R → U)

/-- Whatever a filer does, it files at most its own Review. -/
theorem filer_proceed [DecidableEq R] (store : Store R U W P T K) (filer : Filer R W P T K) :
    ((filer.proceed proposalId store).1 = store ∨
      filer.stage ≠ .queued ∧ store.get (proposalId filer.review.id) = none ∧
        (filer.proceed proposalId store).1 = { store with proposals :=
          store.proposals ++ [⟨filingOf proposalId filer.review filer.context, none⟩] }) ∧
    (filer.Sighted store.reviews → (filer.proceed proposalId store).2.Sighted store.reviews) := by
  unfold Filer.proceed
  split
  · split
    · rename_i hescalated
      exact ⟨.inl rfl, fun h ↦ ⟨h.1, fun _ ↦ hescalated.1⟩⟩
    · exact ⟨.inl rfl, id⟩
  · rename_i hstage
    have hne : filer.stage ≠ .queued := by
      rw [hstage]
      decide
    split
    · exact ⟨.inl rfl, fun h ↦ ⟨h.1, fun _ ↦ h.2 hne⟩⟩
    · exact ⟨.inl rfl, id⟩
  · rename_i hstage
    refine ⟨?_, id⟩
    unfold Store.file
    split
    · exact .inl rfl
    · rename_i hnone
      exact .inr ⟨by rw [hstage]; decide, hnone, rfl⟩

variable [DecidableEq W]

/-- What a step does: something is recorded, a live world changes, or a call begins or goes on. -/
inductive Moves (s : State R U W P T K) : State R U W P T K → Prop
  | notes (reviews : List (Review R W T K)) (filers : List (Filer R W P T K))
      (hreviews : s.store.reviews ⊆ reviews)
      (hids : (s.store.reviews.map Review.id).Nodup → (reviews.map Review.id).Nodup)
      (hfilers : (∀ filer ∈ s.filers, filer.Sighted s.store.reviews) →
        ∀ filer ∈ filers, filer.Sighted reviews) :
      Moves s { s with store := { s.store with reviews }, filers }
  | changes (world : W) (token : T) (hlive : (s.store.worlds world).isLive = true) :
      Moves s { s with store := s.store.settled world (.live token) }
  | files (filer : Filer R W P T K) (filers : List (Filer R W P T K)) (hmem : filer ∈ s.filers)
      (hstage : filer.stage ≠ .queued)
      (hnone : s.store.get (proposalId filer.review.id) = none)
      (hfilers : (∀ filer ∈ s.filers, filer.Sighted s.store.reviews) →
        ∀ filer ∈ filers, filer.Sighted s.store.reviews) :
      Moves s { s with
        store := { s.store with proposals :=
          s.store.proposals ++ [⟨filingOf proposalId filer.review filer.context, none⟩] }
        filers }
  | begins (decider : Decider R U W P T K) (hcalled : decider.stage = .called)
      (hrunning : decider.ended = none) : Moves s { s with deciders := s.deciders ++ [decider] }
  | acts (i : ℕ) (old new : Decider R U W P T K) (store : Store R U W P T K)
      (hold : s.deciders[i]? = some old) (hproceeds : Proceeds s.store old new store)
      (hcontinues : old.Continues new) :
      Moves s { s with store, deciders := s.deciders.set i new }

theorem Moves.stays (s : State R U W P T K) : Moves proposalId s s :=
  .notes _ _ (Subset.refl _) id id

variable [DecidableEq R] [DecidableEq T] [DecidableEq K]

theorem step_moves (s : State R U W P T K) (event : Event R U W P T K) :
    Moves proposalId s (step proposalId s event) := by
  unfold step
  split
  · split
    · exact .stays proposalId s
    · rename_i hfresh
      refine .notes _ _ (subset_append_left ..) (fun hids ↦ ?_)
        fun h filer hfiler ↦ ⟨mem_append_left _ (h filer hfiler).1, (h filer hfiler).2⟩
      rw [map_append, nodup_append]
      refine ⟨hids, nodup_singleton _, ?_⟩
      rintro a ha b hb rfl
      rw [map_singleton, mem_singleton] at hb
      exact hfresh (hb ▸ ha)
  · split
    · rename_i hlive
      exact .changes _ _ hlive
    · exact .stays proposalId s
  · split
    · rename_i hmem
      refine .notes _ _ (Subset.refl _) id fun h filer hfiler ↦ ?_
      obtain hfiler | hfiler := mem_append.mp hfiler
      · exact h filer hfiler
      · obtain rfl := mem_singleton.mp hfiler
        exact ⟨hmem, fun hstage ↦ absurd rfl hstage⟩
    · exact .stays proposalId s
  · refine .notes _ _ (Subset.refl _) id fun h filer hfiler ↦ ?_
    obtain hfiler | hfiler := mem_append.mp hfiler
    · exact h filer hfiler
    · obtain ⟨review, hreview, rfl⟩ := mem_map.mp hfiler
      exact ⟨(mem_filter.mp hreview).1, fun hstage ↦ absurd rfl hstage⟩
  · split
    · rename_i filer hfiler
      split
      · exact .stays proposalId s
      · obtain ⟨hstore | ⟨hstage, hnone, hstore⟩, hsighted⟩ :=
          filer_proceed proposalId s.store filer
        · simp only [hstore]
          exact .notes _ _ (Subset.refl _) id (sighted_set hfiler hsighted)
        · simp only [hstore]
          exact .files filer _ (mem_of_getElem? hfiler) hstage hnone (sighted_set hfiler hsighted)
    · exact .stays proposalId s
  · split
    · rename_i filer hfiler
      exact .notes _ _ (Subset.refl _) id (sighted_set hfiler id)
    · exact .stays proposalId s
  · exact .begins _ rfl rfl
  · split
    · rename_i decider hdecider
      split
      · exact .stays proposalId s
      · rename_i hended
        obtain ⟨hproceeds, hcontinues⟩ :=
          proceed_proceeds s.store (Option.not_isSome_iff_eq_none.mp hended) _
        exact .acts _ decider _ _ hdecider hproceeds hcontinues
    · exact .stays proposalId s

end

end Simmis.Reviews
