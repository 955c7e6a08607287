import Simmis.Library.Runs
import Simmis.Reviews.Sound

/-!
# Decisions on escalated reviews

In every state of every run the record of a decision is what happened to the world, and the labels
are those of the decision. Nothing makes up for a call that ends before its record or its labels.
-/

namespace Simmis.Reviews

open List Option Runs Stage Proposal

variable {R U W P T K : Type}

variable {resolution : Resolution P}

theorem not_reached_init {tokens : W → T} {stageOf : Stage R U W P T K → Option (Claim R U W P T K)}
    {i : ℕ} {claim : Claim R U W P T K} : ¬ Reached stageOf (.init tokens) i claim resolution := by
  rintro ⟨decider, hdecider, -⟩
  cases hdecider

section

variable [DecidableEq U] {proposalId : R → U} {s : State R U W P T K}

structure Sound (proposalId : R → U) (s : State R U W P T K) : Prop where
  filed : Filed proposalId s
  settled : Settled s
  returned : ∀ decider ∈ s.deciders, decider.ended = some .returned →
    ∃ claim, decider.stage = .labelled claim

theorem Sound.init (proposalId : R → U) (tokens : W → T) :
    Sound proposalId (.init tokens : State R U W P T K) := by
  refine ⟨⟨nodup_nil, ?_, nodup_nil, ?_⟩, ⟨?_, ?_, ?_, ?_, ?_, ?_, fun _ _ ↦ rfl⟩, ?_⟩
  · intro proposal hmem
    cases hmem
  · intro filer hmem
    cases hmem
  · intro decider hmem
    cases hmem
  · intro i claim resolution h
    exact absurd h not_reached_init
  · intro i j claim claim' resolution resolution' h
    exact absurd h not_reached_init
  · intro world hworld
    cases hworld
  · intro proposal hmem
    cases hmem
  · intro i claim resolution h
    exact absurd h not_reached_init
  · intro decider hmem
    cases hmem

theorem Sound.decided_outcome (h : Sound proposalId s) {proposal : Proposal R U W P T K}
    (hmem : proposal ∈ s.store.proposals) (verdict : Verdict)
    (hstatus : proposal.status = verdict.status) :
    s.store.worlds proposal.filing.world = verdict.outcome proposal.filing.reviewState := by
  obtain ⟨resolution, hresolution, rfl⟩ := status_eq_decided hstatus
  obtain ⟨i, claim, hdecided, hid⟩ := (h.settled.resolved proposal hmem resolution).mp hresolution
  have hheld := hdecided.mono held_of_decided
  obtain ⟨proposal', hmem', hfiling⟩ := h.settled.filed hheld
  have hsame : proposal = proposal' := h.filed.unique hmem hmem' (by rw [hfiling, hid])
  rw [hsame, hfiling]
  exact h.settled.held i claim resolution hheld

variable {decider : Decider R U W P T K}

section

variable (h : Sound proposalId s) {i : ℕ} (hdecider : s.deciders[i]? = some decider)
  {claim : Claim R U W P T K}
include h hdecider

/-- A call that has settled its world and has not recorded it leaves the proposal open. -/
theorem Sound.open_of_settled (hstage : decider.stage = .settled claim) :
    ∃ proposal ∈ s.store.proposals, proposal.filing = claim.filing ∧ proposal.resolution = none ∧
      s.store.worlds claim.filing.world = decider.verdict.outcome claim.filing.reviewState := by
  have hheld : Reached held s i claim (decider.resolution claim) :=
    ⟨decider, hdecider, by rw [hstage]; rfl, rfl⟩
  obtain ⟨proposal, hmem, hfiling⟩ := h.settled.filed hheld
  refine ⟨proposal, hmem, hfiling, ?_, h.settled.held i claim _ hheld⟩
  cases hresolution : proposal.resolution with
  | none => rfl
  | some resolution =>
    obtain ⟨j, claim', hdecided, hid⟩ :=
      (h.settled.resolved proposal hmem resolution).mp hresolution
    have hne : j ≠ i := hdecided.ne hdecider (by rw [hstage]; rfl)
    have hheld' := hdecided.mono held_of_decided
    exact absurd (h.settled.sole h.filed hheld' hheld (by rw [hid, hfiling])) hne

/-- A recorded decision has no labels before its call writes them. -/
theorem Sound.unlabelled_of_recorded (hstage : decider.stage = .recorded claim) :
    ∃ proposal ∈ s.store.proposals, proposal.filing = claim.filing ∧
      proposal.resolution = some (decider.resolution claim) ∧
      s.store.labelsAbout claim.filing.id = [] := by
  have hdecided : Reached decided s i claim (decider.resolution claim) :=
    ⟨decider, hdecider, by rw [hstage]; rfl, rfl⟩
  have hheld := hdecided.mono held_of_decided
  obtain ⟨proposal, hmem, hfiling⟩ := h.settled.filed hheld
  have hresolution : proposal.resolution = some (decider.resolution claim) :=
    (h.settled.resolved proposal hmem _).mpr ⟨i, claim, hdecided, by rw [hfiling]⟩
  refine ⟨proposal, hmem, hfiling, hresolution, h.settled.unlabelled _ ?_⟩
  intro j claim' _ hdone hid
  have hne : j ≠ i := hdone.ne hdecider (by rw [hstage]; rfl)
  have hheld' := (hdone.mono decided_of_done).mono held_of_decided
  exact hne (h.settled.sole h.filed hheld' hheld hid)

/-- A proposal on a world that was settled for another one is not decided. -/
theorem Sound.open_of_other
    (hheld : decider.stage.held = some claim) {proposal : Proposal R U W P T K}
    (hmem : proposal ∈ s.store.proposals) (hworld : proposal.filing.world = claim.filing.world)
    (hid : proposal.filing.id ≠ claim.filing.id) : proposal.resolution = none := by
  have hreached : Reached held s i claim (decider.resolution claim) :=
    ⟨decider, hdecider, hheld, rfl⟩
  cases hresolution : proposal.resolution with
  | none => rfl
  | some resolution =>
    obtain ⟨j, claim', hdecided, hid'⟩ :=
      (h.settled.resolved proposal hmem resolution).mp hresolution
    have hreached' := hdecided.mono held_of_decided
    obtain ⟨proposal', hmem', hfiling⟩ := h.settled.filed hreached'
    have hsame : proposal' = proposal := h.filed.unique hmem' hmem (by rw [hfiling, hid'])
    have hij : j = i := h.settled.apart j i claim' claim resolution _ hreached' hreached
      (by rw [← hfiling, hsame, hworld])
    subst hij
    obtain ⟨decider', hdecider', hstage, -⟩ := hreached'
    obtain rfl := some.inj (hdecider.symm.trans hdecider')
    obtain rfl := some.inj (hheld.symm.trans hstage)
    exact absurd hid'.symm hid

end

/-- Proposals, worlds and labels agree. -/
structure Consistent (proposalId : R → U) (s : State R U W P T K) : Prop where
  unique : (s.store.proposals.map fun proposal ↦ proposal.filing.review).Nodup
  escalated : ∀ proposal ∈ s.store.proposals, ∃ review ∈ s.store.reviews, ∃ context,
    review.decision = .escalated ∧ proposal.filing = filingOf proposalId review context
  accepted : ∀ proposal ∈ s.store.proposals, proposal.status = .accepted →
    s.store.worlds proposal.filing.world = .merged proposal.filing.reviewState
  dismissed : ∀ proposal ∈ s.store.proposals, proposal.status = .dismissed →
    s.store.worlds proposal.filing.world = .discarded
  labels : ∀ proposal ∈ s.store.proposals, s.store.labelsAbout proposal.filing.id = [] ∨
    ∃ resolution, proposal.resolution = some resolution ∧
      s.store.labelsAbout proposal.filing.id = decisionLabels proposal.filing resolution
  returned : ∀ decider ∈ s.deciders, decider.ended = some .returned →
    ∃ proposal ∈ s.store.proposals, ∃ resolution, proposal.filing.id = decider.proposal ∧
      proposal.resolution = some resolution ∧ resolution.verdict = decider.verdict ∧
      decider.party = some resolution.by_ ∧
      s.store.labelsAbout proposal.filing.id = decisionLabels proposal.filing resolution
  /-- A decision without labels is one of a call that has not written them. -/
  unlabelled : ∀ proposal ∈ s.store.proposals, proposal.resolution ≠ none →
    s.store.labelsAbout proposal.filing.id = [] →
    ∃ decider ∈ s.deciders, ∃ claim,
      decider.stage = .recorded claim ∧ claim.filing = proposal.filing
  /-- An open proposal on a world that is not live is that of a call that has not recorded its
  decision, or the world was settled for another Review. -/
  pending : ∀ proposal ∈ s.store.proposals, proposal.resolution = none →
    (s.store.worlds proposal.filing.world).isLive = false →
    ∃ decider ∈ s.deciders, ∃ claim, claim.filing.world = proposal.filing.world ∧
      (decider.stage = .settled claim ∧ claim.filing = proposal.filing ∨
        decider.stage.held = some claim ∧ claim.filing.review ≠ proposal.filing.review)

section

variable (h : Sound proposalId s)
include h

theorem Sound.unique : (s.store.proposals.map fun proposal ↦ proposal.filing.review).Nodup := by
  have hids : (s.store.proposals.map fun proposal ↦ proposal.filing.id) =
      (s.store.proposals.map fun proposal ↦ proposal.filing.review).map proposalId := by
    rw [List.map_map]
    apply map_congr_left
    intro proposal hmem
    obtain ⟨review, -, context, -, hfiling⟩ := h.filed.proposals proposal hmem
    rw [Function.comp_apply, hfiling]
    rfl
  exact .of_map proposalId (hids ▸ h.filed.ids)

theorem Sound.return (hmem : decider ∈ s.deciders) (hended : decider.ended = some .returned) :
    ∃ proposal ∈ s.store.proposals, ∃ resolution, proposal.filing.id = decider.proposal ∧
      proposal.resolution = some resolution ∧ resolution.verdict = decider.verdict ∧
      decider.party = some resolution.by_ ∧
      s.store.labelsAbout proposal.filing.id = decisionLabels proposal.filing resolution := by
  obtain ⟨claim, hstage⟩ := h.returned decider hmem hended
  obtain ⟨i, hdecider⟩ := getElem?_of_mem hmem
  have hdone : Reached done s i claim (decider.resolution claim) :=
    ⟨decider, hdecider, by rw [hstage]; rfl, rfl⟩
  obtain ⟨⟨proposal, hproposal, hfiling⟩, hid, hparty⟩ :=
    h.settled.claims decider hmem claim (by rw [hstage]; rfl)
  have hresolution : proposal.resolution = some (decider.resolution claim) :=
    (h.settled.resolved proposal hproposal _).mpr
      ⟨i, claim, hdone.mono decided_of_done, by rw [hfiling]⟩
  refine ⟨proposal, hproposal, _, ?_, hresolution, rfl, hparty, ?_⟩
  · rw [hfiling, hid]
  · rw [hfiling]
    exact h.settled.labelled i claim _ hdone

section

variable {proposal : Proposal R U W P T K} (hmem : proposal ∈ s.store.proposals)
include hmem

theorem Sound.labels : s.store.labelsAbout proposal.filing.id = [] ∨
      ∃ resolution, proposal.resolution = some resolution ∧
        s.store.labelsAbout proposal.filing.id = decisionLabels proposal.filing resolution := by
  by_cases hdone : ∃ i claim resolution, Reached done s i claim resolution ∧
    claim.filing.id = proposal.filing.id
  · obtain ⟨i, claim, resolution, hdone, hid⟩ := hdone
    have hdecided := hdone.mono decided_of_done
    obtain ⟨proposal', hmem', hfiling⟩ := h.settled.filed (hdecided.mono held_of_decided)
    have hsame : proposal' = proposal := h.filed.unique hmem' hmem (by rw [hfiling, hid])
    refine .inr ⟨resolution, ?_, ?_⟩
    · exact (h.settled.resolved proposal hmem resolution).mpr ⟨i, claim, hdecided, hid⟩
    · rw [← hsame, hfiling]
      exact h.settled.labelled i claim resolution hdone
  · refine .inl (h.settled.unlabelled _ fun i claim resolution hreached hid ↦ ?_)
    exact hdone ⟨i, claim, resolution, hreached, hid⟩

theorem Sound.unlabelled (hresolved : proposal.resolution ≠ none)
    (hempty : s.store.labelsAbout proposal.filing.id = []) : ∃ decider ∈ s.deciders, ∃ claim,
      decider.stage = .recorded claim ∧ claim.filing = proposal.filing := by
  obtain ⟨resolution, hresolution⟩ := ne_none_iff_exists'.mp hresolved
  obtain ⟨i, claim, hdecided, hid⟩ := (h.settled.resolved proposal hmem resolution).mp hresolution
  obtain ⟨proposal', hmem', hfiling⟩ := h.settled.filed (hdecided.mono held_of_decided)
  have hsame : proposal' = proposal := h.filed.unique hmem' hmem (by rw [hfiling, hid])
  obtain ⟨decider, hdecider, hstage, hclaim⟩ := hdecided
  refine ⟨decider, mem_of_getElem? hdecider, claim, ?_, by rw [← hfiling, hsame]⟩
  obtain hrecorded | hlabelled := decided_cases hstage
  · exact hrecorded
  · have hdone : Reached done s i claim resolution :=
      ⟨decider, hdecider, by rw [hlabelled]; rfl, hclaim⟩
    have hlabels := h.settled.labelled i claim resolution hdone
    rw [hid, hempty] at hlabels
    cases hlabels

theorem Sound.pending (hopen : proposal.resolution = none)
    (hworld : (s.store.worlds proposal.filing.world).isLive = false) :
    ∃ decider ∈ s.deciders, ∃ claim, claim.filing.world = proposal.filing.world ∧
      (decider.stage = .settled claim ∧ claim.filing = proposal.filing ∨
        decider.stage.held = some claim ∧ claim.filing.review ≠ proposal.filing.review) := by
  obtain ⟨i, claim, resolution, hheld, hsame⟩ := h.settled.consumed _ hworld
  obtain ⟨proposal', hmem', hfiling⟩ := h.settled.filed hheld
  obtain ⟨decider, hdecider, hstage, hclaim⟩ := hheld
  refine ⟨decider, mem_of_getElem? hdecider, claim, hsame, ?_⟩
  by_cases hreview : claim.filing.review = proposal.filing.review
  · have heq : proposal' = proposal :=
      inj_on_of_nodup_map h.unique hmem' hmem (by rw [hfiling, hreview])
    refine .inl ⟨?_, by rw [← hfiling, heq]⟩
    obtain hsettled | hdecided := held_cases hstage
    · exact hsettled
    · have hresolved := (h.settled.resolved proposal hmem resolution).mpr
        ⟨i, claim, ⟨decider, hdecider, hdecided, hclaim⟩, by rw [← hfiling, heq]⟩
      rw [hopen] at hresolved
      cases hresolved
  · exact .inr ⟨hstage, hreview⟩

end

theorem Sound.consistent : Consistent proposalId s where
  unique := h.unique
  escalated := h.filed.proposals
  accepted _ hmem hstatus := h.decided_outcome hmem .accept hstatus
  dismissed _ hmem hstatus := h.decided_outcome hmem .reject hstatus
  labels _ := h.labels
  returned _ := h.return
  unlabelled _ := h.unlabelled
  pending _ := h.pending

end

variable [DecidableEq W]

variable {s' : State R U W P T K}

theorem Sound.moves (h : Sound proposalId s)
    (hmoves : Moves proposalId s s') : Sound proposalId s' := by
  refine ⟨h.filed.moves hmoves, h.settled.moves h.filed hmoves, ?_⟩
  cases hmoves with
  | begins decider hcalled hrunning =>
    intro other hother hended
    obtain hother | hother := mem_append.mp hother
    · exact h.returned other hother hended
    · obtain rfl := mem_singleton.mp hother
      rw [hrunning] at hended
      cases hended
  | acts i old new store hold hproceeds hcontinues => exact forall_set h.returned hcontinues.returned
  | _ => exact h.returned

/-- What is filed stays. -/
theorem filed_moves (hmoves : Moves proposalId s s')
    {filing : Filing R U W P T K} (hfiled : filing ∈ s.store.proposals.map Proposal.filing) :
    filing ∈ s'.store.proposals.map Proposal.filing := by
  cases hmoves with
  | files filer filers hmem hstage hnone hfilers =>
    rw [map_append]
    exact mem_append_left _ hfiled
  | acts i old new store hold hproceeds hcontinues => exact hproceeds.filings.2 ▸ hfiled
  | _ => exact hfiled

/-- A decision that is recorded stays. -/
theorem Sound.resolved_moves (h : Sound proposalId s)
    (hmoves : Moves proposalId s s') {proposal : Proposal R U W P T K}
    (hmem : proposal ∈ s.store.proposals)
    (hresolution : proposal.resolution = some resolution) : proposal ∈ s'.store.proposals := by
  cases hmoves with
  | files filer filers hmem' hstage hnone hfilers => exact mem_append_left _ hmem
  | acts i old new store hold hproceeds hcontinues =>
    cases hproceeds with
    | records claim hsettled hrecorded =>
      refine mem_map.mpr ⟨proposal, hmem, if_neg fun hid ↦ ?_⟩
      obtain ⟨j, claim', hdecided, hid'⟩ :=
        (h.settled.resolved proposal hmem resolution).mp hresolution
      have hheld : Reached held s i claim (old.resolution claim) :=
        ⟨old, hold, by rw [hsettled]; rfl, rfl⟩
      have hne : j ≠ i := hdecided.ne hold (by rw [hsettled]; rfl)
      exact hne (h.settled.sole h.filed (hdecided.mono held_of_decided) hheld (hid'.trans hid))
    | _ => exact hmem
  | _ => exact hmem

theorem ended_moves (hmoves : Moves proposalId s s') {i : ℕ}
    (hdecider : s.deciders[i]? = some decider) (hended : decider.ended.isSome) :
    s'.deciders[i]? = some decider := by
  cases hmoves with
  | begins other hcalled hrunning =>
    rw [List.getElem?_append_left (List.getElem?_eq_some_iff.mp hdecider).1, hdecider]
  | acts j old new store hold hproceeds hcontinues =>
    refine (get?_set hold).mpr (.inr ⟨?_, hdecider⟩)
    rintro rfl
    obtain rfl := some.inj (hold.symm.trans hdecider)
    rw [hcontinues.running] at hended
    cases hended
  | _ => exact hdecider

variable [DecidableEq R] [DecidableEq T] [DecidableEq K]

theorem Sound.run (h : Sound proposalId s) (events : List (Event R U W P T K)) :
    Sound proposalId (run (Reviews.step proposalId) s events) :=
  run_preserves (Sound proposalId) (fun s event h ↦ h.moves (step_moves proposalId s event)) h events

theorem filed_run (proposalId : R → U) {s : State R U W P T K} {filing : Filing R U W P T K}
    (hfiled : filing ∈ s.store.proposals.map Proposal.filing) (events : List (Event R U W P T K)) :
    filing ∈ (Runs.run (Reviews.step proposalId) s events).store.proposals.map Proposal.filing :=
  run_preserves (fun s : State R U W P T K ↦ filing ∈ s.store.proposals.map Proposal.filing)
    (fun s event h ↦ filed_moves (step_moves proposalId s event) h) hfiled events

theorem Sound.resolved_run (h : Sound proposalId s) {proposal : Proposal R U W P T K}
    (hmem : proposal ∈ s.store.proposals)
    (hresolution : proposal.resolution = some resolution) (events : List (Event R U W P T K)) :
    proposal ∈ (Runs.run (Reviews.step proposalId) s events).store.proposals :=
  (run_preserves (fun s ↦ Sound proposalId s ∧ proposal ∈ s.store.proposals)
    (fun s event h ↦ ⟨h.1.moves (step_moves proposalId s event),
      h.1.resolved_moves (step_moves proposalId s event) h.2 hresolution⟩) ⟨h, hmem⟩ events).2

theorem ended_run (proposalId : R → U) {i : ℕ} (hdecider : s.deciders[i]? = some decider)
    (hended : decider.ended.isSome) (events : List (Event R U W P T K)) :
    (Runs.run (step proposalId) s events).deciders[i]? = some decider :=
  run_preserves (fun s : State R U W P T K ↦ s.deciders[i]? = some decider)
    (fun s event h ↦ ended_moves (step_moves proposalId s event) h hended) hdecider events

theorem act_deciders (proposalId : R → U) {i : ℕ} (hdecider : s.deciders[i]? = some decider)
    (hrunning : decider.ended = none) (action : Action) :
    (step proposalId s (.act i action)).deciders[i]? = some (decider.proceed s.store action).2 := by
  have hlt : i < s.deciders.length := (List.getElem?_eq_some_iff.mp hdecider).1
  unfold step
  simp only [hdecider, hrunning, isSome_none, Bool.false_eq_true, if_false]
  exact getElem?_set_self hlt

/-- A call that has settled its world and goes on returns. -/
theorem finishes {i : ℕ} (hdecider : s.deciders[i]? = some decider)
    (hrunning : decider.ended = none) {claim : Claim R U W P T K}
    (hstage : decider.stage = .settled claim) : ∃ decider', (Runs.run (step proposalId) s
      [.act i (.record false), .act i (.label false)]).deciders[i]? = some decider' ∧
      decider'.proposal = decider.proposal ∧ decider'.ended = some .returned := by
  have hrecord (store : Store R U W P T K) :
      (decider.proceed store (.record false)).2 = decider.at (.recorded claim) := by
    unfold Decider.proceed
    rw [hstage]
  have hfirst := act_deciders proposalId hdecider hrunning (.record false)
  rw [hrecord] at hfirst
  have hsecond := act_deciders proposalId hfirst hrunning (.label false)
  exact ⟨_, hsecond, rfl, rfl⟩

/-- In every run proposals, worlds and labels agree, a decision stays, and a call that has settled
its world and goes on returns. -/
theorem decisions_consistent (proposalId : R → U) (tokens : W → T)
    (events later : List (Event R U W P T K)) :
    let s : State R U W P T K := run (Reviews.step proposalId) (.init tokens) events
    Consistent proposalId s ∧
      (∀ proposal ∈ s.store.proposals, proposal.status ≠ .open →
        proposal ∈ (run (Reviews.step proposalId) s later).store.proposals) ∧
      ∀ i decider claim, s.deciders[i]? = some decider → decider.ended = none →
        decider.stage = .settled claim →
        ∃ decider', (run (Reviews.step proposalId) s
          [.act i (.record false), .act i (.label false)]).deciders[i]? = some decider' ∧
          decider'.proposal = decider.proposal ∧ decider'.ended = some .returned := by
  intro s
  have hsound : Sound proposalId s := (Sound.init proposalId tokens).run events
  refine ⟨hsound.consistent, ?_, fun i decider claim hdecider hrunning hstage ↦
    finishes hdecider hrunning hstage⟩
  intro proposal hmem hstatus
  obtain ⟨resolution, hresolution⟩ := status_ne_open hstatus
  exact hsound.resolved_run hmem hresolution later

end

def review (id : ℕ) : Review ℕ ℕ ℕ ℕ := ⟨id, 0, 7, .escalated, true, 0, none⟩

/-- A Review is filed, and its world is merged. -/
def merging : List (Event ℕ ℕ ℕ ℕ ℕ ℕ) :=
  [.review (review 0), .sight (review 0) ⟨none, none⟩, .file 0, .file 0, .file 0,
    .decide 0 .accept (some 5) none, .act 0 (.check true), .act 0 (.look true),
    .act 0 (.settle none)]

/-- The call ends after the merge. -/
def crashed : List (Event ℕ ℕ ℕ ℕ ℕ ℕ) := merging ++ [.act 0 .crash]

/-- The labels are refused. -/
def unlabelled : List (Event ℕ ℕ ℕ ℕ ℕ ℕ) :=
  merging ++ [.act 0 (.record false), .act 0 (.label true)]

/-- The world is reviewed again, and decided on for the first Review. -/
def reviewedAgain : List (Event ℕ ℕ ℕ ℕ ℕ ℕ) :=
  [.review (review 1), .sight (review 1) ⟨none, none⟩, .file 0, .file 0, .file 0] ++
    [.review (review 0), .sight (review 0) ⟨none, none⟩, .file 1, .file 1, .file 1,
      .decide 0 .accept (some 5) none, .act 0 (.check true), .act 0 (.look true),
      .act 0 (.settle none), .act 0 (.record false), .act 0 (.label false)]

/-- How the call ends. -/
def cutAt (stage : Claim ℕ ℕ ℕ ℕ ℕ ℕ → Stage ℕ ℕ ℕ ℕ ℕ ℕ) (ending : Ending) : Decider ℕ ℕ ℕ ℕ ℕ ℕ :=
  ⟨0, .accept, some 5, none, stage ⟨filingOf id (review 0) ⟨none, none⟩, 5⟩, some ending⟩

theorem crashed_decider : (run (step id) (.init fun _ ↦ 7) crashed).deciders =
    [cutAt .settled .crashed] := rfl

theorem unlabelled_decider : (run (step id) (.init fun _ ↦ 7) unlabelled).deciders =
    [cutAt .recorded (.raised .labelNotRecorded)] := rfl

theorem reviewedAgain_decider : (run (step id) (.init fun _ ↦ 7) reviewedAgain).deciders =
    [cutAt .labelled .returned] := rfl

theorem reviewedAgain_filed :
    (run (step id) (.init fun _ ↦ 7) reviewedAgain).store.proposals.map filing =
      [filingOf id (review 1) ⟨none, none⟩, filingOf id (review 0) ⟨none, none⟩] := rfl

/-- A call that ends after the merge leaves a proposal open for ever; refused labels leave a
decision without labels. -/
theorem cut_off : (∀ later, ∃ proposal ∈ (run (Reviews.step id) (.init fun _ ↦ 7)
        (crashed ++ later)).store.proposals, proposal.status = .open ∧
      (run (Reviews.step id) (.init fun _ ↦ 7) (crashed ++ later)).store.worlds
        proposal.filing.world = .merged 7) ∧
    (∀ later, ∃ proposal ∈ (run (Reviews.step id) (.init fun _ ↦ 7)
        (unlabelled ++ later)).store.proposals, proposal.status = .accepted ∧
      (run (Reviews.step id) (.init fun _ ↦ 7) (unlabelled ++ later)).store.labelsAbout
        proposal.filing.id = []) ∧ ∀ later, ∃ proposal ∈ (run (Reviews.step id) (.init fun _ ↦ 7)
        (reviewedAgain ++ later)).store.proposals, proposal.status = .open ∧
      (run (Reviews.step id) (.init fun _ ↦ 7) (reviewedAgain ++ later)).store.worlds
        proposal.filing.world = .merged 7 := by
  have hrun (events later : List (Event ℕ ℕ ℕ ℕ ℕ ℕ)) :
      Sound id (run (step id) (run (step id) (.init fun _ ↦ 7) events) later) :=
    ((Sound.init id fun _ ↦ 7).run events).run later
  refine ⟨fun later ↦ ?_, fun later ↦ ?_, fun later ↦ ?_⟩
  · have hcut : (run (step id) (run (step id) (.init fun _ ↦ 7) crashed)
        later).deciders[0]? = some (cutAt .settled .crashed) :=
      ended_run id (by rw [crashed_decider]; rfl) rfl later
    obtain ⟨proposal, hmem, hfiling, hopen, hworld⟩ := (hrun crashed later).open_of_settled hcut rfl
    exact ⟨proposal, hmem, status_eq_open hopen, by rw [hfiling]; exact hworld⟩
  · have hcut : (run (step id) (run (step id) (.init fun _ ↦ 7) unlabelled)
        later).deciders[0]? = some (cutAt .recorded (.raised .labelNotRecorded)) :=
      ended_run id (by rw [unlabelled_decider]; rfl) rfl later
    obtain ⟨proposal, hmem, hfiling, hresolution, hlabels⟩ :=
      (hrun unlabelled later).unlabelled_of_recorded hcut rfl
    exact ⟨proposal, hmem, status_eq hresolution, by rw [hfiling]; exact hlabels⟩
  · have hend : (run (step id) (run (step id) (.init fun _ ↦ 7) reviewedAgain)
        later).deciders[0]? = some (cutAt .labelled .returned) :=
      ended_run id (by rw [reviewedAgain_decider]; rfl) rfl later
    have hfiled : filingOf id (review 1) ⟨none, none⟩ ∈ (run (Reviews.step id)
        (run (step id) (.init fun _ ↦ 7) reviewedAgain) later).store.proposals.map
          filing :=
      filed_run id (by rw [reviewedAgain_filed]; exact mem_cons_self) later
    obtain ⟨proposal, hmem, hfiling⟩ := mem_map.mp hfiled
    have hsound := hrun reviewedAgain later
    have hopen := hsound.open_of_other hend rfl hmem (by rw [hfiling]; rfl)
      (by rw [hfiling]; decide)
    have hworld := hsound.settled.held 0 _ _ ⟨_, hend, rfl, rfl⟩
    exact ⟨proposal, hmem, status_eq_open hopen, by rw [hfiling]; exact hworld⟩

end Simmis.Reviews
