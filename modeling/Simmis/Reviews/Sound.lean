import Simmis.Reviews.Filed

/-!
# What is decided

An operation on a world succeeds once, and no other call comes to record a decision on a proposal
about this world.
-/

namespace Simmis.Reviews

open List Option Stage

variable {R U W P T K : Type}

/-- A call has come to a stage with a claim, to decide it so. -/
def Reached (stageOf : Stage R U W P T K → Option (Claim R U W P T K)) (s : State R U W P T K)
    (i : ℕ) (claim : Claim R U W P T K) (resolution : Resolution P) : Prop :=
  ∃ decider, s.deciders[i]? = some decider ∧ stageOf decider.stage = some claim ∧
    resolution = decider.resolution claim

def Store.labelsAbout [DecidableEq U] (store : Store R U W P T K) (id : U) : List (Label R U P K) :=
  store.labels.filter fun label ↦ label.subject = id

theorem labelled_about [DecidableEq U] (store : Store R U W P T K) (decider : Decider R U W P T K)
    (claim : Claim R U W P T K) :
    (store.labelled (labelsOf decider claim)).labelsAbout claim.filing.id =
      store.labelsAbout claim.filing.id ++
        decisionLabels claim.filing (decider.resolution claim) := by
  unfold Store.labelsAbout Store.labelled
  rw [filter_append, labelsOf_eq]
  congr 1
  apply filter_eq_self.mpr
  intro label hlabel
  exact decide_eq_true (subject_of_mem hlabel)

variable {claim : Claim R U W P T K}

theorem labelled_about_of_ne [DecidableEq U] (store : Store R U W P T K)
    (decider : Decider R U W P T K) {id : U} (hne : id ≠ claim.filing.id) :
    (store.labelled (labelsOf decider claim)).labelsAbout id = store.labelsAbout id := by
  have hnone : (labelsOf decider claim).filter (fun label ↦ label.subject = id) = [] := by
    apply filter_eq_nil_iff.mpr
    intro label hlabel
    rw [labelsOf_eq] at hlabel
    rw [decide_eq_true_eq, subject_of_mem hlabel]
    exact hne.symm
  unfold Store.labelsAbout Store.labelled
  rw [filter_append, hnone, append_nil]

/-- The claim of a call is on a proposal. -/
def Decider.Claims (proposals : List (Proposal R U W P T K)) (decider : Decider R U W P T K) :
    Prop :=
  ∀ claim, decider.stage.claim = some claim →
    (∃ proposal ∈ proposals, proposal.filing = claim.filing) ∧
      claim.filing.id = decider.proposal ∧ decider.party = some claim.by_

/-- A world is settled by one call, which alone records the decision and the labels. -/
structure Settled [DecidableEq U] (s : State R U W P T K) : Prop where
  claims : ∀ decider ∈ s.deciders, decider.Claims s.store.proposals
  held : ∀ i claim resolution, Reached Stage.held s i claim resolution →
    s.store.worlds claim.filing.world = resolution.verdict.outcome claim.filing.reviewState
  apart : ∀ i j claim claim' resolution resolution', Reached Stage.held s i claim resolution →
    Reached Stage.held s j claim' resolution' → claim.filing.world = claim'.filing.world → i = j
  consumed : ∀ world, (s.store.worlds world).isLive = false →
    ∃ i claim resolution, Reached Stage.held s i claim resolution ∧ claim.filing.world = world
  resolved : ∀ proposal ∈ s.store.proposals, ∀ resolution,
    proposal.resolution = some resolution ↔
      ∃ i claim, Reached Stage.decided s i claim resolution ∧ claim.filing.id = proposal.filing.id
  labelled : ∀ i claim resolution, Reached Stage.done s i claim resolution →
    s.store.labelsAbout claim.filing.id = decisionLabels claim.filing resolution
  unlabelled : ∀ id, (∀ i claim resolution, Reached Stage.done s i claim resolution →
    claim.filing.id ≠ id) → s.store.labelsAbout id = []

section

variable {s : State R U W P T K} {stageOf : Stage R U W P T K → Option (Claim R U W P T K)}

theorem Reached.mono {other : Stage R U W P T K → Option (Claim R U W P T K)} {i : ℕ}
    {resolution : Resolution P}
    (hother : ∀ {stage claim}, stageOf stage = some claim → other stage = some claim)
    (h : Reached stageOf s i claim resolution) : Reached other s i claim resolution := by
  obtain ⟨decider, hdecider, hstage, hresolution⟩ := h
  exact ⟨decider, hdecider, hother hstage, hresolution⟩

/-- A call that begins has reached nothing. -/
theorem reached_append {decider : Decider R U W P T K} (hnone : stageOf decider.stage = none)
    {i : ℕ} {resolution : Resolution P} :
    Reached stageOf { s with deciders := s.deciders ++ [decider] } i claim resolution ↔
      Reached stageOf s i claim resolution := by
  constructor
  · rintro ⟨new, hnew, hstage, hresolution⟩
    rw [getElem?_append] at hnew
    split at hnew
    · exact ⟨new, hnew, hstage, hresolution⟩
    · obtain rfl := mem_singleton.mp (mem_of_getElem? hnew)
      rw [hnone] at hstage
      cases hstage
  · rintro ⟨old, hold, hstage, hresolution⟩
    exact ⟨old, by rw [List.getElem?_append_left (List.getElem?_eq_some_iff.mp hold).1, hold],
      hstage, hresolution⟩

variable {store' : Store R U W P T K} {i : ℕ} {old new : Decider R U W P T K}

theorem get?_set {α : Type} {l : List α} {i j : ℕ} {old new a : α} (hi : l[i]? = some old) :
    (l.set i new)[j]? = some a ↔ j = i ∧ a = new ∨ j ≠ i ∧ l[j]? = some a := by
  have hlt : i < l.length := (List.getElem?_eq_some_iff.mp hi).1
  rw [getElem?_set]
  by_cases hij : i = j
  · subst hij
    simp [hlt, eq_comm]
  · simp [hij, Ne.symm hij]

section

variable (hold : s.deciders[i]? = some old) {j : ℕ} {resolution : Resolution P}
include hold

theorem reached_set (hcontinues : old.Continues new) :
    Reached stageOf { s with store := store', deciders := s.deciders.set i new } j claim
        resolution ↔
      j = i ∧ stageOf new.stage = some claim ∧ resolution = old.resolution claim ∨
        j ≠ i ∧ Reached stageOf s j claim resolution := by
  unfold Reached
  simp only [get?_set hold]
  constructor
  · rintro ⟨decider, ⟨rfl, rfl⟩ | ⟨hne, hdecider⟩, hstage, hresolution⟩
    · exact .inl ⟨rfl, hstage, by rw [hresolution, hcontinues.resolution]⟩
    · exact .inr ⟨hne, decider, hdecider, hstage, hresolution⟩
  · rintro (⟨rfl, hstage, hresolution⟩ | ⟨hne, decider, hdecider, hstage, hresolution⟩)
    · exact ⟨new, .inl ⟨rfl, rfl⟩, hstage, by rw [hresolution, hcontinues.resolution]⟩
    · exact ⟨decider, .inr ⟨hne, hdecider⟩, hstage, hresolution⟩

/-- A call that comes to such a stage is the only one to do so in this step. -/
theorem reached_advance (hcontinues : old.Continues new) {claim' : Claim R U W P T K}
    (hnew : stageOf new.stage = some claim) :
    Reached stageOf { s with store := store', deciders := s.deciders.set i new } j claim'
        resolution ↔
      j = i ∧ claim' = claim ∧ resolution = old.resolution claim ∨
        j ≠ i ∧ Reached stageOf s j claim' resolution := by
  rw [reached_set hold hcontinues, hnew]
  constructor
  · rintro (⟨hj, hclaim, hresolution⟩ | hother)
    · obtain rfl := some.inj hclaim
      exact .inl ⟨hj, rfl, hresolution⟩
    · exact .inr hother
  · rintro (⟨hj, rfl, hresolution⟩ | hother)
    · exact .inl ⟨hj, rfl, hresolution⟩
    · exact .inr hother

/-- A call that has not come so far is none of those that have. -/
theorem Reached.ne (hnone : stageOf old.stage = none)
    (h : Reached stageOf s j claim resolution) : j ≠ i := by
  rintro rfl
  obtain ⟨decider, hdecider, hstage, -⟩ := h
  obtain rfl := some.inj (hold.symm.trans hdecider)
  rw [hnone] at hstage
  cases hstage

/-- A step that is not one to such a stage reaches nothing new. -/
theorem reached_set_of_eq (hcontinues : old.Continues new)
    (hstage : stageOf new.stage = stageOf old.stage) :
    Reached stageOf { s with store := store', deciders := s.deciders.set i new } j claim
        resolution ↔
      Reached stageOf s j claim resolution := by
  rw [reached_set hold hcontinues, hstage]
  constructor
  · rintro (⟨rfl, hreached, hresolution⟩ | ⟨-, h⟩)
    · exact ⟨old, hold, hreached, hresolution⟩
    · exact h
  · intro h
    by_cases hj : j = i
    · subst hj
      obtain ⟨decider, hdecider, hreached, hresolution⟩ := h
      obtain rfl := some.inj (hold.symm.trans hdecider)
      exact .inl ⟨rfl, hreached, hresolution⟩
    · exact .inr ⟨hj, h⟩

end

end

theorem outcome_isLive (verdict : Verdict) (token : T) :
    (verdict.outcome token).isLive = false := by
  cases verdict <;> rfl

section

variable [DecidableEq U] {proposalId : R → U} {s : State R U W P T K}

theorem Settled.filed (h : Settled s) {i : ℕ} {resolution : Resolution P}
    (hheld : Reached Stage.held s i claim resolution) :
    ∃ proposal ∈ s.store.proposals, proposal.filing = claim.filing := by
  obtain ⟨decider, hdecider, hstage, -⟩ := hheld
  exact (h.claims decider (mem_of_getElem? hdecider) claim (claim_of_held hstage)).1

/-- No two calls hold claims on one proposal. -/
theorem Settled.sole (h : Settled s) (hfiled : Filed proposalId s) {i j : ℕ}
    {claim' : Claim R U W P T K} {resolution resolution' : Resolution P}
    (hheld : Reached Stage.held s i claim resolution)
    (hheld' : Reached Stage.held s j claim' resolution')
    (hid : claim.filing.id = claim'.filing.id) : i = j := by
  obtain ⟨proposal, hmem, hfiling⟩ := h.filed hheld
  obtain ⟨proposal', hmem', hfiling'⟩ := h.filed hheld'
  have hsame : proposal = proposal' := hfiled.unique hmem hmem' (by rw [hfiling, hfiling', hid])
  have hworld : claim.filing.world = claim'.filing.world := by
    rw [← hfiling, ← hfiling', hsame]
  exact h.apart i j claim claim' resolution resolution' hheld hheld' hworld

/-- What no call has reached anew, and no store has changed. -/
theorem Settled.of_reached {s' : State R U W P T K} (h : Settled s)
    (hworlds : s'.store.worlds = s.store.worlds)
    (hproposals : s'.store.proposals = s.store.proposals)
    (hlabels : s'.store.labels = s.store.labels)
    (hclaims : ∀ decider ∈ s'.deciders, decider.Claims s'.store.proposals)
    (hheld : ∀ i claim resolution, Reached Stage.held s' i claim resolution ↔
      Reached Stage.held s i claim resolution)
    (hdecided : ∀ i claim resolution, Reached decided s' i claim resolution ↔
      Reached decided s i claim resolution)
    (hdone : ∀ i claim resolution, Reached done s' i claim resolution ↔
      Reached done s i claim resolution) : Settled s' := by
  have habout (id : U) : s'.store.labelsAbout id = s.store.labelsAbout id := by
    unfold Store.labelsAbout
    rw [hlabels]
  refine ⟨hclaims, ?_, ?_, ?_, ?_, ?_, ?_⟩
  · simp only [hheld, hworlds]
    exact h.held
  · simp only [hheld]
    exact h.apart
  · simp only [hheld, hworlds]
    exact h.consumed
  · simp only [hdecided, hproposals]
    exact h.resolved
  · simp only [hdone, habout]
    exact h.labelled
  · simp only [hdone, habout]
    exact h.unlabelled

/-- A new proposal is one that no call has read. -/
theorem Settled.files (h : Settled s) {filing : Filing R U W P T K}
    {filers : List (Filer R W P T K)} (hnone : s.store.get filing.id = none) : Settled { s with
      store := { s.store with proposals := s.store.proposals ++ [⟨filing, none⟩] }
      filers } := by
  refine { h with claims := ?_, resolved := ?_ }
  · intro decider hdecider claim hclaim
    obtain ⟨⟨proposal, hmem, hfiling⟩, hrest⟩ := h.claims decider hdecider claim hclaim
    exact ⟨⟨proposal, mem_append_left _ hmem, hfiling⟩, hrest⟩
  · intro proposal hproposal resolution
    obtain hproposal | hproposal := mem_append.mp hproposal
    · exact h.resolved proposal hproposal resolution
    · obtain rfl := mem_singleton.mp hproposal
      constructor
      · intro hresolution
        cases hresolution
      · rintro ⟨i, claim, hdecided, hid⟩
        have hheld : Reached Stage.held s i claim resolution := hdecided.mono Stage.held_of_decided
        obtain ⟨proposal, hmem, hfiling⟩ := h.filed hheld
        exact absurd (hfiling ▸ hid) (get_eq_none hnone proposal hmem)

variable [DecidableEq W] {store' : Store R U W P T K} {i : ℕ} {old new : Decider R U W P T K}

section

variable (h : Settled s) (hold : s.deciders[i]? = some old) (hcontinues : old.Continues new)
include h hold hcontinues

theorem Settled.claims_set (hproceeds : Proceeds s.store old new store') :
    ∀ decider ∈ s.deciders.set i new, decider.Claims store'.proposals := by
  have hkept {filing : Filing R U W P T K}
      (hfiled : ∃ proposal ∈ s.store.proposals, proposal.filing = filing) :
      ∃ proposal ∈ store'.proposals, proposal.filing = filing := by
    rw [← List.mem_map, hproceeds.filings.2]
    exact List.mem_map.mpr hfiled
  apply forall_set
  · intro decider hdecider claim hclaim
    obtain ⟨hfiled, hrest⟩ := h.claims decider hdecider claim hclaim
    exact ⟨hkept hfiled, hrest⟩
  · intro claim hclaim
    rw [hcontinues.proposal, hcontinues.party]
    obtain hclaim | ⟨hfiled, hrest⟩ := hproceeds.claim hclaim
    · obtain ⟨hfiled, hrest⟩ := h.claims old (mem_of_getElem? hold) claim hclaim
      exact ⟨hkept hfiled, hrest⟩
    · exact ⟨hkept hfiled, hrest⟩

omit [DecidableEq W] in
theorem Settled.quiet (hclaims : ∀ decider ∈ s.deciders.set i new, decider.Claims s.store.proposals)
    (hheld : new.stage.held = old.stage.held) (hdecided : new.stage.decided = old.stage.decided)
    (hdone : new.stage.done = old.stage.done) :
    Settled { s with deciders := s.deciders.set i new } :=
  h.of_reached rfl rfl rfl hclaims (fun _ _ _ ↦ reached_set_of_eq hold hcontinues hheld)
    (fun _ _ _ ↦ reached_set_of_eq hold hcontinues hdecided)
    (fun _ _ _ ↦ reached_set_of_eq hold hcontinues hdone)

/-- The world was live, so that no call held it. -/
theorem Settled.settles (hfound : old.stage = .found claim) (hsettled : new.stage = .settled claim)
    (hlive : (s.store.worlds claim.filing.world).isLive)
    (hclaims : ∀ decider ∈ s.deciders.set i new, decider.Claims s.store.proposals) :
    Settled { s with
      store := s.store.settled claim.filing.world (old.verdict.outcome claim.filing.reviewState)
      deciders := s.deciders.set i new } := by
  have hheld : new.stage.held = some claim := by
    rw [hsettled]
    rfl
  have hnone : old.stage.held = none := by
    rw [hfound]
    rfl
  have hdecided : new.stage.decided = old.stage.decided := by
    rw [hfound, hsettled]
    rfl
  have hdone : new.stage.done = old.stage.done := by
    rw [hfound, hsettled]
    rfl
  have hapart {j : ℕ} {claim' : Claim R U W P T K} {resolution : Resolution P}
      (hbefore : Reached Stage.held s j claim' resolution) :
      claim'.filing.world ≠ claim.filing.world := by
    intro heq
    have hoff := outcome_isLive resolution.verdict claim'.filing.reviewState
    rw [← h.held j claim' resolution hbefore, heq, hlive] at hoff
    cases hoff
  refine ⟨hclaims, ?_, ?_, ?_, ?_, ?_, ?_⟩
  · intro j claim' resolution hreached
    obtain ⟨rfl, rfl, rfl⟩ | ⟨-, hbefore⟩ := (reached_advance hold hcontinues hheld).mp hreached
    · exact settled_worlds_self ..
    · calc
        _ = s.store.worlds claim'.filing.world := settled_worlds_of_ne _ _ (hapart hbefore)
        _ = _ := h.held j claim' resolution hbefore
  · intro j k claim' claim'' resolution resolution' hreached hreached' hworld
    obtain ⟨hj, hclaim, -⟩ | ⟨-, hbefore⟩ := (reached_advance hold hcontinues hheld).mp hreached
    · obtain ⟨hk, -, -⟩ | ⟨-, hbefore'⟩ := (reached_advance hold hcontinues hheld).mp hreached'
      · rw [hj, hk]
      · rw [hclaim] at hworld
        exact absurd hworld.symm (hapart hbefore')
    · obtain ⟨hk, hclaim, -⟩ | ⟨-, hbefore'⟩ := (reached_advance hold hcontinues hheld).mp hreached'
      · rw [hclaim] at hworld
        exact absurd hworld (hapart hbefore)
      · exact h.apart j k claim' claim'' resolution resolution' hbefore hbefore' hworld
  · intro world hworld
    by_cases heq : world = claim.filing.world
    · refine ⟨i, claim, old.resolution claim, ?_, heq.symm⟩
      exact (reached_advance hold hcontinues hheld).mpr (.inl ⟨rfl, rfl, rfl⟩)
    · have hbefore : (s.store.worlds world).isLive = false := by
        rw [← hworld]
        exact congrArg World.isLive (settled_worlds_of_ne _ _ heq).symm
      obtain ⟨j, claim', resolution, hbefore, hworld⟩ := h.consumed world hbefore
      have hne := hbefore.ne hold hnone
      exact ⟨j, claim', resolution,
        (reached_advance hold hcontinues hheld).mpr (.inr ⟨hne, hbefore⟩), hworld⟩
  · simp only [reached_set_of_eq hold hcontinues hdecided]
    exact h.resolved
  · simp only [reached_set_of_eq hold hcontinues hdone]
    exact h.labelled
  · simp only [reached_set_of_eq hold hcontinues hdone]
    exact h.unlabelled

end

/-- Only the call that holds the world of the proposal records a decision on it. -/
theorem Settled.records (h : Settled s) (hfiled : Filed proposalId s)
    (hold : s.deciders[i]? = some old) (hcontinues : old.Continues new)
    (hsettled : old.stage = .settled claim) (hrecorded : new.stage = .recorded claim) :
    Settled { s with
      store := s.store.record claim.filing.id (old.resolution claim)
      deciders := s.deciders.set i new } := by
  have hheld : new.stage.held = old.stage.held := by
    rw [hsettled, hrecorded]
    rfl
  have hdone : new.stage.done = old.stage.done := by
    rw [hsettled, hrecorded]
    rfl
  have hdecided : new.stage.decided = some claim := by
    rw [hrecorded]
    rfl
  have hnone : old.stage.decided = none := by
    rw [hsettled]
    rfl
  have hholds : Reached Stage.held s i claim (old.resolution claim) :=
    ⟨old, hold, by rw [hsettled]; rfl, rfl⟩
  have hsole {j : ℕ} {claim' : Claim R U W P T K} {resolution : Resolution P}
      (hbefore : Reached decided s j claim' resolution) :
      claim'.filing.id ≠ claim.filing.id := by
    intro hid
    have hholds' := hbefore.mono held_of_decided
    exact hbefore.ne hold hnone (h.sole hfiled hholds' hholds hid)
  refine ⟨h.claims_set hold hcontinues (.records claim hsettled hrecorded), ?_, ?_, ?_, ?_, ?_, ?_⟩
  · simp only [reached_set_of_eq hold hcontinues hheld]
    exact h.held
  · simp only [reached_set_of_eq hold hcontinues hheld]
    exact h.apart
  · simp only [reached_set_of_eq hold hcontinues hheld]
    exact h.consumed
  · intro proposal' hproposal' resolution
    simp only [reached_advance hold hcontinues hdecided]
    obtain ⟨proposal, hproposal, rfl⟩ := mem_map.mp hproposal'
    split
    · rename_i hid
      constructor
      · intro hresolution
        obtain rfl := some.inj hresolution
        exact ⟨i, claim, .inl ⟨rfl, rfl, rfl⟩, hid.symm⟩
      · rintro ⟨j, claim', ⟨-, rfl, rfl⟩ | ⟨-, hbefore⟩, hid'⟩
        · rfl
        · exact absurd (hid'.trans hid) (hsole hbefore)
    · rename_i hid
      rw [h.resolved proposal hproposal resolution]
      constructor
      · rintro ⟨j, claim', hbefore, hid'⟩
        exact ⟨j, claim', .inr ⟨hbefore.ne hold hnone, hbefore⟩, hid'⟩
      · rintro ⟨j, claim', ⟨-, rfl, -⟩ | ⟨-, hbefore⟩, hid'⟩
        · exact absurd hid'.symm hid
        · exact ⟨j, claim', hbefore, hid'⟩
  · simp only [reached_set_of_eq hold hcontinues hdone]
    exact h.labelled
  · simp only [reached_set_of_eq hold hcontinues hdone]
    exact h.unlabelled

/-- The labels are written by this call, and by no other. -/
theorem Settled.labels (h : Settled s) (hfiled : Filed proposalId s)
    (hold : s.deciders[i]? = some old) (hcontinues : old.Continues new)
    (hrecorded : old.stage = .recorded claim) (hlabelled : new.stage = .labelled claim) :
    Settled { s with
      store := s.store.labelled (labelsOf old claim)
      deciders := s.deciders.set i new } := by
  have hheld : new.stage.held = old.stage.held := by
    rw [hrecorded, hlabelled]
    rfl
  have hdecided : new.stage.decided = old.stage.decided := by
    rw [hrecorded, hlabelled]
    rfl
  have hdone : new.stage.done = some claim := by
    rw [hlabelled]
    rfl
  have hnone : old.stage.done = none := by
    rw [hrecorded]
    rfl
  have hholds : Reached Stage.held s i claim (old.resolution claim) :=
    ⟨old, hold, by rw [hrecorded]; rfl, rfl⟩
  have hsole {j : ℕ} {claim' : Claim R U W P T K} {resolution : Resolution P}
      (hbefore : Reached done s j claim' resolution) :
      claim'.filing.id ≠ claim.filing.id := by
    intro hid
    have hholds' := (hbefore.mono decided_of_done).mono held_of_decided
    exact hbefore.ne hold hnone (h.sole hfiled hholds' hholds hid)
  refine ⟨h.claims_set hold hcontinues (.labels claim hrecorded hlabelled), ?_, ?_, ?_, ?_, ?_, ?_⟩
  · simp only [reached_set_of_eq hold hcontinues hheld]
    exact h.held
  · simp only [reached_set_of_eq hold hcontinues hheld]
    exact h.apart
  · simp only [reached_set_of_eq hold hcontinues hheld]
    exact h.consumed
  · simp only [reached_set_of_eq hold hcontinues hdecided]
    exact h.resolved
  · intro j claim' resolution hreached
    obtain ⟨-, rfl, rfl⟩ | ⟨-, hbefore⟩ := (reached_advance hold hcontinues hdone).mp hreached
    · have hempty : s.store.labelsAbout claim'.filing.id = [] :=
        h.unlabelled _ fun k other resolution hother ↦ hsole hother
      rw [labelled_about, hempty, nil_append]
    · rw [labelled_about_of_ne _ _ (hsole hbefore)]
      exact h.labelled j claim' resolution hbefore
  · intro id hid
    have hne : id ≠ claim.filing.id := by
      rintro rfl
      exact hid i claim _ ((reached_advance hold hcontinues hdone).mpr (.inl ⟨rfl, rfl, rfl⟩)) rfl
    rw [labelled_about_of_ne _ _ hne]
    apply h.unlabelled
    intro j claim' resolution hbefore
    have hj := hbefore.ne hold hnone
    exact hid j claim' resolution ((reached_advance hold hcontinues hdone).mpr (.inr ⟨hj, hbefore⟩))

theorem Settled.acts (h : Settled s) (hfiled : Filed proposalId s)
    (hold : s.deciders[i]? = some old) (hcontinues : old.Continues new)
    (hproceeds : Proceeds s.store old new store') :
    Settled { s with store := store', deciders := s.deciders.set i new } := by
  have hclaims := h.claims_set hold hcontinues hproceeds
  cases hproceeds with
  | stays hstage =>
    apply h.quiet hold hcontinues hclaims
    all_goals rw [hstage]
  | checks claim proposal hcalled hchecked =>
    apply h.quiet hold hcontinues hclaims
    all_goals
      rw [hcalled, hchecked]
      rfl
  | finds claim hchecked hfound =>
    apply h.quiet hold hcontinues hclaims
    all_goals
      rw [hchecked, hfound]
      rfl
  | settles claim hfound hsettled hlive =>
    exact h.settles hold hcontinues hfound hsettled hlive hclaims
  | records claim hsettled hrecorded =>
    exact h.records hfiled hold hcontinues hsettled hrecorded
  | labels claim hrecorded hlabelled =>
    exact h.labels hfiled hold hcontinues hrecorded hlabelled

theorem Settled.moves {s' : State R U W P T K} (h : Settled s) (hfiled : Filed proposalId s)
    (hmoves : Moves proposalId s s') : Settled s' := by
  cases hmoves with
  | notes => exact { h with }
  | changes world token hlive =>
    refine { h with held := ?_, consumed := ?_ }
    · intro i claim resolution hheld
      have hworld := h.held i claim resolution hheld
      have hne : claim.filing.world ≠ world := by
        rintro rfl
        rw [hworld, outcome_isLive] at hlive
        cases hlive
      rw [← hworld]
      exact settled_worlds_of_ne _ _ hne
    · intro other hother
      by_cases heq : other = world
      · rw [heq, settled_worlds_self] at hother
        cases hother
      · rw [settled_worlds_of_ne _ _ heq] at hother
        exact h.consumed other hother
  | files filer filers hmem hstage hnone hfilers => exact h.files hnone
  | begins decider hcalled hrunning =>
    refine h.of_reached rfl rfl rfl ?_
      (fun _ _ _ ↦ reached_append (by rw [hcalled]; rfl))
      (fun _ _ _ ↦ reached_append (by rw [hcalled]; rfl))
      fun _ _ _ ↦ reached_append (by rw [hcalled]; rfl)
    intro other hother claim hclaim
    obtain hother | hother := mem_append.mp hother
    · exact h.claims other hother claim hclaim
    · obtain rfl := mem_singleton.mp hother
      rw [hcalled] at hclaim
      cases hclaim
  | acts i old new store hold hproceeds hcontinues => exact h.acts hfiled hold hcontinues hproceeds

end

end Simmis.Reviews
