import Simmis.Schedules.Counter

/-!
# An occurrence is dispatched at most once

The runtime clears an active slot only after its occurrence was decided, and finishes an admission
only under its claim. Then an activation has at most one open occurrence, its active slot, and a
claim is given to one caller.
-/

namespace Simmis.Schedules

open Option Runs Db Occurrence Changes

variable {U : Type} [DecidableEq U] {h : Hasch U} {cadence : U → Cadence} {step : Step U}
  {db db' : Db U}

/-- An open occurrence is the active slot of its activation. -/
def Db.Exclusive (db : Db U) : Prop :=
  ∀ oid o, db.occurrences.get oid = some o → o.Open →
    ∀ a, db.activations.get o.activation = some a → a.activeOccurrence = some oid

/-- The discipline of the dispatcher. -/
def Step.Disciplined (db : Db U) (step : Step U) : Prop :=
  step.Owned db ∧ ∀ id oid, step = .clearActive id oid →
    ∀ o, db.occurrences.get oid = some o → ¬ o.Open

theorem Db.Exclusive.write_activation (hexclusive : db.Exclusive) {a : Activation U}
    {fields : Activation U → Activation U} (ha : db.activations.get a.id = some a)
    (hid : ∀ r, (fields r).id = r.id)
    (hactive : ∀ oid o, db.occurrences.get oid = some o → o.Open → o.activation = a.id →
      (fields a).activeOccurrence = some oid) : (db.write (.activation a.id fields)).Exclusive := by
  intro oid o ho hopen b hb
  rw [get_write_activation hid, ha] at hb
  split at hb
  · next hhome =>
    obtain rfl := some.inj hb
    exact hactive oid o ho hopen hhome
  · exact hexclusive oid o ho hopen b hb

theorem Db.Exclusive.write_occurrence (hexclusive : db.Exclusive) {o : Occurrence U}
    {fields : Occurrence U → Occurrence U} (ho : db.occurrences.get o.id = some o)
    (hid : ∀ r, (fields r).id = r.id) (hactivation : (fields o).activation = o.activation)
    (hopen : (fields o).Open → o.Open) : (db.write (.occurrence o.id fields)).Exclusive := by
  intro oid q hq hq_open a ha
  rw [get_write_occurrence hid, ho] at hq
  split at hq
  · next hoid =>
    obtain rfl := some.inj hq
    rw [hoid]
    exact hexclusive o.id o ho (hopen hq_open) a (hactivation ▸ ha)
  · exact hexclusive oid q hq hq_open a ha

/-- A slot of an activation without an open occurrence becomes its only open one, unless it is
skipped. -/
theorem Db.Exclusive.record (hexclusive : db.Exclusive) {a : Activation U} {slot : Slot}
    {now coalesced : ℤ} {busy : Bool} (ha : db.activations.get a.id = some a)
    (hidle : busy = false → ∀ oid o, db.occurrences.get oid = some o → o.activation = a.id →
      ¬ o.Open) : (db.record h a slot now coalesced busy).Exclusive := by
  intro oid o ho hopen b hb
  rw [record_activations h ha] at hb
  rw [record_occurrences] at ho
  split at ho
  · next hoid =>
    obtain rfl := some.inj ho
    rw [fired_activation, if_pos rfl] at hb
    obtain rfl := some.inj hb
    cases busy with
    | true => simp [Occurrence.Open, fired] at hopen
    | false => exact congrArg some hoid.symm
  · split at hb
    · next hhome =>
      obtain rfl := some.inj hb
      cases busy with
      | true => exact hexclusive oid o ho hopen a (hhome ▸ ha)
      | false => exact absurd hopen (hidle rfl oid o ho hhome)
    · exact hexclusive oid o ho hopen b hb

theorem Change.exclusive (hchange : Change h cadence step db db') (hdb : db.Consistent h)
    (hclear : ∀ id oid, step ≠ .clearActive id oid) (hexclusive : db.Exclusive) :
    db'.Exclusive := by
  cases hchange with
  | activate id room by_ revision targetRef now nextFire on hstep hnew =>
    intro oid o ho hopen a ha
    obtain ⟨b, hb, -⟩ := hdb.home oid o ho
    rw [get_write_activate, if_neg] at ha
    · exact hexclusive oid o ho hopen a ha
    · intro hhome
      rw [hhome] at hb
      simp [create, hnew] at hb
  | tune a fields ha hfields hactive henabled =>
    refine hexclusive.write_activation ha (fun r ↦ (hfields r).id) fun oid o ho hopen hhome ↦ ?_
    rw [hactive]
    exact hexclusive oid o ho hopen a (hhome ▸ ha)
  | release a active fields ha hfields hactive hnone hclosed =>
    refine hexclusive.write_activation ha (fun r ↦ (hfields r).id) fun oid o ho hopen hhome ↦ ?_
    have hoid := hexclusive oid o ho hopen a (hhome ▸ ha)
    obtain rfl := some.inj (hactive.symm.trans hoid)
    rcases hclosed with hclosed | hclosed
    · exact absurd hclosed (hclear _ _)
    · exact absurd hopen (hclosed o ho)
  | note o fields ho hid hnoted =>
    refine hexclusive.write_occurrence ho hid hnoted.activation fun hopen ↦ ?_
    rwa [Occurrence.Open, hnoted.state] at hopen
  | finish o fields ho hid hended hdecides =>
    exact hexclusive.write_occurrence ho hid hended.activation fun hopen ↦
      absurd hopen hended.closed
  | admitClaim o a claim hstep ho ha hstate henabled hactive =>
    exact hexclusive.write_occurrence ho (admitClaim_id claim) rfl fun _ ↦ .inl hstate
  | fire a now slot busy hstep ha hslot hprior hbusy =>
    refine hexclusive.record ha fun hidle oid o ho hhome hopen ↦ ?_
    have hactive := hexclusive oid o ho hopen a (hhome ▸ ha)
    simp [hbusy, hactive] at hidle
  | coalesce a prior now slot hstep ha hslot hactive hprior hstate =>
    -- the superseded occurrence was the only open one of the activation
    intro oid o ho hopen b hb
    rw [write_occurrence_activations, record_activations h ha] at hb
    rw [get_write_occurrence supersede_id, hdb.record_prior ha hslot hprior] at ho
    split at ho
    · obtain rfl := some.inj ho
      simp [Occurrence.Open, supersede] at hopen
    next hoid =>
    rw [record_occurrences] at ho
    split at ho
    · next hnew =>
      obtain rfl := some.inj ho
      rw [fired_activation, if_pos rfl] at hb
      obtain rfl := some.inj hb
      exact congrArg some hnew.symm
    · split at hb
      · next hhome =>
        have := hexclusive oid o ho hopen a (hhome ▸ ha)
        exact absurd (some.inj (this.symm.trans hactive)) hoid
      · exact hexclusive oid o ho hopen b hb
  | requests requests => exact hexclusive

theorem Changes.exclusive (hchanges : Changes h cadence step db db') (hdb : db.Consistent h)
    (hclear : ∀ id oid, step ≠ .clearActive id oid) (hexclusive : db.Exclusive) :
    db'.Exclusive := by
  induction hchanges with
  | refl => exact hexclusive
  | tail hchanges hchange ih => exact hchange.exclusive (consistent hchanges hdb) hclear ih

theorem step_exclusive (hdb : db.Consistent h) (step : Step U) (hstep : step.Disciplined db)
    (hexclusive : db.Exclusive) : (db.step h cadence step).Exclusive := by
  by_cases hclear : ∃ id oid, step = .clearActive id oid
  · obtain ⟨id, oid, rfl⟩ := hclear
    have hclosed := hstep.2 id oid rfl
    simp only [step, Step.tx]
    split
    · next writes hok =>
      obtain rfl | ⟨a, ha, rfl, hactive, rfl⟩ := clearActiveTx_ok hok
      · exact hexclusive
      refine hexclusive.write_activation ha Activation.release_id fun oid' o ho hopen hhome ↦ ?_
      have hoid := hexclusive oid' o ho hopen a (hhome ▸ ha)
      obtain rfl := some.inj (hactive.symm.trans hoid)
      exact absurd hopen (hclosed o ho)
    · exact hexclusive
  · exact exclusive (step_changes hdb.paired hdb.uncoalesced step hstep.1) hdb
      (fun id oid hid ↦ hclear ⟨id, oid, hid⟩) hexclusive

/-- The occurrence and the claim that a step must own. -/
def Step.claimed : Step U → Option (U × U)
  | .skipBatch _ oid claim _ => some (oid, claim)
  | .selectInput oid claim _ _ => some (oid, claim)
  | .retainInput oid claim _ _ _ => some (oid, claim)
  | .retainOwnedInput oid claim _ _ _ => some (oid, claim)
  | .interruptOwned _ oid claim _ => some (oid, claim)
  | .retention _ _ value _ => some (value.occurrence, value.claim)
  | .request _ _ retained _ => some (retained.value.occurrence, retained.value.claim)
  | _ => none

/-- A step with a claim writes only to an admission that it still owns. -/
theorem owned_of_claimed {oid claim : U} (hclaimed : step.claimed = some (oid, claim))
    {writes : Tx U} (hok : step.tx h cadence db = .ok writes) (hwrites : writes ≠ []) :
    ∃ o a, OwnedBy db oid claim o a := by
  cases step with
  | skipBatch expected oid' claim' reason =>
    cases hclaimed
    obtain ⟨o, a, howned, -⟩ := skipBatchTx_ok hok
    exact ⟨o, a, howned⟩
  | selectInput oid' claim' inputId emptyInput =>
    cases hclaimed
    obtain ⟨o, a, howned, -⟩ := selectInputTx_ok hok
    exact ⟨o, a, howned⟩
  | retainInput oid' claim' inputId revision ref =>
    cases hclaimed
    obtain ⟨o, a, howned, -⟩ := retainInputTx_ok hok
    exact ⟨o, a, howned⟩
  | retainOwnedInput oid' claim' identity revision ref =>
    cases hclaimed
    obtain ⟨o, a, howned, -⟩ := retainInputTx_ok (retainOwnedInputTx_ok hok)
    exact ⟨o, a, howned⟩
  | interruptOwned expected oid' claim' reason =>
    cases hclaimed
    simp only [Step.tx] at hok
    split at hok
    · obtain rfl | ⟨o, a, howned, -⟩ := interruptOwnedTx_ok hok
      · exact absurd rfl hwrites
      · exact ⟨o, a, howned⟩
    · simp at hok
  | retention forward ready value ref =>
    cases hclaimed
    obtain ⟨o, a, howned, -⟩ := retentionTx_ok hok
    exact ⟨o, a, howned⟩
  | request forward ready retained rid =>
    cases hclaimed
    obtain ⟨o, a, howned, -⟩ := requestTx_ok hok
    exact ⟨o, a, howned⟩
  | _ => cases hclaimed

/-- What `admit!` reads back: the claim of this caller is the recorded one. -/
def Db.received (db : Db U) (oid claim : U) : Prop :=
  (db.occurrences.get oid).bind (·.claim) = some claim

/-- Only `admit-tx` records a claim, on a queued active occurrence. -/
theorem Change.received (hchange : Change h cadence step db db') (hdb : db.Consistent h)
    {oid claim : U} (hreceived : db'.received oid claim) :
    db.received oid claim ∨ step = .admitClaim oid claim ∧
      ∃ o, db.occurrences.get oid = some o ∧ o.state = .pending := by
  unfold Db.received at hreceived ⊢
  have hpatch {o : Occurrence U} {fields : Occurrence U → Occurrence U}
      (ho : db.occurrences.get o.id = some o) (hid : ∀ r, (fields r).id = r.id)
      (hclaim : (fields o).claim = o.claim)
      (hreceived : ((db.write (.occurrence o.id fields)).occurrences.get oid).bind (·.claim) =
        some claim) : (db.occurrences.get oid).bind (·.claim) = some claim := by
    rw [get_write_occurrence hid, ho] at hreceived
    split at hreceived
    · next hoid =>
      rw [hoid, ho]
      exact hclaim.symm.trans hreceived
    · exact hreceived
  have hrecord {a : Activation U} {slot : Slot} {now coalesced : ℤ} {busy : Bool}
      (hreceived : ((db.record h a slot now coalesced busy).occurrences.get oid).bind (·.claim) =
        some claim) : (db.occurrences.get oid).bind (·.claim) = some claim := by
    rw [record_occurrences] at hreceived
    split at hreceived
    · simp [fired] at hreceived
    · exact hreceived
  cases hchange with
  | activate id room by_ revision targetRef now nextFire on hstep hnew => exact .inl hreceived
  | tune a fields ha hfields hactive henabled => exact .inl hreceived
  | release a oid fields ha hfields hactive hnone hclosed => exact .inl hreceived
  | note o fields ho hid hnoted => exact .inl (hpatch ho hid hnoted.claim hreceived)
  | finish o fields ho hid hended hdecides => exact .inl (hpatch ho hid hended.claim hreceived)
  | admitClaim o a claim' hstep ho ha hstate henabled hactive =>
    rw [get_write_occurrence (admitClaim_id claim'), ho] at hreceived
    split at hreceived
    · next hoid =>
      obtain rfl : claim' = claim := some.inj hreceived
      exact .inr ⟨hoid ▸ hstep, o, hoid ▸ ho, hstate⟩
    · exact .inl hreceived
  | fire a now slot busy hstep ha hslot hprior hbusy => exact .inl (hrecord hreceived)
  | coalesce a prior now slot hstep ha hslot hactive hprior hstate =>
    rw [get_write_occurrence supersede_id, hdb.record_prior ha hslot hprior] at hreceived
    split at hreceived
    · next hoid => exact .inl (by rw [hoid, hprior]; exact hreceived)
    · exact .inl (hrecord hreceived)
  | requests requests => exact .inl hreceived

theorem step_received (hdb : db.Consistent h) (howned : step.Owned db) {oid claim : U}
    (hreceived : (db.step h cadence step).received oid claim) :
    db.received oid claim ∨ step = .admitClaim oid claim := by
  have hchanges : Changes h cadence step db (db.step h cadence step) :=
    step_changes hdb.paired hdb.uncoalesced step howned
  generalize db.step h cadence step = db' at hchanges hreceived
  induction hchanges with
  | refl => exact .inl hreceived
  | tail hchanges hchange ih =>
    rcases hchange.received (consistent hchanges hdb) hreceived with hreceived | ⟨hstep, -⟩
    · exact ih hreceived
    · exact .inr hstep

theorem run_advances (hdb : db.Consistent h) {steps : List (Step U)}
    (howned : Along (Db.step h cadence) Step.Owned db steps) :
    db.Advances (run (Db.step h cadence) db steps) := by
  induction steps generalizing db with
  | nil => exact .refl db
  | cons step steps ih =>
    exact (step_advances hdb step howned.1).trans
      (ih (step_consistent hdb step howned.1) howned.2)

theorem along_owned {steps : List (Step U)}
    (hsteps : Along (Db.step h cadence) (fun db step ↦ step.Disciplined db) db steps) :
    Along (Db.step h cadence) Step.Owned db steps := by
  induction steps generalizing db with
  | nil => trivial
  | cons step steps ih => exact ⟨hsteps.1.1, ih hsteps.2⟩

/-- What the dispatcher relies on in one state, whatever comes later. -/
structure Db.Dispatched (h : Hasch U) (cadence : U → Cadence) (db : Db U) : Prop where
  /-- At most one occurrence of an activation is open, and it is the active one. -/
  active : ∀ oid o, db.occurrences.get oid = some o → o.Open →
    ∃ a, db.activations.get o.activation = some a ∧ a.activeOccurrence = some oid
  /-- Nothing returns to the queue, and recorded claims and inputs never change. -/
  advances : ∀ later, Along (Db.step h cadence) (fun db step ↦ step.Disciplined db) db later →
    db.Advances (run (Db.step h cadence) db later)
  /-- A claim appears only for the caller whose admission recorded it. -/
  received : ∀ step : Step U, step.Disciplined db → ∀ oid claim,
    (db.step h cadence step).received oid claim → db.received oid claim ∨ step = .admitClaim oid claim
  /-- No two callers ever read back their own claim of one occurrence. -/
  unique : ∀ later oid claim claim',
    Along (Db.step h cadence) (fun db step ↦ step.Disciplined db) db later →
    db.received oid claim → (run (Db.step h cadence) db later).received oid claim' → claim' = claim
  /-- Once an occurrence is decided, no step that requires its claim writes anything. -/
  fenced : ∀ oid o, db.occurrences.get oid = some o → ¬ o.Open → ∀ later (step : Step U) claim writes,
    Along (Db.step h cadence) (fun db step ↦ step.Disciplined db) db later →
    step.claimed = some (oid, claim) →
    step.tx h cadence (run (Db.step h cadence) db later) = .ok writes → writes = []
  /-- The withdrawal of an abandoned batch also resolves an interrupted admission. -/
  withdraw : ∀ forward retained writes, withdrawUnlinkedTx h db forward retained = .ok writes →
    ∃ o, db.occurrences.get retained.value.occurrence = some o ∧
      o.claim = some retained.value.claim ∧ (o.state = .admitting ∨ o.state = .interrupted)

/-- A scheduled occurrence is dispatched at most once. -/
theorem dispatched_once (steps : List (Step U))
    (hsteps : Along (Db.step h cadence) (fun db step ↦ step.Disciplined db) .init steps) :
    (run (Db.step h cadence) .init steps).Dispatched h cadence := by
  have hinit : (Db.init : Db U).Consistent h ∧ (Db.init : Db U).Exclusive :=
    ⟨init_consistent, fun oid o ho ↦ by simp [Db.init] at ho⟩
  obtain ⟨hdb, hexclusive⟩ := run_preserves_along (fun (db : Db U) step ↦ step.Disciplined db)
    (fun db ↦ db.Consistent h ∧ db.Exclusive) (fun db step hinv hstep ↦
      ⟨step_consistent hinv.1 step hstep.1, step_exclusive hinv.1 step hstep hinv.2⟩) hinit hsteps
  set db := run (Db.step h cadence) .init steps
  have hadvances (later : List (Step U))
      (hlater : Along (Db.step h cadence) (fun db step ↦ step.Disciplined db) db later) :
      db.Advances (run (Db.step h cadence) db later) := run_advances hdb (along_owned hlater)
  constructor
  · intro oid o ho hopen
    obtain ⟨a, ha, -⟩ := hdb.home oid o ho
    exact ⟨a, ha, hexclusive oid o ho hopen a ha⟩
  · exact hadvances
  · exact fun step hstep oid claim hreceived ↦ step_received hdb hstep.1 hreceived
  · intro later oid claim claim' hlater hreceived hreceived'
    obtain ⟨o, ho, hclaim⟩ := bind_eq_some_iff.mp hreceived
    obtain ⟨o', ho', hadvanced⟩ := hadvances later hlater oid o ho
    rw [Db.received, ho'] at hreceived'
    exact some.inj (hreceived'.symm.trans (hadvanced.claim claim hclaim))
  · intro oid o ho hclosed later step claim writes hlater hclaimed hok
    by_contra hwrites
    obtain ⟨q, a, howned⟩ := owned_of_claimed hclaimed hok hwrites
    obtain ⟨o', ho', hadvanced⟩ := hadvances later hlater oid o ho
    obtain rfl := some.inj (ho'.symm.trans howned.occurrence)
    exact hclosed (hadvanced.admitting howned.state)
  · intro forward retained writes hok
    obtain ⟨o, a, ho, -, hid, hclaim, hstate, -⟩ := withdrawUnlinkedTx_ok hok
    exact ⟨o, hid ▸ ho, hclaim, hstate⟩

/-- Two dispatchers race for one occurrence; the loser finds it claimed. -/
theorem dispatched_once_example : (run (Db.step .sequences fun _ ↦ .interval 10 (by decide)) .init
      [.create [1] [2] [3] [4] [5] 0 100 true, .due [1] [4] 105, .admitClaim [100, 1, 1, 4] [8],
        .admitClaim [100, 1, 1, 4] [9], .selectInput [100, 1, 1, 4] [8] [6] false,
        .finish [100, 1, 1, 4] [8] .linked (some [7]) none,
        .clearActive [1] [100, 1, 1, 4], .due [1] [4] 117]).Dispatched .sequences
      fun _ ↦ .interval 10 (by decide) := by
  apply dispatched_once
  simp only [along_cons, along_nil, Step.Disciplined, Step.Owned, and_true, true_and, reduceCtorEq,
    false_implies, implies_true]
  refine ⟨⟨rfl, .inl trivial, by decide⟩, ?_⟩
  rintro id oid hclear o ho
  obtain ⟨rfl, rfl⟩ := Step.clearActive.inj hclear
  obtain rfl := some.inj ho
  decide

/-- The binding of an admitted occurrence to a ready batch, as the host retains it. -/
def retainedExample : Retained (List ℤ) where
  value := bindingValue .sequences
    { activation := [1], revision := [4], targetRef := [5], occurrence := [100, 1, 1, 4],
      claim := [8], by_ := [3], room := [2], batch := [6], selection := [6], frozen := [7] }
  reference := [10]

/-- An admission that was bound to a batch and then interrupted. -/
def interruptedExample : Db (List ℤ) :=
  run (Db.step .sequences fun _ ↦ .interval 10 (by decide)) .init
    [.create [1] [2] [3] [4] [5] 0 100 true, .due [1] [4] 105, .admitClaim [100, 1, 1, 4] [8],
      .retention none (.ok ()) retainedExample.value [10],
      .interruptOwned ⟨[1], [3], [2], [4], [5]⟩ [100, 1, 1, 4] [8] .interrupted]

/-- Without the discipline two occurrences of one activation are queued, and a withdrawal still
writes after an interruption. -/
theorem undisciplined_not_exclusive :
    ((run (Db.step .sequences fun _ ↦ .interval 10 (by decide)) .init
        [.create [1] [2] [3] [4] [5] 0 100 true, .due [1] [4] 105,
          .clearActive [1] [100, 1, 1, 4], .due [1] [4] 117]).recorded [1]).map
            (fun o ↦ (o.id, o.state)) = [([110, 1, 1, 4], .pending), ([100, 1, 1, 4], .pending)] ∧
    (interruptedExample.recorded [1]).map (fun o ↦ (o.claim, o.state)) =
      [(some [8], .interrupted)] ∧
    ((interruptedExample.step .sequences (fun _ ↦ .interval 10 (by decide))
        (.withdraw (some [100, 1, 1, 4]) retainedExample)).recorded [1]).map (·.state) =
      [.skipped] := by
  decide

end Simmis.Schedules
