import Simmis.Schedules.Dispatcher

/-!
# A schedule does not wedge

An enabled activation whose active occurrence was decided without work records every later slot as
an overlap. The dispatcher passes through such rows only inside its handlers. A crash there leaves
them behind; so does a resume that is written while the active occurrence waits for a
reconciliation.
-/

namespace Simmis.Schedules

open List Option Runs Step Db Phase Table State Except

variable {U : Type} [DecidableEq U] {h : Hasch U} {cadence : U → Cadence} {step : Step U}
  {db db' : Db U} {aid : U}

/-- Decided, with no request that could still release the slot. -/
def State.dead : State → Bool
  | .interrupted | .blocked | .skipped => true
  | .pending | .admitting | .linked => false

/-- The row that the active pointer of `aid` names. -/
def Db.active (db : Db U) (aid : U) : Option (Occurrence U) :=
  ((db.activations.get aid).bind (·.activeOccurrence)).bind db.occurrences.get

def Db.Enabled (db : Db U) (aid : U) : Prop := (db.activations.get aid).any (·.enabled)

def Db.Stuck (db : Db U) (aid : U) : Prop := (db.active aid).any (·.state.dead)

def Db.Wedged (db : Db U) (aid : U) : Prop := db.Enabled aid ∧ db.Stuck aid

instance (db : Db U) (aid : U) : Decidable (db.Enabled aid) := inferInstanceAs (Decidable (_ = _))

instance (db : Db U) (aid : U) : Decidable (db.Stuck aid) := inferInstanceAs (Decidable (_ = _))

instance (db : Db U) (aid : U) : Decidable (db.Wedged aid) := inferInstanceAs (Decidable (_ ∧ _))

/-! ## What the steps do to the active occurrence -/

variable {o : Occurrence U}

theorem active_eq_some_iff : db.active aid = some o ↔ ∃ a, db.activations.get aid = some a ∧
      a.activeOccurrence = some o.id ∧ db.occurrences.get o.id = some o := by
  unfold active
  constructor
  · intro hactive
    obtain ⟨oid, hpointer, ho⟩ := bind_eq_some_iff.mp hactive
    obtain ⟨a, ha, hpointer⟩ := bind_eq_some_iff.mp hpointer
    obtain rfl := key_of_get ho
    exact ⟨a, ha, hpointer, ho⟩
  · rintro ⟨a, ha, hpointer, ho⟩
    simp [ha, hpointer, ho]

theorem stuck_iff : db.Stuck aid ↔ ∃ a o, db.activations.get aid = some a ∧
    a.activeOccurrence = some o.id ∧ db.occurrences.get o.id = some o ∧ o.state.dead := by
  simp only [Db.Stuck, Option.any_eq_true, active_eq_some_iff]
  grind

theorem enabled_iff : db.Enabled aid ↔ ∃ a, db.activations.get aid = some a ∧ a.enabled := by
  simp [Db.Enabled, Option.any_eq_true]

/-- A step that decides nothing leaves no activation stuck that was not. -/
theorem Change.stuck (hchange : Change h cadence step db db') (hdb : db.Consistent h)
    (hdecides : ¬ step.Decides) (hstuck : db'.Stuck aid) : db.Stuck aid := by
  obtain ⟨a', o, ha', hpointer, ho, hdead⟩ := stuck_iff.mp hstuck
  rw [stuck_iff]
  have hrecord {a : Activation U} {slot : Slot} {now coalesced : ℤ} {busy : Bool}
      (ha : db.activations.get a.id = some a)
      (hslot : dueSlot (cadence a.revision) a.nextFire now = .ok (some slot))
      (ha' : (db.record h a slot now coalesced busy).activations.get aid = some a')
      (ho : (db.record h a slot now coalesced busy).occurrences.get o.id = some o) :
      ∃ a o, db.activations.get aid = some a ∧ a.activeOccurrence = some o.id ∧
        db.occurrences.get o.id = some o ∧ o.state.dead := by
    rw [record_activations h ha] at ha'
    have hold {b : Activation U} (hb : db.activations.get aid = some b)
        (hpointer : b.activeOccurrence = some o.id) :
        ∃ a o, db.activations.get aid = some a ∧ a.activeOccurrence = some o.id ∧
          db.occurrences.get o.id = some o ∧ o.state.dead := by
      obtain ⟨q, hq, -⟩ := hdb.active aid b o.id hb hpointer
      have hq' : (db.record h a slot now coalesced busy).occurrences.get o.id = some q :=
        hdb.record_prior ha hslot hq
      obtain rfl := some.inj (hq'.symm.trans ho)
      exact ⟨b, q, hb, hpointer, hq, hdead⟩
    split at ha'
    · next hid =>
      obtain rfl := some.inj ha'
      cases busy with
      | true => exact hold (show db.activations.get aid = some a by rw [hid, ha]) hpointer
      | false =>
        -- the new active occurrence is queued
        have hnew : h.occurrence a.id a.revision slot.intended = o.id := some.inj hpointer
        rw [record_occurrences, if_pos hnew.symm] at ho
        obtain rfl := some.inj ho
        simp [fired, dead] at hdead
    · exact hold ha' hpointer
  cases hchange with
  | activate id room by_ revision targetRef now nextFire on hstep hnew =>
    rw [get_write_activate] at ha'
    split at ha'
    · obtain rfl := some.inj ha'
      cases hpointer
    · exact ⟨a', o, ha', hpointer, ho, hdead⟩
  | tune a fields ha hfields hactive henabled =>
    rw [get_write_activation fun r ↦ (hfields r).id, ha] at ha'
    split at ha'
    · next hid =>
      obtain rfl := some.inj ha'
      exact ⟨a, o, hid ▸ ha, hactive ▸ hpointer, ho, hdead⟩
    · exact ⟨a', o, ha', hpointer, ho, hdead⟩
  | release a oid fields ha hfields hactive hnone hclosed =>
    rw [get_write_activation fun r ↦ (hfields r).id, ha] at ha'
    split at ha'
    · obtain rfl := some.inj ha'
      simp [hnone] at hpointer
    · exact ⟨a', o, ha', hpointer, ho, hdead⟩
  | note q fields hq hid hnoted =>
    rw [get_write_occurrence hid, hq] at ho
    split at ho
    · next hoid =>
      obtain rfl := some.inj ho
      exact ⟨a', q, ha', hoid ▸ hpointer, hq, hnoted.state ▸ hdead⟩
    · exact ⟨a', o, ha', hpointer, ho, hdead⟩
  | finish q fields hq hid hended hstep => exact absurd hstep hdecides
  | admitClaim q a claim hstep hq ha hstate henabled hactive =>
    rw [get_write_occurrence (Occurrence.admitClaim_id claim), hq] at ho
    split at ho
    · obtain rfl := some.inj ho
      simp [Occurrence.admitClaim, dead] at hdead
    · exact ⟨a', o, ha', hpointer, ho, hdead⟩
  | fire a now slot busy hstep ha hslot hprior hbusy => exact hrecord ha hslot ha' ho
  | coalesce a prior now slot hstep ha hslot hactive hprior hstate =>
    rw [write_occurrence_activations] at ha'
    rw [get_write_occurrence supersede_id, hdb.record_prior ha hslot hprior] at ho
    split at ho
    · next hoid =>
      -- the superseded occurrence is no longer active
      obtain rfl := some.inj ho
      rw [record_activations h ha] at ha'
      split at ha'
      · obtain rfl := some.inj ha'
        have hnew : h.occurrence a.id a.revision slot.intended = prior.id := some.inj hpointer
        have hfresh := hdb.fresh ha hslot
        rw [hnew, hprior] at hfresh
        cases hfresh
      · next hother =>
        obtain ⟨q, hq, hhome⟩ := hdb.active aid a' prior.id ha' hpointer
        obtain ⟨q', hq', hhome'⟩ := hdb.active a.id a prior.id ha hactive
        obtain rfl := some.inj (hq.symm.trans hq')
        exact absurd (hhome.symm.trans hhome') hother
    · exact hrecord ha hslot ha' ho
  | requests requests => exact ⟨a', o, ha', hpointer, ho, hdead⟩

/-- Only a resume enables an activation that waits on an occurrence. -/
theorem Change.enabled (hchange : Change h cadence step db db')
    (hresume : step ≠ .enabled aid true) {a : Activation U} (ha : db.activations.get aid = some a)
    (henabled : db'.Enabled aid) : db.Enabled aid := by
  obtain ⟨a', ha', hon⟩ := enabled_iff.mp henabled
  rw [enabled_iff]
  cases hchange with
  | activate id room by_ revision targetRef now nextFire on hstep hnew =>
    rw [get_write_activate] at ha'
    split at ha'
    · next hid =>
      rw [hid] at ha
      cases hnew.symm.trans ha
    · exact ⟨a', ha', hon⟩
  | tune b fields hb hfields hactive hflag =>
    rw [get_write_activation fun r ↦ (hfields r).id, hb] at ha'
    split at ha'
    · next hid =>
      obtain rfl := some.inj ha'
      rcases hflag hon with hflag | hstep
      · exact ⟨b, hid ▸ hb, hflag⟩
      · exact absurd (hid ▸ hstep) hresume
    · exact ⟨a', ha', hon⟩
  | release b oid fields hb hfields hactive hnone hclosed hflag =>
    rw [get_write_activation fun r ↦ (hfields r).id, hb] at ha'
    split at ha'
    · next hid =>
      obtain rfl := some.inj ha'
      exact ⟨b, hid ▸ hb, hflag hon⟩
    · exact ⟨a', ha', hon⟩
  | note q fields hq hid hnoted => exact ⟨a', ha', hon⟩
  | finish q fields hq hid hended hstep => exact ⟨a', ha', hon⟩
  | admitClaim q b claim hstep hq hb hstate henabled hactive => exact ⟨a', ha', hon⟩
  | fire b now slot busy hstep hb hslot hprior hbusy =>
    rw [record_activations h hb] at ha'
    split at ha'
    · next hid =>
      obtain rfl := some.inj ha'
      exact ⟨b, hid ▸ hb, hon⟩
    · exact ⟨a', ha', hon⟩
  | coalesce b prior now slot hstep hb hslot hactive hprior hstate =>
    rw [write_occurrence_activations, record_activations h hb] at ha'
    split at ha'
    · next hid =>
      obtain rfl := some.inj ha'
      exact ⟨b, hid ▸ hb, hon⟩
    · exact ⟨a', ha', hon⟩
  | requests requests => exact ⟨a', ha', hon⟩

/-- A step of the dispatcher that decides nothing and resumes nothing wedges nothing. -/
theorem step_wedged (hdb : db.Consistent h) (howned : step.Owned db) (hdecides : ¬ step.Decides)
    (hresume : step ≠ .enabled aid true) (hwedged : (db.step h cadence step).Wedged aid) :
    db.Wedged aid := by
  have hchanges : Changes h cadence step db (db.step h cadence step) :=
    step_changes hdb.paired hdb.uncoalesced step howned
  generalize db.step h cadence step = db' at hchanges hwedged
  induction hchanges with
  | refl => exact hwedged
  | tail hchanges hchange ih =>
    have hmid := Changes.consistent hchanges hdb
    have hstuck := hchange.stuck hmid hdecides hwedged.2
    obtain ⟨a, -, ha, -⟩ := stuck_iff.mp hstuck
    exact ih ⟨hchange.enabled hresume ha hwedged.1, hstuck⟩

theorem step_stuck (hdb : db.Consistent h) (howned : step.Owned db) (hdecides : ¬ step.Decides)
    (hstuck : (db.step h cadence step).Stuck aid) : db.Stuck aid := by
  have hchanges : Changes h cadence step db (db.step h cadence step) :=
    step_changes hdb.paired hdb.uncoalesced step howned
  generalize db.step h cadence step = db' at hchanges hstuck
  induction hchanges with
  | refl => exact hstuck
  | tail hchanges hchange ih =>
    exact ih (hchange.stuck (Changes.consistent hchanges hdb) hdecides hstuck)

theorem not_enabled_of_write {fields : Activation U → Activation U}
    (hid : ∀ r, (fields r).id = r.id) (hoff : ∀ r, (fields r).enabled = false) :
    ¬ (db.write (.activation aid fields)).Enabled aid := by
  intro henabled
  obtain ⟨a, ha, hon⟩ := enabled_iff.mp henabled
  rw [get_write_activation hid, if_pos rfl, map_eq_some_iff] at ha
  obtain ⟨row, -, rfl⟩ := ha
  simp [hoff] at hon

theorem not_enabled_of_none (hrow : db.activations.get aid = none) : ¬ db.Enabled aid := by
  simp [Db.Enabled, hrow]

/-- `block!` disables the activation. -/
theorem block_not_wedged (reason : Reason) :
    ¬ (db.step h cadence (.block aid reason)).Wedged aid := by
  rintro ⟨henabled, -⟩
  cases hrow : db.activations.get aid with
  | none =>
    simp only [step, tx, block, hrow] at henabled
    exact not_enabled_of_none hrow henabled
  | some row =>
    simp only [step, tx, block, hrow] at henabled
    exact not_enabled_of_write (Activation.hold_id reason) (fun _ ↦ rfl) henabled

theorem pause_not_wedged : ¬ (db.step h cadence (.enabled aid false)).Wedged aid := by
  rintro ⟨henabled, -⟩
  simp only [step, tx] at henabled
  split at henabled
  · next writes hok =>
    unfold enabledTx at hok
    split at hok
    · cases hok
    split at hok
    · split at hok
      · obtain rfl := ok.inj hok
        exact not_enabled_of_write Activation.pause_id (fun _ ↦ rfl) henabled
      · obtain rfl := ok.inj hok
        exact not_enabled_of_write (Activation.switch_id false) (fun _ ↦ rfl) henabled
    · obtain rfl := ok.inj hok
      exact not_enabled_of_write (Activation.switch_id false) (fun _ ↦ rfl) henabled
  · next hok =>
    cases hrow : db.activations.get aid with
    | none => exact not_enabled_of_none hrow henabled
    | some row =>
      simp only [enabledTx, hrow] at hok
      split at hok
      · split at hok <;> cases hok
      · cases hok

/-- After `clear-active!` of the active occurrence the activation is not stuck. -/
theorem clear_not_stuck (hactive : db.active aid = some o) :
    ¬ (db.step h cadence (.clearActive aid o.id)).Stuck aid := by
  obtain ⟨a, ha, hpointer, -⟩ := active_eq_some_iff.mp hactive
  intro hstuck
  obtain ⟨a', q, ha', hpointer', -⟩ := stuck_iff.mp hstuck
  simp only [step, tx, clearActiveTx, ha, hpointer, if_pos, apply_cons, apply_nil] at ha'
  rw [get_write_activation Activation.release_id, if_pos rfl, ha] at ha'
  obtain rfl := some.inj ha'
  cases hpointer'

/-- `finish-admission!` leaves every other occurrence and every pointer alone. -/
theorem finish_active (ho : db.occurrences.get o.id = some o) (claim : U) (state : State)
    (request : Option U) (reason : Option Reason) :
    (db.step h cadence (.finish o.id claim state request reason)).active aid =
      (db.active aid).map fun q ↦ if q.id = o.id then q.finish state request reason else q := by
  simp only [step, tx, finishAdmission, ho, apply_cons, apply_nil]
  unfold active
  rw [write_occurrence_activations]
  cases (db.activations.get aid).bind (·.activeOccurrence) with
  | none => rfl
  | some oid =>
    simp only [bind_some]
    rw [get_write_occurrence (Occurrence.finish_id state request reason)]
    split
    · next hoid =>
      subst hoid
      simp [ho]
    · next hoid =>
      cases hq : db.occurrences.get oid with
      | none => rfl
      | some q => simp [key_of_get hq, hoid]

theorem finish_activations (oid claim : U) (state : State) (request : Option U)
    (reason : Option Reason) :
    (db.step h cadence (.finish oid claim state request reason)).activations = db.activations := by
  simp only [step, tx, finishAdmission]
  cases db.occurrences.get oid <;> rfl

/-- Linking an admission wedges nothing. -/
theorem finish_linked_wedged (ho : db.occurrences.get o.id = some o) (claim : U)
    (request : Option U) (reason : Option Reason)
    (hwedged : (db.step h cadence (.finish o.id claim .linked request reason)).Wedged aid) :
    db.Wedged aid := by
  obtain ⟨henabled, hstuck⟩ := hwedged
  rw [Db.Enabled, finish_activations] at henabled
  refine ⟨henabled, ?_⟩
  rw [Db.Stuck, finish_active ho, Option.any_eq_true] at hstuck
  obtain ⟨q', hq', hdead⟩ := hstuck
  obtain ⟨q, hq, rfl⟩ := map_eq_some_iff.mp hq'
  split at hdead
  · cases hdead
  · simpa [Db.Stuck, hq] using hdead

/-! ## What people and other journals leave alone -/

section

variable (hactive : db.active aid = some o)
include hactive

/-- An activation is left waiting on the same row, unless that is still queued. -/
theorem enabled_active (hqueued : o.state ≠ .pending) (on : Bool) :
    (db.step h cadence (.enabled aid on)).active aid = some o := by
  obtain ⟨a, ha, hpointer, ho⟩ := active_eq_some_iff.mp hactive
  have hbind : a.activeOccurrence.bind db.occurrences.get = some o := by rw [hpointer]; exact ho
  simp only [step, tx, enabledTx, ha, hbind, hqueued, and_false, if_false, apply_cons, apply_nil]
  rw [active_eq_some_iff, get_write_activation (Activation.switch_id on), if_pos rfl, ha]
  exact ⟨_, rfl, hpointer, ho⟩

theorem create_active (id room by_ revision targetRef : U) (now nextFire : ℤ) (on : Bool) :
    (db.step h cadence (.create id room by_ revision targetRef now nextFire on)).active aid =
      some o := by
  obtain ⟨a, ha, hpointer, ho⟩ := active_eq_some_iff.mp hactive
  simp only [step, tx]
  split
  · next writes hok =>
    unfold createTx at hok
    split at hok
    · split at hok
      · obtain rfl := ok.inj hok
        exact hactive
      · simp at hok
    · next hnew =>
      split at hok
      · simp at hok
      obtain rfl := ok.inj hok
      rw [active_eq_some_iff]
      refine ⟨a, ?_, hpointer, ho⟩
      rw [apply_cons, apply_nil, get_write_activate, if_neg]
      · exact ha
      · intro hid
        rw [hid] at ha
        cases hnew.symm.trans ha
  · exact hactive

theorem block_active (reason : Reason) :
    (db.step h cadence (.block aid reason)).active aid = some o := by
  obtain ⟨a, ha, hpointer, ho⟩ := active_eq_some_iff.mp hactive
  simp only [step, tx, block, ha, apply_cons, apply_nil]
  rw [active_eq_some_iff, get_write_activation (Activation.hold_id reason), if_pos rfl, ha]
  exact ⟨_, rfl, hpointer, ho⟩

theorem active_write_occurrence {fields : Occurrence U → Occurrence U}
    (hid : ∀ r, (fields r).id = r.id) :
    (db.write (.occurrence o.id fields)).active aid = some (fields o) := by
  obtain ⟨a, ha, hpointer, ho⟩ := active_eq_some_iff.mp hactive
  rw [active_eq_some_iff]
  refine ⟨a, ha, by rw [hid, hpointer], ?_⟩
  rw [get_write_occurrence hid, hid, if_pos rfl, ho]
  rfl

end

theorem active_home (hdb : db.Consistent h) (hactive : db.active aid = some o) :
    o.activation = aid := by
  obtain ⟨a, ha, hpointer, ho⟩ := active_eq_some_iff.mp hactive
  obtain ⟨q, hq, hhome⟩ := hdb.active aid a o.id ha hpointer
  obtain rfl := some.inj (hq.symm.trans ho)
  exact hhome

/-! ## What the dispatcher relies on -/

def Db.Claimed (db : Db U) (oid : U) : Prop := ∃ o, db.occurrences.get oid = some o ∧ o.claim.isSome

def Db.Closed (db : Db U) (oid : U) : Prop := ∃ o, db.occurrences.get oid = some o ∧ ¬ o.Open

variable {oid : U}

theorem Db.Claimed.advance (hclaimed : db.Claimed oid) (hadvances : db.Advances db') :
    db'.Claimed oid := by
  obtain ⟨o, ho, hsome⟩ := hclaimed
  obtain ⟨o', ho', hadvanced⟩ := hadvances oid o ho
  obtain ⟨claim, hclaim⟩ := isSome_iff_exists.mp hsome
  exact ⟨o', ho', by rw [hadvanced.claim claim hclaim]; rfl⟩

theorem Db.Closed.advance (hclosed : db.Closed oid) (hadvances : db.Advances db') :
    db'.Closed oid := by
  obtain ⟨o, ho, hopen⟩ := hclosed
  obtain ⟨o', ho', hadvanced⟩ := hadvances oid o ho
  refine ⟨o', ho', ?_⟩
  rintro (hpending | hadmitting)
  · exact hopen (.inl (hadvanced.pending hpending))
  · exact hopen (hadvanced.admitting hadmitting)

/-- The activation waits on an admission that `claim` owns. -/
def Db.Admits (db : Db U) (aid oid claim : U) : Prop :=
  ∃ o, db.active aid = some o ∧ o.id = oid ∧ o.claim = some claim ∧ o.state = .admitting

/-- The activation waits on an occurrence that was just decided. -/
def Db.Decided (db : Db U) (aid oid : U) : Prop :=
  ∃ o, db.active aid = some o ∧ o.id = oid ∧ o.state.dead

theorem Db.Admits.not_stuck {claim : U} (hadmits : db.Admits aid oid claim) : ¬ db.Stuck aid := by
  obtain ⟨o, hactive, -, -, hstate⟩ := hadmits
  simp [Db.Stuck, hactive, hstate, dead]

theorem Db.Decided.stuck (hdecided : db.Decided aid oid) : db.Stuck aid := by
  obtain ⟨o, hactive, -, hdead⟩ := hdecided
  simp [Db.Stuck, hactive, hdead]

/-- The dispatcher is between `finish-admission!` and hold and release. -/
def Phase.handling : Phase U → Bool
  | .blocking .. | .clearing .. => true
  | _ => false

/-- A transaction that holds the activation is still to come. -/
def Phase.window (aid : U) : Phase U → Bool
  | .recoverBlock id _ => id = aid
  | .blocking .. | .clearing .. => true
  | _ => false

/-- `recover!` has finished. -/
def Phase.recovered : Phase U → Bool
  | .down | .recovering _ | .recoverBlock .. => false
  | _ => true

def Phase.Sound (aid : U) (db : Db U) : Phase U → Prop
  | .down | .idle => ¬ db.Wedged aid
  | .recovering todo => ¬ db.Wedged aid ∧ ∀ oid ∈ todo, db.Claimed oid
  | .recoverBlock id todo => (db.Wedged aid → id = aid) ∧ ∀ oid ∈ todo, db.Claimed oid
  | .ticking row | .firing row | .dispatching row => row.id = aid ∧ ¬ db.Wedged aid
  | .releasing row o => row.id = aid ∧ ¬ db.Wedged aid ∧ db.Closed o.id
  | .admitted row oid claim => row.id = aid ∧ db.Admits aid oid claim
  | .finishing row oid claim _ _ reason =>
    row.id = aid ∧ db.Admits aid oid claim ∧ reason ≠ .coalesced
  | .blocking row oid _ _ | .clearing row oid => row.id = aid ∧ db.Decided aid oid

variable {phase : Phase U}

/-- What other writers may do under the dispatcher. -/
theorem Phase.Sound.outside (hsound : phase.Sound aid db) (hadvances : db.Advances db')
    (hwedged : db'.Wedged aid → db.Wedged aid ∨ phase.window aid)
    (hactive : ∀ o, db.active aid = some o → o.state ≠ .pending → db'.active aid = some o) :
    phase.Sound aid db' := by
  have hadmits {oid claim : U} (hadmits : db.Admits aid oid claim) : db'.Admits aid oid claim := by
    obtain ⟨o, ho, hid, hclaim, hstate⟩ := hadmits
    exact ⟨o, hactive o ho (by simp [hstate]), hid, hclaim, hstate⟩
  have hdecided {oid : U} (hdecided : db.Decided aid oid) : db'.Decided aid oid := by
    obtain ⟨o, ho, hid, hdead⟩ := hdecided
    exact ⟨o, hactive o ho (by rintro hstate; simp [hstate, dead] at hdead), hid, hdead⟩
  cases phase with
  | down | idle => exact fun hnow ↦ (hwedged hnow).elim hsound (by simp [window])
  | recovering todo =>
    exact ⟨fun hnow ↦ (hwedged hnow).elim hsound.1 (by simp [window]),
      fun oid hoid ↦ (hsound.2 oid hoid).advance hadvances⟩
  | recoverBlock id todo =>
    exact ⟨fun hnow ↦ (hwedged hnow).elim hsound.1 (by simp [window]),
      fun oid hoid ↦ (hsound.2 oid hoid).advance hadvances⟩
  | ticking row | firing row | dispatching row =>
    exact ⟨hsound.1, fun hnow ↦ (hwedged hnow).elim hsound.2 (by simp [window])⟩
  | releasing row o =>
    exact ⟨hsound.1, fun hnow ↦ (hwedged hnow).elim hsound.2.1 (by simp [window]),
      hsound.2.2.advance hadvances⟩
  | admitted row oid claim => exact ⟨hsound.1, hadmits hsound.2⟩
  | finishing row oid claim submitted requested reason =>
    exact ⟨hsound.1, hadmits hsound.2.1, hsound.2.2⟩
  | blocking row oid requested reason => exact ⟨hsound.1, hdecided hsound.2⟩
  | clearing row oid => exact ⟨hsound.1, hdecided hsound.2⟩

/-- The turn keeps to the discipline of the writer and to what its next phase relies on. -/
def Turn.Sound (h : Hasch U) (cadence : U → Cadence) (aid : U) (db : Db U) (t : Turn U) : Prop :=
  (∀ step, t.step = some step → step.Disciplined db) ∧
    (t.phase (t.step.elim db (db.step h cadence))).Sound aid (t.step.elim db (db.step h cadence))

theorem Turn.Sound.reads {phase : Db U → Phase U} (hphase : (phase db).Sound aid db) :
    Turn.Sound h cadence aid db ⟨none, phase⟩ :=
  ⟨fun _ hstep ↦ (nomatch hstep), hphase⟩

theorem Turn.Sound.writes {phase : Db U → Phase U} (hstep : step.Disciplined db)
    (hphase : (phase (db.step h cadence step)).Sound aid (db.step h cadence step)) :
    Turn.Sound h cadence aid db ⟨some step, phase⟩ :=
  ⟨fun _ heq ↦ some.inj heq ▸ hstep, hphase⟩

/-- Steps other than a finish and a clear need no discipline. -/
def Step.plain : Step U → Bool
  | .finish .. | .clearActive .. => false
  | _ => true

theorem Step.plain.disciplined (hplain : step.plain) : step.Disciplined db := by
  cases step with
  | finish oid claim state rid reason => cases hplain
  | clearActive id oid => cases hplain
  | _ => exact ⟨trivial, fun _ _ heq ↦ nomatch heq⟩

theorem clear_disciplined (hclosed : db.Closed oid) : (clearActive aid oid).Disciplined db := by
  refine ⟨trivial, fun id oid' heq o ho ↦ ?_⟩
  obtain ⟨rfl, rfl⟩ := clearActive.inj heq
  obtain ⟨q, hq, hopen⟩ := hclosed
  exact some.inj (hq.symm.trans ho) ▸ hopen

theorem Db.Admits.finish_disciplined {claim : U} (hadmits : db.Admits aid oid claim) {state : State}
    (hstate : state = .linked ∨ state = .interrupted ∨ state = .blocked) (request : Option U)
    {reason : Option Reason} (hreason : reason ≠ some .coalesced) :
    (finish oid claim state request reason).Disciplined db := by
  obtain ⟨o, hactive, rfl, hclaim, -⟩ := hadmits
  obtain ⟨-, -, -, ho⟩ := active_eq_some_iff.mp hactive
  exact ⟨⟨by rw [ho]; exact hclaim, hstate, hreason⟩, fun _ _ heq ↦ nomatch heq⟩

/-- A plain step that decides and resumes nothing does not wedge. -/
theorem quiet_turn (hdb : db.Consistent h) (hplain : step.plain) (hdecides : ¬ step.Decides)
    (hresume : step ≠ .enabled aid true) (hwedged : ¬ db.Wedged aid) {phase : Db U → Phase U}
    (hphase : ¬ (db.step h cadence step).Wedged aid → db.Advances (db.step h cadence step) →
      (phase (db.step h cadence step)).Sound aid (db.step h cadence step)) :
    Turn.Sound h cadence aid db ⟨some step, phase⟩ := by
  have hdisciplined : step.Disciplined db := plain.disciplined hplain
  exact .writes hdisciplined (hphase
    (fun hnow ↦ hwedged (step_wedged hdb hdisciplined.1 hdecides hresume hnow))
    (step_advances hdb step hdisciplined.1))

variable {t : Turn U}

variable {event : Event U} {row : Activation U}

section

variable (hdb : db.Consistent h)
include hdb

theorem recovering_turn {todo : List U} (hsound : (recovering (oid :: todo)).Sound aid db)
    (hturn : turn h aid db (.recovering (oid :: todo)) .next = some t) :
    t.Sound h cadence aid db := by
  obtain ⟨hwedged, htodo⟩ := hsound
  rw [forall_mem_cons] at htodo
  obtain ⟨o, ho, hclaimed⟩ := htodo.1
  obtain rfl := key_of_get ho
  obtain ⟨row, hrow, -⟩ := hdb.home o.id o ho
  obtain ⟨claim, hclaim⟩ := isSome_iff_exists.mp hclaimed
  have hstep (state : State) (hstate : state = .linked ∨ state = .interrupted ∨ state = .blocked)
      (request : Option U) :
      (finish o.id claim state request (some .restart)).Disciplined db :=
    ⟨⟨by rw [ho]; exact hclaim, hstate, by simp⟩, fun _ _ heq ↦ (nomatch heq)⟩
  simp only [turn, ho, hrow, hclaim, getD_some] at hturn
  split at hturn
  · obtain rfl := some.inj hturn
    refine .writes (hstep .linked (by simp) _) ⟨fun hnow ↦ ?_, fun q hq ↦ ?_⟩
    · exact hwedged (finish_linked_wedged ho claim _ _ hnow)
    · exact (htodo.2 q hq).advance (step_advances hdb _ (hstep .linked (by simp) _).1)
  · obtain rfl := some.inj hturn
    refine .writes (hstep .interrupted (by simp) _) ⟨fun hnow ↦ ?_, fun q hq ↦ ?_⟩
    · obtain ⟨henabled, hstuck⟩ := hnow
      rw [Db.Enabled, finish_activations] at henabled
      rw [Db.Stuck, finish_active ho, Option.any_eq_true] at hstuck
      obtain ⟨q', hq', hdead⟩ := hstuck
      obtain ⟨q, hq, rfl⟩ := map_eq_some_iff.mp hq'
      split at hdead
      · next hid =>
        obtain ⟨-, -, -, hq''⟩ := active_eq_some_iff.mp hq
        obtain rfl := some.inj ((hid ▸ hq'').symm.trans ho)
        rw [key_of_get hrow, active_home hdb hq]
      · exact absurd ⟨henabled, by simpa [Db.Stuck, hq] using hdead⟩ hwedged
    · exact (htodo.2 q hq).advance (step_advances hdb _ (hstep .interrupted (by simp) _).1)

/-- The turns of startup. -/
theorem startup_turn (hstartup : phase.recovered = false)
    (hsound : phase.Sound aid db) (hturn : turn h aid db phase event = some t) :
    t.Sound h cadence aid db := by
  cases phase with
  | down =>
    cases event with
    | start =>
      obtain rfl := some.inj hturn
      refine .reads ⟨hsound, fun oid hoid ↦ ?_⟩
      obtain ⟨o, ho, rfl⟩ := mem_map.mp hoid
      obtain ⟨ho, hadmitting⟩ := mem_select.mp ho
      exact ⟨o, ho, hdb.owned o.id o ho (of_decide_eq_true hadmitting)⟩
    | _ => cases hturn
  | recovering todo =>
    cases event with
    | next =>
      cases todo with
      | nil =>
        obtain rfl := some.inj hturn
        exact .reads hsound.1
      | cons oid todo => exact recovering_turn hdb hsound hturn
    | _ => cases todo <;> cases hturn
  | recoverBlock id todo =>
    cases event with
    | next =>
      obtain rfl := some.inj hturn
      have hplain : (Step.block id Reason.interrupted).plain := rfl
      have hdisciplined : (Step.block id Reason.interrupted).Disciplined db :=
        plain.disciplined hplain
      refine .writes hdisciplined ⟨fun hnow ↦ ?_, fun oid hoid ↦ ?_⟩
      · have hid := hsound.1 (step_wedged hdb hdisciplined.1 (by simp [Step.Decides]) (by simp) hnow)
        exact block_not_wedged _ (hid ▸ hnow)
      · exact (hsound.2 oid hoid).advance (step_advances hdb _ hdisciplined.1)
    | _ => cases hturn
  | _ => cases hstartup

/-- The turns of `release-settled!`. -/
theorem releasing_turn (hsound : (releasing row o).Sound aid db)
    (hturn : turn h aid db (.releasing row o) event = some t) : t.Sound h cadence aid db := by
  obtain ⟨hrow, hwedged, hclosed⟩ := hsound
  cases event with
  | announce | processed | executionFailed | failTerminal =>
    obtain rfl := some.inj hturn
    exact quiet_turn hdb rfl (by simp [Step.Decides]) (by simp) hwedged
      fun hwedged hadvances ↦ ⟨hrow, hwedged, hclosed.advance hadvances⟩
  | next =>
    obtain rfl := some.inj hturn
    refine .writes (clear_disciplined hclosed) ⟨hrow, fun hnow ↦ ?_⟩
    exact hwedged (step_wedged hdb (clear_disciplined hclosed).1 (by simp [Step.Decides]) (by simp)
      hnow)
  | throw type =>
    obtain rfl := some.inj hturn
    exact .reads ⟨hrow, hwedged⟩
  | _ => cases hturn

/-- A dispatcher that reads back its own claim owns the admission. -/
theorem admit_received {claim : U} (hactive : db.active aid = some o)
    (hpending : o.state = .pending)
    (hreceived : (((db.step h cadence (.admitClaim o.id claim)).occurrences.get o.id).bind (·.claim)) =
      some claim) : (db.step h cadence (.admitClaim o.id claim)).Admits aid o.id claim := by
  obtain ⟨a, ha, hpointer, ho⟩ := active_eq_some_iff.mp hactive
  cases henabled : a.enabled with
  | true =>
    have hstep : db.step h cadence (.admitClaim o.id claim) =
        db.write (.occurrence o.id (Occurrence.admitClaim claim)) := by
      simp [step, tx, admitTx, ho, active_home hdb hactive, ha, hpending, henabled, hpointer]
    rw [hstep]
    exact ⟨o.admitClaim claim,
      active_write_occurrence hactive (Occurrence.admitClaim_id claim), rfl, rfl, rfl⟩
  | false =>
    have hstep : db.step h cadence (.admitClaim o.id claim) = db := by
      simp [step, tx, admitTx, ho, active_home hdb hactive, ha, henabled]
    rw [hstep, ho, bind_some, hdb.queued o.id o ho hpending] at hreceived
    cases hreceived

theorem admit_turn {claim : U} (hsound : (dispatching row).Sound aid db)
    (hturn : turn h aid db (.dispatching row) (.admitClaim claim) = some t) :
    t.Sound h cadence aid db := by
  obtain ⟨rfl, hwedged⟩ := hsound
  simp only [turn] at hturn
  split at hturn
  · obtain rfl := some.inj hturn
    exact .reads hwedged
  next oid hpointer =>
  split at hturn
  · next hany =>
    obtain rfl := some.inj hturn
    obtain ⟨a, ha, hpointer⟩ := bind_eq_some_iff.mp hpointer
    obtain ⟨o, ho, hpending⟩ := (any_eq_true _ _).mp hany
    obtain rfl := key_of_get ho
    have hactive : db.active row.id = some o := active_eq_some_iff.mpr ⟨a, ha, hpointer, ho⟩
    refine quiet_turn hdb rfl (by simp [Step.Decides]) (by simp) hwedged fun hwedged _ ↦ ?_
    split
    · next hreceived =>
      exact ⟨rfl, admit_received hdb hactive (of_decide_eq_true hpending) hreceived⟩
    · exact hwedged
  · obtain rfl := some.inj hturn
    exact .reads hwedged

/-- The turns of a pass of `tick!` outside `dispatch!` and `release-settled!`. -/
theorem pass_turn (hphase : phase = .ticking row ∨ phase = .firing row ∨ phase = .dispatching row)
    (hsound : phase.Sound aid db) (hturn : turn h aid db phase event = some t) :
    t.Sound h cadence aid db := by
  have hrow : row.id = aid ∧ ¬ db.Wedged aid := by
    rcases hphase with rfl | rfl | rfl <;> exact hsound
  -- an exception blocks the activation
  have hthrow (reason : Reason) : Turn.Sound h cadence aid db
      ⟨some (.block row.id reason), fun _ ↦ .idle⟩ :=
    quiet_turn hdb rfl (by simp [Step.Decides]) (by simp) hrow.2 fun hwedged _ ↦ hwedged
  obtain rfl | rfl | rfl := hphase
  · cases event with
    | throw type =>
      obtain rfl := some.inj hturn
      exact hthrow _
    | next =>
      simp only [turn] at hturn
      split at hturn
      · obtain rfl := some.inj hturn
        exact .reads hrow
      next o ho =>
      obtain ⟨oid, -, ho⟩ := bind_eq_some_iff.mp ho
      obtain rfl := key_of_get ho
      split at hturn
      · next hsettled =>
        obtain rfl := some.inj hturn
        exact .reads ⟨hrow.1, hrow.2, o, ho, by simp [Occurrence.Open, hsettled.1]⟩
      · obtain rfl := some.inj hturn
        exact .reads hrow
    | _ => cases hturn
  · cases event with
    | throw type =>
      obtain rfl := some.inj hturn
      exact hthrow _
    | due now =>
      simp only [turn] at hturn
      split at hturn
      · obtain rfl := some.inj hturn
        exact quiet_turn hdb rfl (by simp [Step.Decides]) (by simp) hrow.2
          fun hwedged _ ↦ ⟨hrow.1, hwedged⟩
      · obtain rfl := some.inj hturn
        exact .reads hrow
    | _ => cases hturn
  · cases event with
    | throw type =>
      obtain rfl := some.inj hturn
      exact hthrow _
    | admitClaim claim => exact admit_turn hdb hsound hturn
    | _ => cases hturn

end

/-- A patch of the owned admission that keeps its claim and its state. -/
theorem Db.Admits.write {claim : U} (hadmits : db.Admits aid oid claim)
    {fields : Occurrence U → Occurrence U} (hid : ∀ r, (fields r).id = r.id)
    (hclaim : ∀ r, (fields r).claim = r.claim) (hstate : ∀ r, (fields r).state = r.state) :
    (db.write (.occurrence oid fields)).Admits aid oid claim := by
  obtain ⟨o, hactive, rfl, hclaimed, hadmitting⟩ := hadmits
  exact ⟨fields o, active_write_occurrence hactive hid, hid o, by rw [hclaim, hclaimed],
    by rw [hstate, hadmitting]⟩

/-- A selection keeps the admission, or skips its slot and releases the activation. -/
theorem select_outcome (cadence : U → Cadence) (hdb : db.Consistent h) {claim : U}
    (hadmits : db.Admits aid oid claim) (inputId : U) (emptyInput : Bool) :
    (db.step h cadence (.selectInput oid claim inputId emptyInput)).Admits aid oid claim ∨
      ¬ (db.step h cadence (.selectInput oid claim inputId emptyInput)).Stuck aid ∧
        ((db.step h cadence (.selectInput oid claim inputId emptyInput)).occurrences.get oid).any
          (·.state = .skipped) := by
  simp only [step, tx]
  split
  · next writes hok =>
    obtain ⟨o, a, howned, -, ⟨reason, -, rfl⟩ | rfl⟩ := selectInputTx_ok hok
    · have haid : a.id = aid := by
        obtain ⟨q, hactive, hqid, -⟩ := hadmits
        obtain ⟨-, -, -, hq⟩ := active_eq_some_iff.mp hactive
        obtain rfl := some.inj ((hqid ▸ hq).symm.trans howned.occurrence)
        rw [← howned.home, active_home hdb hactive]
      refine .inr ⟨fun hstuck ↦ ?_, ?_⟩
      · obtain ⟨b, q, hb, hpointer, -⟩ := stuck_iff.mp hstuck
        simp only [skip, apply_cons, apply_nil] at hb
        rw [get_write_activation Activation.release_id, write_occurrence_activations,
          if_pos haid.symm, howned.activation] at hb
        obtain rfl := some.inj hb
        cases hpointer
      · simp only [skip, apply_cons, apply_nil, write_activation_occurrences]
        rw [get_write_occurrence (Occurrence.skip_id reason _), if_pos rfl, howned.occurrence]
        rfl
    · exact .inl (hadmits.write (fun _ ↦ rfl) (fun _ ↦ rfl) fun _ ↦ rfl)
  · exact .inl hadmits

section

variable {claim : U} (hadmits : db.Admits aid oid claim)
include hadmits

theorem retain_admits (inputId revision ref : U) :
    (db.step h cadence (.retainInput oid claim inputId revision ref)).Admits aid oid claim := by
  simp only [step, tx]
  split
  · next writes hok =>
    obtain ⟨o, a, -, rfl | ⟨-, rfl⟩⟩ := retainInputTx_ok hok
    · exact hadmits
    · exact hadmits.write (fun _ ↦ rfl) (fun _ ↦ rfl) fun _ ↦ rfl
  · exact hadmits

/-- Finishing the active admission decides it, and leaves the activation waiting on it. -/
theorem Db.Admits.finish {state : State} (hdead : state.dead) (request : Option U)
    (reason : Option Reason) :
    (db.step h cadence (.finish oid claim state request reason)).Decided aid oid := by
  obtain ⟨o, hactive, rfl, -⟩ := hadmits
  obtain ⟨-, -, -, ho⟩ := active_eq_some_iff.mp hactive
  refine ⟨o.finish state request reason, ?_, rfl, hdead⟩
  rw [finish_active ho, hactive, map_some, if_pos rfl]

theorem Db.Admits.finish_linked (request : Option U) (reason : Option Reason) :
    ¬ (db.step h cadence (.finish oid claim .linked request reason)).Wedged aid := by
  intro hwedged
  obtain ⟨o, hactive, rfl, -⟩ := id hadmits
  obtain ⟨-, -, -, ho⟩ := active_eq_some_iff.mp hactive
  exact hadmits.not_stuck (finish_linked_wedged ho claim request reason hwedged).2

end

/-- The turns of the body of `dispatch!`. -/
theorem admitted_turn (hdb : db.Consistent h) {claim : U}
    (hsound : (admitted row oid claim).Sound aid db)
    (hturn : turn h aid db (.admitted row oid claim) event = some t) :
    t.Sound h cadence aid db := by
  obtain ⟨hrow, hadmits⟩ := hsound
  cases event with
  | select inputId emptyInput =>
    obtain rfl := some.inj hturn
    refine .writes (plain.disciplined rfl) ?_
    obtain hadmits' | ⟨hstuck, hskipped⟩ := select_outcome cadence hdb hadmits inputId emptyInput
    · obtain ⟨o, hactive, rfl, -, hstate⟩ := id hadmits'
      obtain ⟨-, -, -, ho⟩ := active_eq_some_iff.mp hactive
      rw [if_neg (by simp [ho, hstate])]
      exact ⟨hrow, hadmits'⟩
    · rw [if_pos hskipped]
      exact fun hwedged ↦ hstuck hwedged.2
  | retain inputId revision ref =>
    obtain rfl := some.inj hturn
    exact .writes (plain.disciplined rfl) ⟨hrow, retain_admits hadmits inputId revision ref⟩
  | submitted =>
    obtain rfl := some.inj hturn
    exact .writes (hadmits.finish_disciplined (by simp) _ (by simp)) (hadmits.finish_linked _ _)
  | throw type =>
    obtain rfl := some.inj hturn
    refine .reads ⟨hrow, hadmits, ?_⟩
    split
    · simp
    · cases type <;> simp
  | _ => cases hturn

/-- The turns of the handler of `dispatch!`. -/
theorem handler_turn (hsound : phase.Sound aid db)
    (hphase : (∃ row oid claim submitted requested reason,
        phase = .finishing row oid claim submitted requested reason) ∨ phase.handling)
    (hturn : turn h aid db phase event = some t) : t.Sound h cadence aid db := by
  -- an exception of the handler itself blocks the activation
  have hblock {id : U} (hid : id = aid) (reason : Reason) :
      Turn.Sound h cadence aid db ⟨some (.block id reason), fun _ ↦ .idle⟩ :=
    .writes (plain.disciplined rfl) (hid ▸ block_not_wedged reason)
  cases phase with
  | finishing row oid claim submitted requested reason =>
    obtain ⟨hrow, hadmits, hreason⟩ := hsound
    cases event with
    | next =>
      obtain rfl := some.inj hturn
      refine .writes (hadmits.finish_disciplined ?_ _ (by simpa using hreason)) ?_
      · cases submitted <;> cases requested <;> simp
      · cases submitted with
        | true => exact hadmits.finish_linked _ _
        | false => exact ⟨hrow, hadmits.finish (by cases requested <;> rfl) _ _⟩
    | throw type =>
      obtain rfl := some.inj hturn
      exact hblock hrow _
    | _ => cases hturn
  | blocking row oid requested reason =>
    obtain ⟨hrow, o, hactive, hoid, hdead⟩ := hsound
    cases event with
    | next =>
      obtain rfl := some.inj hturn
      refine .writes (plain.disciplined rfl) ?_
      cases requested with
      | true => exact hrow ▸ block_not_wedged reason
      | false => exact ⟨hrow, o, hrow ▸ block_active (hrow.symm ▸ hactive) reason, hoid, hdead⟩
    | throw type =>
      obtain rfl := some.inj hturn
      exact hblock hrow _
    | _ => cases hturn
  | clearing row oid =>
    obtain ⟨hrow, o, hactive, hoid, hdead⟩ := hsound
    obtain ⟨-, -, -, ho⟩ := active_eq_some_iff.mp hactive
    cases event with
    | next =>
      obtain rfl := some.inj hturn
      have hclosed : db.Closed oid := by
        refine ⟨o, hoid ▸ ho, ?_⟩
        rintro (hstate | hstate) <;> simp [hstate, dead] at hdead
      refine .writes (clear_disciplined hclosed) fun hwedged ↦ ?_
      rw [hrow, ← hoid] at hwedged
      exact clear_not_stuck hactive hwedged.2
    | throw type =>
      obtain rfl := some.inj hturn
      exact hblock hrow _
    | _ => cases hturn
  | _ => simp [handling] at hphase

theorem turn_sound (cadence : U → Cadence) (hdb : db.Consistent h)
    (hsound : phase.Sound aid db) (hturn : turn h aid db phase event = some t) :
    t.Sound h cadence aid db := by
  cases phase with
  | down | recovering todo | recoverBlock id todo => exact startup_turn hdb rfl hsound hturn
  | idle =>
    cases event with
    | next =>
      simp only [turn] at hturn
      split at hturn
      · cases hturn
      · next row hrow =>
        obtain rfl := some.inj hturn
        exact .reads ⟨key_of_get hrow, hsound⟩
    | _ => cases hturn
  | ticking row => exact pass_turn hdb (.inl rfl) hsound hturn
  | releasing row o => exact releasing_turn hdb hsound hturn
  | firing row => exact pass_turn hdb (.inr (.inl rfl)) hsound hturn
  | dispatching row => exact pass_turn hdb (.inr (.inr rfl)) hsound hturn
  | admitted row oid claim => exact admitted_turn hdb hsound hturn
  | finishing row oid claim submitted requested reason =>
    exact handler_turn hsound (.inl ⟨row, oid, claim, submitted, requested, reason, rfl⟩) hturn
  | blocking row oid requested reason => exact handler_turn hsound (.inr rfl) hturn
  | clearing row oid => exact handler_turn hsound (.inr rfl) hturn

/-- Everything that holds between two transactions. -/
structure System.Sound (h : Hasch U) (aid : U) (s : System U) : Prop where
  consistent : s.db.Consistent h
  exclusive : s.db.Exclusive
  phase : s.phase.Sound aid s.db

/-- No crash finds the activation wedged, and no resume comes inside the window of a handler. -/
def Event.Safe (aid : U) (s : System U) : Event U → Prop
  | .crash => ¬ s.db.Wedged aid
  | .resume => ¬ s.db.Stuck aid ∨ s.phase.window aid
  | _ => True

instance (aid : U) (s : System U) : (e : Event U) → Decidable (e.Safe aid s)
  | .crash => inferInstanceAs (Decidable (¬ _))
  | .resume => inferInstanceAs (Decidable (_ ∨ _))
  | .create .. | .start | .next | .throw _ | .announce | .processed _ | .executionFailed
  | .failTerminal _ | .due _ | .admitClaim _ | .select .. | .retain .. | .submitted | .pause | .inspect
  | .elsewhere _ => isTrue trivial

section

variable {s : System U} (hs : s.Sound h aid)
include hs

/-- A transaction of somebody else leaves the dispatcher where it is. -/
theorem System.Sound.outside (hplain : step.plain)
    (hwedged : (s.db.step h cadence step).Wedged aid → s.db.Wedged aid ∨ s.phase.window aid)
    (hactive : ∀ o, s.db.active aid = some o → o.state ≠ .pending →
      (s.db.step h cadence step).active aid = some o) {resumes : ℕ} :
    (⟨s.db.step h cadence step, s.phase, resumes⟩ : System U).Sound h aid := by
  have hdisciplined : step.Disciplined s.db := plain.disciplined hplain
  exact
    { consistent := step_consistent hs.consistent step hdisciplined.1
      exclusive := step_exclusive hs.consistent step hdisciplined hs.exclusive
      phase := hs.phase.outside (step_advances hs.consistent step hdisciplined.1) hwedged hactive }

theorem System.Sound.take (event : Event U) :
    (s.take h cadence (turn h aid s.db s.phase event)).Sound h aid := by
  cases hturn : turn h aid s.db s.phase event with
  | none => exact hs
  | some t =>
    obtain ⟨hdisciplined, hphase⟩ := turn_sound cadence hs.consistent hs.phase hturn
    obtain ⟨step?, phase⟩ := t
    cases step? with
    | none => exact ⟨hs.consistent, hs.exclusive, hphase⟩
    | some step =>
      have hstep := hdisciplined step rfl
      exact ⟨step_consistent hs.consistent step hstep.1,
        step_exclusive hs.consistent step hstep hs.exclusive, hphase⟩

/-- Everything but a resume that a person or another journal does to the rows. -/
theorem System.Sound.quiet (hplain : step.plain) (hdecides : ¬ step.Decides)
    (hresume : step ≠ .enabled aid true)
    (hactive : ∀ o, s.db.active aid = some o → o.state ≠ .pending →
      (s.db.step h cadence step).active aid = some o) :
    (⟨s.db.step h cadence step, s.phase, s.resumes⟩ : System U).Sound h aid :=
  hs.outside hplain
    (fun hnow ↦ .inl (step_wedged hs.consistent (plain.disciplined hplain).1 hdecides hresume hnow))
    hactive

theorem System.step_sound (hsafe : event.Safe aid s) :
    (s.step h cadence aid event).Sound h aid := by
  cases event with
  | create id room by_ revision targetRef now nextFire on =>
    exact hs.quiet rfl (by simp [Step.Decides]) (by simp) fun o ho _ ↦ create_active ho ..
  | crash => exact ⟨hs.consistent, hs.exclusive, hsafe⟩
  | pause =>
    exact hs.outside rfl (fun hnow ↦ absurd hnow pause_not_wedged)
      fun o ho hqueued ↦ enabled_active ho hqueued false
  | inspect =>
    simp only [System.step]
    split
    · exact hs
    · split
      · exact hs
      · exact ⟨hs.consistent, hs.exclusive, hs.phase⟩
  | resume =>
    simp only [System.step]
    split
    · exact hs
    have hplain : (enabled aid true).plain := rfl
    refine hs.outside hplain (fun hnow ↦ hsafe.elim (fun hstuck ↦ absurd ?_ hstuck) .inr)
      fun o ho hqueued ↦ enabled_active ho hqueued true
    exact step_stuck hs.consistent (plain.disciplined hplain).1 (by simp [Step.Decides]) hnow.2
  | elsewhere requests =>
    have hplain : (elsewhere requests).plain := rfl
    exact hs.quiet hplain (by simp [Step.Decides]) (by simp) fun o ho _ ↦ ho
  | _ => exact hs.take _

end

theorem System.init_sound : (System.init : System U).Sound h aid where
  consistent := init_consistent
  exclusive oid o ho := by simp [System.init, Db.init] at ho
  phase := by
    rintro ⟨henabled, -⟩
    cases henabled

theorem System.run_sound {events : List (Event U)}
    (hsafe : Along (System.step h cadence aid) (fun s e ↦ e.Safe aid s) .init events) :
    (run (System.step h cadence aid) .init events).Sound h aid :=
  run_preserves_along (fun s (e : Event U) ↦ e.Safe aid s) (fun s ↦ s.Sound h aid)
    (fun _ _ hs hsafe ↦ System.step_sound hs hsafe) System.init_sound hsafe

/-- An enabled activation waits on nothing or a queued, owned or linked row. -/
def Db.Works (db : Db U) (aid : U) : Prop :=
  ∀ a, db.activations.get aid = some a → a.enabled → ∀ oid, a.activeOccurrence = some oid →
    ∃ o, db.occurrences.get oid = some o ∧
      (o.state = .pending ∨ o.state = .admitting ∨ o.state = .linked)

theorem works_iff (hdb : db.Consistent h) : db.Works aid ↔ ¬ db.Wedged aid := by
  constructor
  · rintro hworks ⟨henabled, hstuck⟩
    obtain ⟨a, o, ha, hpointer, ho, hdead⟩ := stuck_iff.mp hstuck
    obtain ⟨b, hb, hon⟩ := enabled_iff.mp henabled
    obtain rfl := some.inj (ha.symm.trans hb)
    obtain ⟨q, hq, hstate⟩ := hworks a ha hon o.id hpointer
    obtain rfl := some.inj (ho.symm.trans hq)
    rcases hstate with hstate | hstate | hstate <;> simp [hstate, dead] at hdead
  · intro hwedged a ha hon oid hpointer
    obtain ⟨o, ho, -⟩ := hdb.active aid a oid ha hpointer
    obtain rfl := key_of_get ho
    refine ⟨o, ho, ?_⟩
    have hdead : ¬ o.state.dead := fun hdead ↦
      hwedged ⟨enabled_iff.mpr ⟨a, ha, hon⟩, stuck_iff.mpr ⟨a, o, ha, hpointer, ho, hdead⟩⟩
    cases hstate : o.state <;> simp [hstate, dead] at hdead ⊢

/-- Without a crash or a resume inside a handler's window the schedule works in every state after
recovery, those between the transactions of a handler apart. -/
theorem works_unless_handling (events : List (Event U))
    (hsafe : Along (System.step h cadence aid) (fun s e ↦ e.Safe aid s) .init events)
    (hrecovered : (run (System.step h cadence aid) .init events).phase.recovered) :
    (run (System.step h cadence aid) .init events).db.Works aid ↔
      ¬ ((run (System.step h cadence aid) .init events).phase.handling ∧
        (run (System.step h cadence aid) .init events).db.Enabled aid) := by
  have hs := System.run_sound hsafe
  set s := run (System.step h cadence aid) .init events
  rw [works_iff hs.consistent, not_iff_not]
  have hphase := hs.phase
  cases hcase : s.phase with
  | down | recovering todo | recoverBlock id todo => simp [hcase, recovered] at hrecovered
  | blocking row oid requested reason =>
    rw [hcase] at hphase
    simpa [handling, Db.Wedged] using fun _ ↦ hphase.2.stuck
  | clearing row oid =>
    rw [hcase] at hphase
    simpa [handling, Db.Wedged] using fun _ ↦ hphase.2.stuck
  | idle =>
    rw [hcase] at hphase
    simpa [handling, Phase.Sound] using hphase
  | ticking row | firing row | dispatching row =>
    rw [hcase] at hphase
    simpa [handling] using hphase.2
  | releasing row o =>
    rw [hcase] at hphase
    simpa [handling] using hphase.2.1
  | admitted row oid claim =>
    rw [hcase] at hphase
    simpa [handling] using fun hwedged : s.db.Wedged aid ↦ hphase.2.not_stuck hwedged.2
  | finishing row oid claim submitted requested reason =>
    rw [hcase] at hphase
    simpa [handling] using fun hwedged : s.db.Wedged aid ↦ hphase.2.1.not_stuck hwedged.2

/-- An admission fails and is cleared, the schedule is paused and resumed, the process restarts. -/
theorem works_unless_handling_example :
    (run (System.step .sequences (fun _ ↦ .interval 10 (by decide)) [1]) .init
      [.create [1] [2] [3] [4] [5] 0 100 true, .start, .next, .next, .next, .due 105, .admitClaim [9],
        .throw (some "policy-changed"), .next, .next, .next, .pause, .inspect, .resume, .crash,
        .start, .next, .next]).db.Works [1] ↔
    ¬ ((run (System.step .sequences (fun _ ↦ .interval 10 (by decide)) [1]) .init
      [.create [1] [2] [3] [4] [5] 0 100 true, .start, .next, .next, .next, .due 105, .admitClaim [9],
        .throw (some "policy-changed"), .next, .next, .next, .pause, .inspect, .resume, .crash,
        .start, .next, .next]).phase.handling ∧
      (run (System.step .sequences (fun _ ↦ .interval 10 (by decide)) [1]) .init
        [.create [1] [2] [3] [4] [5] 0 100 true, .start, .next, .next, .next, .due 105, .admitClaim [9],
          .throw (some "policy-changed"), .next, .next, .next, .pause, .inspect, .resume, .crash,
          .start, .next, .next]).db.Enabled [1]) :=
  works_unless_handling _ (by decide) (by decide)

/-- The process crashes between `finish-admission!` and `block!`. -/
def crashExample : List (Event (List ℤ)) :=
  [.create [1] [2] [3] [4] [5] 0 100 true, .start, .next, .next, .next, .due 105, .admitClaim [9],
    .throw (some "policy-changed"), .next, .crash, .start, .next]

/-- The schedule waits on a blocked occurrence, and the next slot is an overlap. -/
theorem crash_wedges : (∃ events : List (Event (List ℤ)),
      (run (System.step .sequences (fun _ ↦ .interval 10 (by decide)) [1]) .init
        events).phase.recovered ∧
      ¬ (run (System.step .sequences (fun _ ↦ .interval 10 (by decide)) [1]) .init
        events).phase.handling ∧
      ¬ (run (System.step .sequences (fun _ ↦ .interval 10 (by decide)) [1]) .init
        events).db.Works [1]) ∧
    ((run (System.step .sequences (fun _ ↦ .interval 10 (by decide)) [1]) .init
      (crashExample ++ [.next, .next, .due 125])).db.recorded [1]).map
        (fun o ↦ (o.state, o.reason)) =
      [(.skipped, some .overlap), (.blocked, some (.type "policy-changed"))] := by
  refine ⟨⟨crashExample, by decide, by decide, fun hworks ↦ ?_⟩, by decide⟩
  obtain ⟨o, ho, hstate⟩ := hworks _ rfl rfl _ rfl
  obtain rfl := some.inj ho
  revert hstate
  decide

end Simmis.Schedules
