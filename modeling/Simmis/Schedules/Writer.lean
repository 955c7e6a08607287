import Simmis.Library.Runs
import Simmis.Schedules.Batches

/-!
# The serialized schedule writer

One step is one transaction of any caller. The cadence of the target that `due-tx` is given is a
function of the revision. `tx_outcome` says once what a step can do; later modules use nothing else
about the transaction functions.
-/

namespace Simmis.Schedules

open Except Table Option Db

variable {U : Type} [DecidableEq U]

inductive Step (U : Type) [DecidableEq U] where
  | create (id room by_ revision targetRef : U) (now nextFire : ℤ) (enabled : Bool)
  | enabled (id : U) (enabled : Bool)
  | due (id revision : U) (now : ℤ)
  | admitClaim (oid claim : U)
  | skipBatch (expected : Identity U) (oid claim : U) (reason : Reason)
  | selectInput (oid claim inputId : U) (emptyInput : Bool)
  | retainInput (oid claim inputId revision ref : U)
  | retainOwnedInput (oid claim : U) (identity : InputIdentity U) (revision ref : U)
  | interruptOwned (expected : Identity U) (oid claim : U) (reason : Reason)
  | finish (oid claim : U) (state : State) (request : Option U) (reason : Option Reason)
  | clearActive (id oid : U)
  | announce (oid : U)
  | block (id : U) (reason : Reason)
  | processed (oid : U) (settled : Bool)
  | failTerminal (id : U) (expected : ResumeIdentity U) (occurrence : FailureFields U)
      (outcome : Outcome U)
  | retention (forward : Option U) (ready : Except Refusal Unit) (value : BindingValue U) (ref : U)
  | request (forward : Option U) (ready : Except Refusal Unit) (retained : Retained U) (rid : U)
  | withdraw (forward : Option U) (retained : Retained U)
  /-- The request journal has moved on. -/
  | elsewhere (requests : Table (Request.id (U := U)))

/-- The reasons that `interrupt-owned!` lets through. -/
def interruptReasons : List Reason :=
  [.interrupted, .restart, .ownedDispatchUnavailable, .periodCapacity, .periodByteLimit,
    .sourceScanLimit, .unsupportedOriginal]

def Step.tx (h : Hasch U) (cadence : U → Cadence) (db : Db U) : Step U → Except Refusal (Tx U)
  | .create id room by_ revision targetRef now nextFire on =>
    createTx db (Schedules.create id room by_ revision targetRef now nextFire on)
  | .enabled id on => enabledTx db id on
  | .due id revision now => dueTx h db id revision (cadence revision) now
  | .admitClaim oid claim => admitTx db oid claim
  | .skipBatch expected oid claim reason => skipBatchTx db expected oid claim reason
  | .selectInput oid claim inputId emptyInput => selectInputTx db oid claim inputId emptyInput
  | .retainInput oid claim inputId revision ref => retainInputTx db oid claim inputId revision ref
  | .retainOwnedInput oid claim identity revision ref =>
    retainOwnedInputTx db oid claim identity revision ref
  | .interruptOwned expected oid claim reason =>
    if reason ∈ interruptReasons then interruptOwnedTx h db expected oid claim reason
    else .error .conflict
  | .finish oid _ state rid reason => finishAdmission db oid state rid reason
  | .clearActive id oid => clearActiveTx db id oid
  | .announce oid => markAnnounced db oid
  | .block id reason => Schedules.block db id reason
  | .processed oid settled => processedInputTx db oid settled
  | .failTerminal id expected occurrence outcome => failTerminalTx h db id expected occurrence outcome
  | .retention forward ready value ref => retentionTx h db forward ready value ref
  | .request forward ready retained rid => requestTx h db forward ready retained rid
  | .withdraw forward retained => withdrawUnlinkedTx h db forward retained
  | .elsewhere _ => .ok []

def Db.step (h : Hasch U) (cadence : U → Cadence) (db : Db U) (step : Step U) : Db U :=
  match step with
  | .elsewhere requests => { db with requests := requests }
  | step =>
    match step.tx h cadence db with
    | .ok writes => db.apply writes
    | .error _ => db

/-- `finish-admission!` is called by a holder of the claim, with a reason of its own. -/
def Step.Owned (db : Db U) : Step U → Prop
  | .finish oid claim state _ reason =>
    (db.occurrences.get oid).bind (·.claim) = some claim ∧
      (state = .linked ∨ state = .interrupted ∨ state = .blocked) ∧ reason ≠ some .coalesced
  | _ => True

/-- A patch of an activation that leaves its identity and its cursor alone. -/
structure Activation.Tuned (a a' : Activation U) : Prop where
  id : a'.id = a.id
  revision : a'.revision = a.revision
  nextFire : a'.nextFire = a.nextFire

/-- Not yet decided: queued, or owned by a dispatcher that has not finished. -/
def Occurrence.Open (o : Occurrence U) : Prop := o.state = .pending ∨ o.state = .admitting

instance (o : Occurrence U) : Decidable o.Open := inferInstanceAs (Decidable (_ ∨ _))

/-- What a patch of an occurrence leaves alone, whoever makes it. -/
structure Occurrence.Same (o o' : Occurrence U) : Prop where
  id : o'.id = o.id
  activation : o'.activation = o.activation
  revision : o'.revision = o.revision
  intendedAt : o'.intendedAt = o.intendedAt
  coalesced : o'.coalesced = o.coalesced
  inputId : Kept o.inputId o'.inputId
  inputRef : Kept o.inputRef o'.inputRef
  inputRevision : Kept o.inputRevision o'.inputRevision
  retained : o.inputRef.isSome = o.inputRevision.isSome →
    o'.inputRef.isSome = o'.inputRevision.isSome

/-- A patch that does not decide the occurrence. -/
structure Occurrence.Noted (o o' : Occurrence U) : Prop extends Occurrence.Same o o' where
  state : o'.state = o.state
  claim : o'.claim = o.claim
  reason : o'.reason = o.reason

/-- A queued occurrence is skipped, any other has been claimed. -/
structure Occurrence.Ended (o o' : Occurrence U) : Prop extends Occurrence.Same o o' where
  claim : o'.claim = o.claim
  reason : o'.reason ≠ some .coalesced
  closed : ¬ o'.Open
  before : o.state = .pending ∧ o'.state = .skipped ∨ o.claim.isSome

section

omit [DecidableEq U]

theorem Occurrence.admitClaim_id (claim : U) (o : Occurrence U) : (o.admitClaim claim).id = o.id := rfl

theorem Activation.release_id (a : Activation U) : a.release.id = a.id := rfl

theorem Occurrence.skip_id (reason : Reason) (input : Option U) (o : Occurrence U) :
    (o.skip reason input).id = o.id := rfl

theorem Activation.switch_id (on : Bool) (a : Activation U) : (a.switch on).id = a.id := rfl

theorem Activation.pause_id (a : Activation U) : a.pause.id = a.id := rfl

theorem Activation.hold_id (reason : Reason) (a : Activation U) : (a.hold reason).id = a.id := rfl

theorem Occurrence.finish_id (state : State) (request : Option U) (reason : Option Reason)
    (o : Occurrence U) : (o.finish state request reason).id = o.id := rfl

theorem supersede_id (o : Occurrence U) : (supersede o).id = o.id := rfl

theorem fired_activation (oid id revision : U) (slot : Slot) (now coalesced : ℤ) (busy : Bool) :
    (fired oid id revision slot now coalesced busy).activation = id := rfl

theorem advance_id (oid : U) (slot : Slot) (busy : Bool) (a : Activation U) :
    (advance oid slot busy a).id = a.id := rfl

end

/-- The rows after `due-tx` has recorded a slot and moved the cursor past it. -/
def Db.record (h : Hasch U) (db : Db U) (a : Activation U) (slot : Slot) (now coalesced : ℤ)
    (busy : Bool) : Db U :=
  db.apply
    [.occur (fired (h.occurrence a.id a.revision slot.intended) a.id a.revision slot now coalesced
        busy),
      .activation a.id (advance (h.occurrence a.id a.revision slot.intended) slot busy)]

theorem Db.record_occurrences (h : Hasch U) (db : Db U) (a : Activation U) (slot : Slot)
    (now coalesced : ℤ) (busy : Bool) (x : U) :
    (db.record h a slot now coalesced busy).occurrences.get x =
      if x = h.occurrence a.id a.revision slot.intended then
        some (fired (h.occurrence a.id a.revision slot.intended) a.id a.revision slot now coalesced
          busy)
      else db.occurrences.get x :=
  get_write_occur db _ x

variable {a : Activation U}

theorem Db.record_activations (h : Hasch U) {db : Db U}
    (ha : db.activations.get a.id = some a) (slot : Slot) (now coalesced : ℤ) (busy : Bool) (x : U) :
    (db.record h a slot now coalesced busy).activations.get x =
      if x = a.id then some (advance (h.occurrence a.id a.revision slot.intended) slot busy a)
      else db.activations.get x := by
  rw [record, apply_cons, apply_cons, apply_nil,
    get_write_activation (advance_id _ slot busy), write_occur_activations, ha]
  rfl

/-- The steps that decide an occurrence. -/
def Step.Decides : Step U → Prop
  | .enabled _ on => on = false
  | .skipBatch .. | .selectInput .. | .interruptOwned .. | .finish .. | .withdraw .. => True
  | _ => False

/-- One change of a transaction, with what the transaction has checked. -/
inductive Change (h : Hasch U) (cadence : U → Cadence) (step : Step U) (db : Db U) : Db U → Prop
  | activate (id room by_ revision targetRef : U) (now nextFire : ℤ) (on : Bool)
    (hstep : step = .create id room by_ revision targetRef now nextFire on)
    (hnew : db.activations.get id = none) :
    Change h cadence step db (db.write (.activate
      (create id room by_ revision targetRef now nextFire on)))
  | tune (a : Activation U) (fields : Activation U → Activation U)
    (ha : db.activations.get a.id = some a) (hfields : ∀ r, Activation.Tuned r (fields r))
    (hactive : (fields a).activeOccurrence = a.activeOccurrence)
    (henabled : (fields a).enabled → a.enabled ∨ step = .enabled a.id true) :
    Change h cadence step db (db.write (.activation a.id fields))
  | release (a : Activation U) (oid : U) (fields : Activation U → Activation U)
    (ha : db.activations.get a.id = some a) (hfields : ∀ r, Activation.Tuned r (fields r))
    (hactive : a.activeOccurrence = some oid) (hnone : (fields a).activeOccurrence = none)
    (hclosed : step = .clearActive a.id oid ∨ ∀ o, db.occurrences.get oid = some o → ¬ o.Open)
    (henabled : (fields a).enabled → a.enabled) :
    Change h cadence step db (db.write (.activation a.id fields))
  | note (o : Occurrence U) (fields : Occurrence U → Occurrence U)
    (ho : db.occurrences.get o.id = some o) (hid : ∀ r, (fields r).id = r.id)
    (hnoted : o.Noted (fields o)) : Change h cadence step db (db.write (.occurrence o.id fields))
  | finish (o : Occurrence U) (fields : Occurrence U → Occurrence U)
    (ho : db.occurrences.get o.id = some o) (hid : ∀ r, (fields r).id = r.id)
    (hended : o.Ended (fields o)) (hdecides : step.Decides) :
    Change h cadence step db (db.write (.occurrence o.id fields))
  | admitClaim (o : Occurrence U) (a : Activation U) (claim : U) (hstep : step = .admitClaim o.id claim)
    (ho : db.occurrences.get o.id = some o) (ha : db.activations.get o.activation = some a)
    (hstate : o.state = .pending) (henabled : a.enabled)
    (hactive : a.activeOccurrence = some o.id) :
    Change h cadence step db (db.write (.occurrence o.id (Occurrence.admitClaim claim)))
  | fire (a : Activation U) (now : ℤ) (slot : Slot) (busy : Bool)
    (hstep : step = .due a.id a.revision now) (ha : db.activations.get a.id = some a)
    (hslot : dueSlot (cadence a.revision) a.nextFire now = .ok (some slot))
    (hprior : ∀ prior, a.activeOccurrence.bind db.occurrences.get = some prior →
      prior.state ≠ .pending)
    (hbusy : busy = a.activeOccurrence.isSome) :
    Change h cadence step db (db.record h a slot now slot.coalesced busy)
  | coalesce (a : Activation U) (prior : Occurrence U) (now : ℤ) (slot : Slot)
    (hstep : step = .due a.id a.revision now) (ha : db.activations.get a.id = some a)
    (hslot : dueSlot (cadence a.revision) a.nextFire now = .ok (some slot))
    (hactive : a.activeOccurrence = some prior.id)
    (hprior : db.occurrences.get prior.id = some prior) (hstate : prior.state = .pending) :
    Change h cadence step db ((db.record h a slot now (slot.coalesced + 1) false).write
      (.occurrence prior.id supersede))
  | requests (requests : Table (Request.id (U := U))) :
    Change h cadence step db { db with requests := requests }

/-- The changes of one transaction, one after the other. -/
abbrev Changes (h : Hasch U) (cadence : U → Cadence) (step : Step U) : Db U → Db U → Prop :=
  Relation.ReflTransGen (Change h cadence step)

variable {h : Hasch U} {cadence : U → Cadence} {step : Step U} {db : Db U}

theorem Change.once {db' : Db U} (hchange : Change h cadence step db db') :
    Changes h cadence step db db' := .single hchange

theorem Change.andThen {a b c : Db U} (h₁ : Change h cadence step a b)
    (h₂ : Changes h cadence step b c) : Changes h cadence step a c := .head h₁ h₂

section

omit [DecidableEq U]

theorem Occurrence.Same.refl (o : Occurrence U) : o.Same o :=
  ⟨rfl, rfl, rfl, rfl, rfl, .refl _, .refl _, .refl _, fun h ↦ h⟩

theorem Occurrence.Same.trans {a b c : Occurrence U} (h₁ : a.Same b) (h₂ : b.Same c) : a.Same c where
  id := h₂.id.trans h₁.id
  activation := h₂.activation.trans h₁.activation
  revision := h₂.revision.trans h₁.revision
  intendedAt := h₂.intendedAt.trans h₁.intendedAt
  coalesced := h₂.coalesced.trans h₁.coalesced
  inputId := h₁.inputId.trans h₂.inputId
  inputRef := h₁.inputRef.trans h₂.inputRef
  inputRevision := h₁.inputRevision.trans h₂.inputRevision
  retained h := h₂.retained (h₁.retained h)

theorem Occurrence.Noted.refl (o : Occurrence U) : o.Noted o :=
  { Occurrence.Same.refl o with state := rfl, claim := rfl, reason := rfl }

end

variable {o : Occurrence U}

variable {fields : Occurrence U → Occurrence U}

/-- An occurrence that was just decided is no longer open. -/
theorem closed_of_write (ho : db.occurrences.get o.id = some o) (hid : ∀ r, (fields r).id = r.id)
    (hclosed : ¬ (fields o).Open) (q : Occurrence U)
    (hq : (db.write (.occurrence o.id fields)).occurrences.get o.id = some q) : ¬ q.Open := by
  rw [get_write_occurrence hid, if_pos rfl, ho] at hq
  exact some.inj hq ▸ hclosed

theorem note_changes {oid : U}
    (ho : db.occurrences.get oid = some o) (hid : ∀ r, (fields r).id = r.id)
    (hnoted : o.Noted (fields o)) :
    Changes h cadence step db (db.apply [.occurrence oid fields]) := by
  obtain rfl := key_of_get ho
  exact (Change.note o fields ho hid hnoted).once

variable {id : U}

/-- An occurrence is decided, and its activation let go. -/
theorem finish_release (hdecides : step.Decides) {oid : U} {freed : Activation U → Activation U}
    (ho : db.occurrences.get oid = some o) (ha : db.activations.get id = some a)
    (hid : ∀ r, (fields r).id = r.id) (hended : o.Ended (fields o))
    (hfreed : ∀ r, Activation.Tuned r (freed r)) (hactive : a.activeOccurrence = some oid)
    (hnone : (freed a).activeOccurrence = none) (henabled : (freed a).enabled → a.enabled) :
    Changes h cadence step db (db.apply [.occurrence oid fields, .activation id freed]) := by
  obtain rfl := key_of_get ho
  obtain rfl := key_of_get ha
  refine (Change.finish o fields ho hid hended hdecides).andThen (Change.once ?_)
  exact .release a o.id freed ha hfreed hactive hnone
    (.inr (closed_of_write ho hid hended.closed)) henabled

theorem long_ok {z w : ℤ} (hok : long z = .ok w) : w = z := by
  unfold long at hok
  split at hok
  · exact (ok.inj hok).symm
  · simp at hok

variable {now : ℤ} {on : Bool} {revision : U} {writes : Tx U}

theorem createTx_changes {room by_ targetRef : U} {nextFire : ℤ}
    (hok : createTx db (create id room by_ revision targetRef now nextFire on) = .ok writes) :
    Changes h cadence (.create id room by_ revision targetRef now nextFire on) db
      (db.apply writes) := by
  unfold createTx at hok
  split at hok
  · split at hok
    · obtain rfl := ok.inj hok
      exact .refl
    · simp at hok
  · next hnew =>
    split at hok
    · simp at hok
    · obtain rfl := ok.inj hok
      exact (Change.activate id room by_ revision targetRef now nextFire on rfl hnew).once

/-- Only the enabled flag and its reason. -/
theorem switch_change {row : Activation U} (hrow : db.activations.get id = some row) :
    Change h cadence (.enabled id on) db (db.write (.activation id (Activation.switch on))) := by
  obtain rfl := key_of_get hrow
  refine .tune row _ hrow (fun _ ↦ ⟨rfl, rfl, rfl⟩) rfl fun hon ↦ .inr ?_
  rw [show on = true from hon]

theorem enabledTx_changes (hok : enabledTx db id on = .ok writes) :
    Changes h cadence (.enabled id on) db (db.apply writes) := by
  unfold enabledTx at hok
  split at hok
  · simp at hok
  next row hrow =>
  split at hok
  · next o ho =>
    split at hok
    · next hpending =>
      obtain rfl := ok.inj hok
      obtain ⟨oid, hactive, ho⟩ := bind_eq_some_iff.mp ho
      obtain rfl := key_of_get ho
      exact finish_release (by exact hpending.1) ho hrow (fun _ ↦ rfl)
        { Occurrence.Same.refl o with
          claim := rfl, reason := by simp, closed := by simp [Occurrence.Open],
          before := .inl ⟨hpending.2, rfl⟩ }
        (fun _ ↦ ⟨rfl, rfl, rfl⟩) hactive rfl (by simp [Activation.pause])
    · obtain rfl := ok.inj hok
      exact (switch_change hrow).once
  · obtain rfl := ok.inj hok
    exact (switch_change hrow).once

/-- A due step does nothing, or records one slot. -/
theorem dueTx_change (hok : dueTx h db id revision (cadence revision) now = .ok writes) :
    writes = [] ∨ Change h cadence (.due id revision now) db (db.apply writes) := by
  unfold dueTx at hok
  split at hok
  · exact .inl (ok.inj hok).symm
  next row hrow =>
  obtain rfl := key_of_get hrow
  split at hok
  · next hdue =>
    obtain ⟨henabled, rfl⟩ := hdue
    obtain ⟨slot, hslot, hok⟩ := bind_eq_ok.mp hok
    split at hok
    · exact .inl (ok.inj hok).symm
    next slot =>
    split at hok
    · next prior hprior =>
      obtain ⟨oid, hactive, hget⟩ := bind_eq_some_iff.mp hprior
      split at hok
      · next hpending =>
        obtain ⟨coalesced, hlong, hok⟩ := bind_eq_ok.mp hok
        obtain rfl := ok.inj hok
        obtain rfl := key_of_get hget
        obtain rfl := long_ok hlong
        exact .inr (.coalesce row prior now slot rfl hrow hslot hactive hget hpending)
      · next hpending =>
        obtain rfl := ok.inj hok
        refine .inr (.fire row now slot true rfl hrow hslot (fun q hq ↦ ?_) (by simp [hactive]))
        rw [hprior] at hq
        exact some.inj hq ▸ hpending
    · next hprior =>
      obtain rfl := ok.inj hok
      refine .inr (.fire row now slot _ rfl hrow hslot (fun q hq ↦ ?_) rfl)
      rw [hprior] at hq
      cases hq
  · exact .inl (ok.inj hok).symm

theorem dueTx_changes (hok : dueTx h db id revision (cadence revision) now = .ok writes) :
    Changes h cadence (.due id revision now) db (db.apply writes) := by
  rcases dueTx_change hok with rfl | hchange
  · exact .refl
  · exact hchange.once

variable {oid : U}

variable {claim : U}

theorem admitTx_changes (hok : admitTx db oid claim = .ok writes) :
    Changes h cadence (.admitClaim oid claim) db (db.apply writes) := by
  unfold admitTx at hok
  split at hok
  · obtain rfl := ok.inj hok
    exact .refl
  next o ho =>
  obtain rfl := key_of_get ho
  split at hok
  · obtain rfl := ok.inj hok
    exact .refl
  next a ha =>
  split at hok
  · next hadmissible =>
    obtain rfl := ok.inj hok
    exact (Change.admitClaim o a claim rfl ho ha hadmissible.1 hadmissible.2.1 hadmissible.2.2).once
  · obtain rfl := ok.inj hok
    exact .refl

/-- An admission that a claim still owns. -/
structure OwnedBy (db : Db U) (oid claim : U) (o : Occurrence U) (a : Activation U) : Prop where
  occurrence : db.occurrences.get oid = some o
  activation : db.activations.get a.id = some a
  home : o.activation = a.id
  claim : o.claim = some claim
  state : o.state = .admitting
  active : a.activeOccurrence = some oid

theorem claimedOccurrence_ok {rows : Occurrence U × Activation U}
    (hok : claimedOccurrence db oid claim = .ok rows) : OwnedBy db oid claim rows.1 rows.2 := by
  unfold claimedOccurrence at hok
  split at hok
  · simp at hok
  next o ho =>
  split at hok
  · simp at hok
  next a ha =>
  split at hok
  · next hclaimed =>
    obtain rfl := ok.inj hok
    have hhome := key_of_get ha
    exact ⟨ho, hhome ▸ ha, hhome.symm, hclaimed.1, hclaimed.2.1, hclaimed.2.2.2⟩
  · simp at hok

variable {reason : Reason}

/-- A skip of an owned admission releases its slot. -/
theorem skip_changes (hdecides : step.Decides) {input : Option U}
    (howned : OwnedBy db oid claim o a) (hreason : reason ≠ .coalesced)
    (hinput : Kept o.inputId (input.orElse fun _ ↦ o.inputId)) :
    Changes h cadence step db (db.apply (skip a.id oid reason input)) := by
  exact finish_release hdecides howned.occurrence howned.activation (fun _ ↦ rfl)
    { Occurrence.Same.refl o with
      inputId := hinput
      claim := rfl, reason := by simpa [Occurrence.skip] using hreason,
      closed := by simp [Occurrence.Open, Occurrence.skip],
      before := .inr (by simp [howned.claim]) }
    (fun _ ↦ ⟨rfl, rfl, rfl⟩) howned.active rfl id

variable {expected : Identity U}

theorem skipBatchTx_ok (hok : skipBatchTx db expected oid claim reason = .ok writes) :
    ∃ o a, OwnedBy db oid claim o a ∧ reason ≠ .coalesced ∧ writes = skip a.id oid reason none := by
  obtain ⟨hreason, hok⟩ := require_bind_eq_ok.mp hok
  obtain ⟨⟨o, a⟩, hclaimed, hok⟩ := bind_eq_ok.mp hok
  obtain ⟨-, hok⟩ := require_bind_eq_ok.mp hok
  refine ⟨o, a, claimedOccurrence_ok hclaimed, ?_, (ok.inj hok).symm⟩
  rcases hreason with rfl | rfl | rfl <;> simp

theorem skipBatchTx_changes (hok : skipBatchTx db expected oid claim reason = .ok writes) :
    Changes h cadence (.skipBatch expected oid claim reason) db (db.apply writes) := by
  obtain ⟨o, a, howned, hreason, rfl⟩ := skipBatchTx_ok hok
  exact skip_changes (by trivial) howned hreason (by simpa using Kept.refl _)

variable {inputId : U}

theorem selectInputTx_ok {emptyInput : Bool}
    (hok : selectInputTx db oid claim inputId emptyInput = .ok writes) :
    ∃ o a, OwnedBy db oid claim o a ∧ Kept o.inputId (some inputId) ∧
      ((∃ reason, reason ≠ .coalesced ∧ writes = skip a.id oid reason (some inputId)) ∨
        writes = [.occurrence oid fun o ↦ { o with inputId := some inputId }]) := by
  obtain ⟨⟨o, a⟩, hclaimed, hok⟩ := bind_eq_ok.mp hok
  obtain ⟨hselected, hok⟩ := require_bind_eq_ok.mp hok
  have hkept : Kept o.inputId (some inputId) := by
    rcases hselected with hnone | hsome
    · rw [hnone]
      exact .of_none _
    · rw [hsome]
      exact .refl _
  refine ⟨o, a, claimedOccurrence_ok hclaimed, hkept, ?_⟩
  split at hok
  · exact .inl ⟨.unchanged, by simp, (ok.inj hok).symm⟩
  · split at hok
    · exact .inl ⟨.noInputs, by simp, (ok.inj hok).symm⟩
    · exact .inr (ok.inj hok).symm

theorem selectInputTx_changes {emptyInput : Bool}
    (hok : selectInputTx db oid claim inputId emptyInput = .ok writes) :
    Changes h cadence (.selectInput oid claim inputId emptyInput) db (db.apply writes) := by
  obtain ⟨o, a, howned, hkept, ⟨reason, hreason, rfl⟩ | rfl⟩ := selectInputTx_ok hok
  · exact skip_changes (by trivial) howned hreason hkept
  · exact note_changes howned.occurrence (fun _ ↦ rfl)
      { Occurrence.Noted.refl o with inputId := hkept }

variable {ref : U}

theorem retainInputTx_ok (hok : retainInputTx db oid claim inputId revision ref = .ok writes) :
    ∃ o a, OwnedBy db oid claim o a ∧ (writes = [] ∨ o.inputRef = none ∧
      writes = [.occurrence oid fun o ↦
        { o with inputRef := some ref, inputRevision := some revision }]) := by
  obtain ⟨⟨o, a⟩, hclaimed, hok⟩ := bind_eq_ok.mp hok
  obtain ⟨-, hok⟩ := require_bind_eq_ok.mp hok
  refine ⟨o, a, claimedOccurrence_ok hclaimed, ?_⟩
  split at hok
  · obtain ⟨-, hok⟩ := require_bind_eq_ok.mp hok
    exact .inl (ok.inj hok).symm
  · next href => exact .inr ⟨by simpa using href, (ok.inj hok).symm⟩

/-- The reference and the revision of retained inputs are recorded together. -/
def Db.Paired (db : Db U) : Prop :=
  ∀ id o, db.occurrences.get id = some o → o.inputRef.isSome = o.inputRevision.isSome

theorem retainInputTx_changes (hpaired : db.Paired) (hok : retainInputTx db oid claim inputId revision ref = .ok writes) :
    Changes h cadence step db (db.apply writes) := by
  obtain ⟨o, a, howned, rfl | ⟨href, rfl⟩⟩ := retainInputTx_ok hok
  · exact .refl
  · have hrevision : o.inputRevision = none := by
      simpa [href] using hpaired oid o howned.occurrence
    exact note_changes howned.occurrence (fun _ ↦ rfl)
      { Occurrence.Noted.refl o with
        inputRef := by rw [href]; exact .of_none _,
        inputRevision := by rw [hrevision]; exact .of_none _, retained := fun _ ↦ rfl }

theorem retainOwnedInputTx_ok {identity : InputIdentity U}
    (hok : retainOwnedInputTx db oid claim identity revision ref = .ok writes) :
    retainInputTx db oid claim identity.inputId revision ref = .ok writes := by
  obtain ⟨_, -, hok⟩ := bind_eq_ok.mp hok
  exact (require_bind_eq_ok.mp hok).2

theorem interruptOwnedTx_ok (hok : interruptOwnedTx h db expected oid claim reason = .ok writes) :
    writes = [] ∨ ∃ o a, OwnedBy db oid claim o a ∧
      ∃ fields : Activation U → Activation U, (∀ r, Activation.Tuned r (fields r)) ∧
        (∀ r, (fields r).activeOccurrence = r.activeOccurrence ∧ (fields r).enabled = false) ∧
        (writes = [.activation a.id fields] ∨ writes = [.occurrence oid fun o ↦
          { o with state := .interrupted, reason := some reason }, .activation a.id fields]) := by
  unfold interruptOwnedTx at hok
  split at hok
  · next o a ho ha =>
    split at hok
    · next hguard =>
      obtain ⟨-, hactive, hhome, -, hstate, hclaim⟩ := hguard
      have howned : OwnedBy db oid claim o a :=
        ⟨ho, (key_of_get ha).symm ▸ ha, hhome.symm, hclaim, hstate, hactive⟩
      dsimp only at hok
      split at hok
      · refine .inr ⟨o, a, howned, _, ?_, ?_, .inl (ok.inj hok).symm⟩
        · exact fun _ ↦ ⟨rfl, rfl, rfl⟩
        · exact fun _ ↦ ⟨rfl, rfl⟩
      · split at hok
        · exact .inl (ok.inj hok).symm
        · refine .inr ⟨o, a, howned, _, ?_, ?_, .inr (ok.inj hok).symm⟩
          · exact fun _ ↦ ⟨rfl, rfl, rfl⟩
          · exact fun _ ↦ ⟨rfl, rfl⟩
    · exact .inl (ok.inj hok).symm
  · exact .inl (ok.inj hok).symm

theorem interruptOwnedTx_changes (hreason : reason ≠ .coalesced)
    (hok : interruptOwnedTx h db expected oid claim reason = .ok writes) :
    Changes h cadence (.interruptOwned expected oid claim reason) db (db.apply writes) := by
  obtain rfl | ⟨o, a, howned, fields, htuned, hblocked, rfl | rfl⟩ := interruptOwnedTx_ok hok
  · exact .refl
  · exact Change.once (.tune a fields howned.activation htuned (hblocked a).1
      (by simp [(hblocked a).2]))
  · obtain rfl := key_of_get howned.occurrence
    have hinterrupted : Change h cadence (.interruptOwned expected o.id claim reason) db
        (db.write (.occurrence o.id fun o ↦ { o with state := .interrupted, reason := some reason })) :=
      .finish o _ howned.occurrence (fun _ ↦ rfl)
        { Occurrence.Same.refl o with
          claim := rfl, reason := by simpa using hreason, closed := by simp [Occurrence.Open],
          before := .inr (by simp [howned.claim]) }
        trivial
    refine hinterrupted.andThen (Change.once ?_)
    exact .tune a fields howned.activation htuned (hblocked a).1 (by simp [(hblocked a).2])

theorem finishAdmission_changes {state : State} {request : Option U} {reason : Option Reason}
    (howned : (Step.finish oid claim state request reason).Owned db)
    (hok : finishAdmission db oid state request reason = .ok writes) (hdb : ∀ o,
      db.occurrences.get oid = some o → o.claim.isSome → o.reason ≠ some .coalesced) :
    Changes h cadence (.finish oid claim state request reason) db (db.apply writes) := by
  unfold finishAdmission at hok
  split at hok
  · simp at hok
  next o ho =>
  obtain rfl := ok.inj hok
  obtain rfl := key_of_get ho
  obtain ⟨hclaim, hstate, hreason⟩ := howned
  have hclaim : o.claim.isSome := by simpa [ho] using isSome_of_eq_some hclaim
  refine Change.once (.finish o _ ho (fun _ ↦ rfl) ?_ trivial)
  refine
    { Occurrence.Same.refl o with claim := rfl, reason := ?_, closed := ?_, before := .inr hclaim }
  · cases reason with
    | none => simpa [Occurrence.finish] using hdb o ho hclaim
    | some reason => simpa [Occurrence.finish] using hreason
  · rcases hstate with rfl | rfl | rfl <;> simp [Occurrence.Open, Occurrence.finish]

theorem clearActiveTx_ok (hok : clearActiveTx db id oid = .ok writes) :
    writes = [] ∨ ∃ a, db.activations.get a.id = some a ∧ a.id = id ∧
      a.activeOccurrence = some oid ∧ writes = [.activation a.id Activation.release] := by
  unfold clearActiveTx at hok
  split at hok
  · exact .inl (ok.inj hok).symm
  next row hrow =>
  obtain rfl := key_of_get hrow
  split at hok
  · next hactive => exact .inr ⟨row, hrow, rfl, hactive, (ok.inj hok).symm⟩
  · exact .inl (ok.inj hok).symm

theorem clearActiveTx_changes (hok : clearActiveTx db id oid = .ok writes) :
    Changes h cadence (.clearActive id oid) db (db.apply writes) := by
  obtain rfl | ⟨a, ha, rfl, hactive, rfl⟩ := clearActiveTx_ok hok
  · exact .refl
  · exact Change.once (.release a oid _ ha (fun _ ↦ ⟨rfl, rfl, rfl⟩) hactive rfl (.inl rfl) id)

theorem markAnnounced_changes (hok : markAnnounced db oid = .ok writes) :
    Changes h cadence step db (db.apply writes) := by
  unfold markAnnounced at hok
  split at hok
  · simp at hok
  next o ho =>
  obtain rfl := ok.inj hok
  exact note_changes ho (fun _ ↦ rfl) { Occurrence.Noted.refl o with }

theorem block_changes (hok : block db id reason = .ok writes) :
    Changes h cadence step db (db.apply writes) := by
  unfold block at hok
  split at hok
  · simp at hok
  next row hrow =>
  obtain rfl := ok.inj hok
  obtain rfl := key_of_get hrow
  exact Change.once (.tune row _ hrow (fun _ ↦ ⟨rfl, rfl, rfl⟩) rfl (by simp [Activation.hold]))

theorem processedInputTx_changes {settled : Bool}
    (hok : processedInputTx db oid settled = .ok writes) :
    Changes h cadence step db (db.apply writes) := by
  unfold processedInputTx at hok
  split at hok
  · obtain rfl := ok.inj hok
    exact .refl
  split at hok
  · obtain rfl := ok.inj hok
    exact .refl
  next a ha =>
  split at hok
  · split at hok
    · obtain rfl := ok.inj hok
      exact Change.once (.tune a _ ((key_of_get ha).symm ▸ ha) (fun _ ↦ ⟨rfl, rfl, rfl⟩) rfl .inl)
    · simp at hok
  · obtain rfl := ok.inj hok
    exact .refl

theorem failTerminalTx_changes {expected : ResumeIdentity U} {occurrence : FailureFields U}
    {outcome : Outcome U} (hok : failTerminalTx h db id expected occurrence outcome = .ok writes) :
    Changes h cadence step db (db.apply writes) := by
  unfold failTerminalTx at hok
  dsimp only at hok
  split at hok
  · next row current hrow hcurrent =>
    split at hok
    · simp at hok
    next request hrequest =>
    obtain ⟨binding, -, hok⟩ := bind_eq_ok.mp hok
    obtain ⟨hguard, hok⟩ := require_bind_eq_ok.mp hok
    split at hok
    · obtain rfl := ok.inj hok
      exact .refl
    obtain ⟨hactive, hok⟩ := require_bind_eq_ok.mp hok
    obtain rfl := ok.inj hok
    obtain rfl := key_of_get hrow
    have hid := key_of_get hcurrent
    rw [← hid] at hcurrent hactive ⊢
    have hmarked : Changes h cadence step db (db.apply [.occurrence current.id fun o ↦
        { o with failed := outcome.marker }]) :=
      note_changes hcurrent (fun _ ↦ rfl) { Occurrence.Noted.refl current with }
    refine hmarked.trans (Change.once ?_)
    exact .release row current.id _ hrow (fun _ ↦ ⟨rfl, rfl, rfl⟩) hactive.2.1 rfl
      (.inr (closed_of_write hcurrent (fun _ ↦ rfl) (by simp [Occurrence.Open, hguard.2.2.1]))) (by simp)
  · simp at hok

variable {value : BindingValue U}

theorem claimed_ok (hok : claimed db value = .ok o) :
    ∃ a, OwnedBy db value.occurrence value.claim o a := by
  unfold claimed at hok
  split at hok
  · next o' a ho ha =>
    split at hok
    · next hclaimed =>
      obtain ⟨hhome, -, hclaim, hstate, hactive, -⟩ := hclaimed
      obtain rfl := ok.inj hok
      have hid : a.id = value.activation := key_of_get ha
      exact ⟨a, ho, hid.symm ▸ ha, by rw [← hhome, hid], hclaim.symm, hstate, hactive⟩
    · simp at hok
  · simp at hok

variable {forward : Option U} {ready : Except Refusal Unit}

theorem retentionTx_ok (hok : retentionTx h db forward ready value ref = .ok writes) :
    ∃ o a, OwnedBy db value.occurrence value.claim o a ∧ writes = [.occurrence o.id fun o ↦
      { o with
        knowledgeBatch := some value.batch, batchRef := some ref,
        batchRevision := some value.id }] := by
  obtain ⟨_, -, hok⟩ := bind_eq_ok.mp hok
  obtain ⟨o, ho, hok⟩ := bind_eq_ok.mp hok
  obtain ⟨prior, -, hok⟩ := bind_eq_ok.mp hok
  obtain ⟨_, -, hok⟩ := bind_eq_ok.mp hok
  obtain ⟨-, hok⟩ := require_bind_eq_ok.mp hok
  obtain ⟨a, howned⟩ := claimed_ok ho
  exact ⟨o, a, howned, (ok.inj hok).symm⟩

theorem retentionTx_changes (hok : retentionTx h db forward ready value ref = .ok writes) :
    Changes h cadence step db (db.apply writes) := by
  obtain ⟨o, a, howned, rfl⟩ := retentionTx_ok hok
  have hid := key_of_get howned.occurrence
  exact note_changes (hid ▸ howned.occurrence) (fun _ ↦ rfl) { Occurrence.Noted.refl o with }

variable {retained : Retained U}

theorem anchored_ok (hok : anchored h db retained = .ok o) :
    db.occurrences.get retained.value.occurrence = some o ∧ o.matches retained := by
  obtain ⟨_, -, hok⟩ := bind_eq_ok.mp hok
  split at hok
  · cases hok
  · next o' ho =>
    obtain ⟨hmatches, hok⟩ := require_bind_eq_ok.mp hok
    obtain ⟨-, hok⟩ := require_bind_eq_ok.mp hok
    obtain rfl := ok.inj hok
    exact ⟨ho, hmatches⟩

omit [DecidableEq U] in
theorem Occurrence.claim_of_matches [DecidableEq U]
    (hmatches : o.matches retained) : o.claim = some retained.value.claim := by
  exact (of_decide_eq_true hmatches).2.2.2.1.symm

theorem requestTx_ok {rid : U} (hok : requestTx h db forward ready retained rid = .ok writes) :
    ∃ o a, OwnedBy db retained.value.occurrence retained.value.claim o a ∧
      writes = [.occurrence o.id fun o ↦ { o with request := some rid }] := by
  obtain ⟨reverse, -, hok⟩ := bind_eq_ok.mp hok
  obtain ⟨o, ho, hok⟩ := bind_eq_ok.mp hok
  obtain ⟨-, hok⟩ := require_bind_eq_ok.mp hok
  obtain ⟨o', ho', hok⟩ := bind_eq_ok.mp hok
  obtain ⟨_, -, hok⟩ := bind_eq_ok.mp hok
  obtain ⟨-, hok⟩ := require_bind_eq_ok.mp hok
  obtain ⟨a, howned⟩ := claimed_ok ho'
  obtain rfl : o = o' := some.inj ((anchored_ok ho).1.symm.trans howned.occurrence)
  exact ⟨o, a, howned, (ok.inj hok).symm⟩

theorem requestTx_changes {rid : U} (hok : requestTx h db forward ready retained rid = .ok writes) :
    Changes h cadence step db (db.apply writes) := by
  obtain ⟨o, a, howned, rfl⟩ := requestTx_ok hok
  have hid := key_of_get howned.occurrence
  exact note_changes (hid ▸ howned.occurrence) (fun _ ↦ rfl) { Occurrence.Noted.refl o with }

theorem withdrawUnlinkedTx_ok (hok : withdrawUnlinkedTx h db forward retained = .ok writes) :
    ∃ o a, db.occurrences.get o.id = some o ∧ db.activations.get a.id = some a ∧
      o.id = retained.value.occurrence ∧ o.claim = some retained.value.claim ∧
      (o.state = .admitting ∨ o.state = .interrupted) ∧ ((a.activeOccurrence = some o.id ∧
        writes = [.occurrence o.id fun o ↦
            { o with state := .skipped, reason := some .batchAbandoned },
          .activation a.id fun a ↦ { a with activeOccurrence := none }]) ∨
        writes = [.occurrence o.id fun o ↦
          { o with state := .skipped, reason := some .batchAbandoned }]) := by
  obtain ⟨o, ho, hok⟩ := bind_eq_ok.mp hok
  obtain ⟨reverse, -, hok⟩ := bind_eq_ok.mp hok
  obtain ⟨ho, hmatches⟩ := anchored_ok ho
  have hid := key_of_get ho
  split at hok
  · cases hok
  next a ha =>
  obtain ⟨hguard, hok⟩ := require_bind_eq_ok.mp hok
  refine ⟨o, a, hid ▸ ho, (key_of_get ha).symm ▸ ha, hid, Occurrence.claim_of_matches hmatches,
    hguard.2.1, ?_⟩
  split at hok
  · next hactive => exact .inl ⟨by rw [hactive, hid], (ok.inj hok).symm⟩
  · exact .inr (ok.inj hok).symm

theorem withdrawUnlinkedTx_changes (hok : withdrawUnlinkedTx h db forward retained = .ok writes) :
    Changes h cadence (.withdraw forward retained) db (db.apply writes) := by
  obtain ⟨o, a, ho, ha, -, hclaim, -, hwrites⟩ := withdrawUnlinkedTx_ok hok
  have hended : o.Ended { o with state := .skipped, reason := some .batchAbandoned } :=
    { Occurrence.Same.refl o with
      claim := rfl, reason := by simp, closed := by simp [Occurrence.Open],
      before := .inr (by simp [hclaim]) }
  obtain ⟨hactive, rfl⟩ | rfl := hwrites
  · exact finish_release (by trivial) ho ha (fun _ ↦ rfl) hended (fun _ ↦ ⟨rfl, rfl, rfl⟩) hactive
      rfl id
  · exact Change.once (.finish o (fun o ↦ { o with state := .skipped, reason := some .batchAbandoned })
      ho (fun _ ↦ rfl) hended trivial)

/-- A claimed occurrence was not superseded while it was queued. -/
def Db.Uncoalesced (db : Db U) : Prop :=
  ∀ id o, db.occurrences.get id = some o → o.reason = some .coalesced →
    o.state = .skipped ∧ o.claim = none

theorem tx_changes (hpaired : db.Paired) (huncoalesced : db.Uncoalesced) {step : Step U}
    (howned : step.Owned db) (hok : step.tx h cadence db = .ok writes) :
    Changes h cadence step db (db.apply writes) := by
  cases step with
  | create id room by_ revision targetRef now nextFire on => exact createTx_changes hok
  | enabled id on => exact enabledTx_changes hok
  | due id revision now => exact dueTx_changes hok
  | admitClaim oid claim => exact admitTx_changes hok
  | skipBatch expected oid claim reason => exact skipBatchTx_changes hok
  | selectInput oid claim inputId emptyInput => exact selectInputTx_changes hok
  | retainInput oid claim inputId revision ref => exact retainInputTx_changes hpaired hok
  | retainOwnedInput oid claim identity revision ref =>
    exact retainInputTx_changes hpaired (retainOwnedInputTx_ok hok)
  | interruptOwned expected oid claim reason =>
    simp only [Step.tx] at hok
    split at hok
    · next hreason =>
      refine interruptOwnedTx_changes ?_ hok
      rintro rfl
      simp [interruptReasons] at hreason
    · simp at hok
  | finish oid claim state rid reason =>
    refine finishAdmission_changes howned hok fun o ho hclaim hreason ↦ ?_
    simp [(huncoalesced oid o ho hreason).2] at hclaim
  | clearActive id oid => exact clearActiveTx_changes hok
  | announce oid => exact markAnnounced_changes hok
  | block id reason => exact block_changes hok
  | processed oid settled => exact processedInputTx_changes hok
  | failTerminal id expected occurrence outcome => exact failTerminalTx_changes hok
  | retention forward ready value ref => exact retentionTx_changes hok
  | request forward ready retained rid => exact requestTx_changes hok
  | withdraw forward retained => exact withdrawUnlinkedTx_changes hok
  | elsewhere requests =>
    obtain rfl := ok.inj hok
    exact .refl

/-- Everything a step can do to the schedule rows. -/
theorem step_changes (hpaired : db.Paired) (huncoalesced : db.Uncoalesced) (step : Step U)
    (howned : step.Owned db) : Changes h cadence step db (db.step h cadence step) := by
  unfold Db.step
  split
  · next requests => exact (Change.requests requests).once
  · split
    · next hok => exact tx_changes hpaired huncoalesced howned hok
    · exact .refl

end Simmis.Schedules
