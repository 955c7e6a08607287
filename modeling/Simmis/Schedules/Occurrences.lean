import Simmis.Schedules.Rows

/-!
# The durable occurrence outbox

The transaction functions over activations and occurrences. Each is evaluated by the serialized
writer on its own database value and returns datoms that are applied as a whole, returns none, or
throws.
-/

namespace Simmis.Schedules

variable {U : Type} [DecidableEq U]

/-- A normalized cadence: a fixed interval, or calendar rules with their next fire time. -/
inductive Cadence where
  | interval (ms : ℤ) (positive : 0 < ms)
  | calendar (nextFireTime : ℤ → ℤ)

structure Slot where
  intended : ℤ
  next : ℤ
  coalesced : ℤ
deriving DecidableEq, Repr

/-- A sum, difference or product of longs; overflow throws. -/
def long (z : ℤ) : Except Refusal ℤ :=
  if -2 ^ 63 ≤ z ∧ z < 2 ^ 63 then .ok z else .error .arithmetic

/-- The loop of `due-slot`; `fuel` counts down from the backlog limit. -/
def dueSlotLoop (nextFireTime : ℤ → ℤ) (now : ℤ) : ℕ → ℤ → ℤ → Except Refusal Slot
  | 0, _, _ => .error .backlog
  | fuel + 1, at_, skipped =>
    let next := nextFireTime at_
    if ¬ at_ < next then .error .invalid
    else if now < next then .ok ⟨at_, next, skipped⟩
    else dueSlotLoop nextFireTime now fuel next (skipped + 1)

/-- Latest intended slot that is not after `now`. -/
def dueSlot (spec : Cadence) (firstFire now : ℤ) : Except Refusal (Option Slot) :=
  if now < firstFire then .ok none
  else match spec with
  | .interval interval _ => do
    let elapsed ← long (now - firstFire)
    let skipped := elapsed.tdiv interval
    let offset ← long (skipped * interval)
    let at_ ← long (firstFire + offset)
    let next ← long (at_ + interval)
    pure (some ⟨at_, next, skipped⟩)
  | .calendar nextFireTime => do
    let slot ← dueSlotLoop nextFireTime now 4097 firstFire 0
    pure (some slot)

/-- `initial-enabled?`: older activations were always created enabled. -/
def Activation.createdEnabled (row : Activation U) : Bool := row.initialEnabled.getD true

variable (db : Db U)

def createTx (row : Activation U) : Except Refusal (Tx U) :=
  match db.activations.get row.id with
  | some prior =>
    if prior.revision = row.revision ∧ prior.createdEnabled = row.createdEnabled then .ok []
    else .error .conflict
  | none =>
    if db.activations.rows.length ≥ 100 then .error .capacity else .ok [.activate row]

/-- The row that `create!` publishes. -/
def create (id room by_ revision targetRef : U) (now nextFire : ℤ) (enabled : Bool) :
    Activation U where
  id := id
  room := room
  by_ := by_
  revision := revision
  targetRef := targetRef
  enabled := enabled
  initialEnabled := some enabled
  createdAt := now
  nextFire := nextFire
  lastOccurrence := none
  activeOccurrence := none
  reason := none
  lastTerminalFailure := none
  lastProcessedInput := none

/-- The write of `enabled-tx` to the flag and its reason. -/
def Activation.switch (on : Bool) (a : Activation U) : Activation U :=
  { a with enabled := on, reason := if on then none else a.reason }

variable (a : Activation U)

/-- The write of a pause that withdraws queued work. -/
def Activation.pause : Activation U :=
  { a with enabled := false, activeOccurrence := none }

/-- Pausing withdraws queued work that is not yet admitted. -/
def enabledTx (id : U) (enabled : Bool) : Except Refusal (Tx U) :=
  match db.activations.get id with
  | none => .error .missing
  | some row =>
    match row.activeOccurrence.bind db.occurrences.get with
    | some o =>
      if enabled = false ∧ o.state = .pending then
        .ok [.occurrence o.id fun o ↦ { o with state := .skipped, reason := some .paused },
          .activation id Activation.pause]
      else .ok [.activation id (Activation.switch enabled)]
    | none => .ok [.activation id (Activation.switch enabled)]

/-- What `due-tx` records; a slot that finds the activation busy is skipped. -/
def fired (oid id revision : U) (slot : Slot) (now : ℤ) (coalesced : ℤ) (busy : Bool) :
    Occurrence U where
  id := oid
  activation := id
  revision := revision
  intendedAt := slot.intended
  createdAt := now
  coalesced := coalesced
  state := if busy then .skipped else .pending
  claim := none
  inputId := none
  inputRef := none
  inputRevision := none
  request := none
  announced := false
  reason := if busy then some .overlap else none
  failed := .none
  knowledgeBatch := none
  batchRef := none
  batchRevision := none

/-- The cursor write of `due-tx`. -/
def advance (oid : U) (slot : Slot) (busy : Bool) (a : Activation U) : Activation U :=
  { a with
    nextFire := slot.next, lastOccurrence := some oid,
    activeOccurrence := if busy then a.activeOccurrence else some oid }

/-- The write of `due-tx` to a queued occurrence that the new one supersedes. -/
def supersede (o : Occurrence U) : Occurrence U :=
  { o with state := .skipped, reason := some .coalesced }

/-- The outbox insert and the cursor advance are one transaction. -/
def dueTx (h : Hasch U) (db : Db U) (id revision : U) (spec : Cadence) (now : ℤ) :
    Except Refusal (Tx U) :=
  match db.activations.get id with
  | none => .ok []
  | some row =>
    if row.enabled ∧ revision = row.revision then do
      match ← dueSlot spec row.nextFire now with
      | none => pure []
      | some slot =>
        let oid := h.occurrence id revision slot.intended
        match row.activeOccurrence.bind db.occurrences.get with
        | some prior =>
          if prior.state = .pending then do
            let coalesced ← long (slot.coalesced + 1)
            pure [.occur (fired oid id revision slot now coalesced false),
              .activation id (advance oid slot false), .occurrence prior.id supersede]
          else
            pure [.occur (fired oid id revision slot now slot.coalesced true),
              .activation id (advance oid slot true)]
        | none =>
          let busy := row.activeOccurrence.isSome
          pure [.occur (fired oid id revision slot now slot.coalesced busy),
            .activation id (advance oid slot busy)]
    else .ok []

/-- The write of `admit-tx`. -/
def Occurrence.admitClaim (claim : U) (o : Occurrence U) : Occurrence U :=
  { o with state := .admitting, claim := some claim }

def admitTx (oid claim : U) : Except Refusal (Tx U) :=
  match db.occurrences.get oid with
  | none => .ok []
  | some o =>
    match db.activations.get o.activation with
    | none => .ok []
    | some a =>
      if o.state = .pending ∧ a.enabled ∧ a.activeOccurrence = some oid then
        .ok [.occurrence oid (Occurrence.admitClaim claim)]
      else .ok []

/-- `claimed-occurrence!`: the rows of an admission that this claim still owns. -/
def claimedOccurrence (oid claim : U) : Except Refusal (Occurrence U × Activation U) :=
  match db.occurrences.get oid with
  | none => .error .conflict
  | some o =>
    match db.activations.get o.activation with
    | none => .error .conflict
    | some a =>
      if o.claim = some claim ∧ o.state = .admitting ∧ o.revision = a.revision ∧
          a.activeOccurrence = some oid then .ok (o, a)
      else .error .conflict

/-- `batch-skip-identity` and `owned-admission-identity`. -/
structure Identity (U : Type) where
  id : U
  by_ : U
  room : U
  revision : U
  targetRef : U
deriving DecidableEq

def Activation.identity : Identity U :=
  ⟨a.id, a.by_, a.room, a.revision, a.targetRef⟩

/-- The retraction of the active pointer. -/
def Activation.release : Activation U := { a with activeOccurrence := none }

def Occurrence.skip (reason : Reason) (input : Option U) (o : Occurrence U) : Occurrence U :=
  { o with inputId := input.orElse fun _ ↦ o.inputId, state := .skipped, reason := some reason }

/-- The slot is skipped and released at once, with its selected input. -/
def skip (aid oid : U) (reason : Reason) (input : Option U) : Tx U :=
  [.occurrence oid (Occurrence.skip reason input), .activation aid Activation.release]

def skipBatchTx (expected : Identity U) (oid claim : U) (reason : Reason) :
    Except Refusal (Tx U) := do
  require (reason = .streamBusy ∨ reason = .noInputs ∨ reason = .unchanged) .conflict
  let (o, a) ← claimedOccurrence db oid claim
  require (expected = a.identity ∧ o.request = none ∧ o.inputId = none ∧ o.inputRef = none ∧
    o.inputRevision = none ∧ o.knowledgeBatch = none ∧ o.batchRef = none ∧
    o.batchRevision = none) .conflict
  pure (skip a.id oid reason none)

def selectInputTx (oid claim inputId : U) (emptyInput : Bool) : Except Refusal (Tx U) := do
  let (o, a) ← claimedOccurrence db oid claim
  require (o.inputId = none ∨ o.inputId = some inputId) .conflict
  if a.lastProcessedInput = some inputId then pure (skip a.id oid .unchanged (some inputId))
  else if emptyInput ∧ a.lastProcessedInput = none then
    pure (skip a.id oid .noInputs (some inputId))
  else pure [.occurrence oid fun o ↦ { o with inputId := some inputId }]

def retainInputTx (oid claim inputId revision ref : U) : Except Refusal (Tx U) := do
  let (o, _) ← claimedOccurrence db oid claim
  require (o.inputId = some inputId) .conflict
  if o.inputRef.isSome then do
    require (o.inputRevision = some revision) .conflict
    pure []
  else pure [.occurrence oid fun o ↦
    { o with inputRef := some ref, inputRevision := some revision }]

/-- The identity facts of retained inputs. -/
structure InputIdentity (U : Type) where
  occurrenceId : U
  targetRevision : U
  inputId : U
deriving DecidableEq

/-- `owned-input-row!` -/
def ownedInputRow (oid claim : U) (value : InputIdentity U) :
    Except Refusal (Occurrence U × Activation U) := do
  let (o, a) ← claimedOccurrence db oid claim
  require (oid = value.occurrenceId ∧ value.targetRevision = a.revision ∧
    a.revision = o.revision ∧ o.inputId = some value.inputId) .corrupt
  pure (o, a)

def retainOwnedInputTx (oid claim : U) (identity : InputIdentity U) (revision ref : U) :
    Except Refusal (Tx U) := do
  let (o, _) ← ownedInputRow db oid claim identity
  require (o.inputRef = none ∧ o.inputRevision = none) .conflict
  retainInputTx db oid claim identity.inputId revision ref

/-- Ownership and linkage are checked in the writer. -/
def interruptOwnedTx (h : Hasch U) (db : Db U) (expected : Identity U) (oid claim : U)
    (reason : Reason) : Except Refusal (Tx U) :=
  match db.occurrences.get oid, db.activations.get expected.id with
  | some o, some a =>
    if expected = a.identity ∧ a.activeOccurrence = some oid ∧ a.id = o.activation ∧
        a.revision = o.revision ∧ o.state = .admitting ∧ o.claim = some claim then
      let request := o.request.isSome || (db.requests.get (h.request a.by_ a.room oid)).isSome
      let blocked : Write U := .activation a.id fun a ↦
        { a with
          enabled := false, reason := some (if reason = .restart then .interrupted else reason) }
      if request ∧ reason = .ownedDispatchUnavailable then .ok [blocked]
      else if request then .ok []
      else .ok [.occurrence oid fun o ↦ { o with state := .interrupted, reason := some reason },
        blocked]
    else .ok []
  | _, _ => .ok []

/-- The write of `finish-admission!`. -/
def Occurrence.finish (state : State) (request : Option U) (reason : Option Reason)
    (o : Occurrence U) : Occurrence U :=
  { o with
    state := state, request := request.orElse fun _ ↦ o.request,
    reason := reason.orElse fun _ ↦ o.reason }

/-- The unconditional write of `finish-admission!`; a missing row throws. -/
def finishAdmission (oid : U) (state : State) (request : Option U) (reason : Option Reason) :
    Except Refusal (Tx U) :=
  match db.occurrences.get oid with
  | none => .error .missing
  | some _ => .ok [.occurrence oid (Occurrence.finish state request reason)]

def clearActiveTx (id oid : U) : Except Refusal (Tx U) :=
  match db.activations.get id with
  | none => .ok []
  | some row =>
    if row.activeOccurrence = some oid then
      .ok [.activation id Activation.release]
    else .ok []

/-- `mark-announced!` -/
def markAnnounced (oid : U) : Except Refusal (Tx U) :=
  match db.occurrences.get oid with
  | none => .error .missing
  | some _ => .ok [.occurrence oid fun o ↦ { o with announced := true }]

/-- The write of `block!`. -/
def Activation.hold (reason : Reason) (a : Activation U) : Activation U :=
  { a with enabled := false, reason := some reason }

/-- `block!` -/
def block (id : U) (reason : Reason) : Except Refusal (Tx U) :=
  match db.activations.get id with
  | none => .error .missing
  | some _ => .ok [.activation id (Activation.hold reason)]

/-- `processed-input-tx`, linked; `settled` stands for the other checks. -/
def processedInputTx (oid : U) (settled : Bool) : Except Refusal (Tx U) :=
  match db.occurrences.get oid with
  | none => .ok []
  | some o =>
    match db.activations.get o.activation with
    | none => .ok []
    | some a =>
      if o.state = .linked ∧ a.activeOccurrence = some oid ∧ o.revision = a.revision ∧
          o.request.isSome ∧ o.inputRef.isSome ∧ o.inputId.isSome then
        if settled then .ok [.activation a.id fun a ↦ { a with lastProcessedInput := o.inputId }]
        else .error .conflict
      else .ok []

/-- `resume-identity-fields` of an activation. -/
structure ResumeIdentity (U : Type) where
  room : U
  by_ : U
  revision : U
  targetRef : U
  enabled : Bool
  reason : Option Reason
  activeOccurrence : Option U
  lastTerminalFailure : Option U
deriving DecidableEq

def Activation.resumeIdentity : ResumeIdentity U :=
  ⟨a.room, a.by_, a.revision, a.targetRef, a.enabled, a.reason, a.activeOccurrence,
    a.lastTerminalFailure⟩

/-- `failure-occurrence-fields` of an occurrence. -/
structure FailureFields (U : Type) where
  id : U
  activation : U
  revision : U
  state : State
  request : Option U
  claim : Option U
  inputId : Option U
  inputRef : Option U
  inputRevision : Option U
  knowledgeBatch : Option U
  batchRef : Option U
  batchRevision : Option U
deriving DecidableEq

def Occurrence.failureFields (o : Occurrence U) : FailureFields U :=
  ⟨o.id, o.activation, o.revision, o.state, o.request, o.claim, o.inputId, o.inputRef,
    o.inputRevision, o.knowledgeBatch, o.batchRef, o.batchRevision⟩

/-- `dispositions/request-binding`: settled work of a workflow. -/
def requestBinding (h : Hasch U) (r : Request U) : Except Refusal (Request U) :=
  if r.publicationBasisId.isSome ∧ r.job.isSome ∧
      r.knowledgeBatch.isSome = r.knowledgeFrozen.isSome ∧ r.kind = .workflow ∧
      r.state = .submitted ∧ r.returnPending = some false ∧
      r.id = h.request r.by_ r.room r.clientId then .ok { r with disposition := none }
  else .error .invalid

/-- What the host has certified about the failed work. -/
inductive Outcome (U : Type) where
  | nativeJob (job : U) (status : JobStatus) (binding : Request U)
  | certified (candidate attemptContent : U) (failed : Bool) (binding : Request U)

def Outcome.marker : Outcome U → Marker U
  | .nativeJob job status _ => ⟨some job, some status, none, none⟩
  | .certified candidate content _ _ => ⟨none, none, some candidate, some content⟩

def Outcome.binding : Outcome U → Request U
  | .nativeJob _ _ binding => binding
  | .certified _ _ _ binding => binding

def Outcome.terminal (request : Request U) : Outcome U → Bool
  | .nativeJob job status _ =>
    request.job = some job ∧ (status = .failed ∨ status = .cancelled)
  | .certified _ _ failed _ => failed

/-- The active slot is disabled and released; a replay writes nothing. -/
def failTerminalTx (h : Hasch U) (db : Db U) (id : U) (expected : ResumeIdentity U)
    (occurrence : FailureFields U) (outcome : Outcome U) : Except Refusal (Tx U) :=
  let oid := occurrence.id
  match db.activations.get id, db.occurrences.get oid with
  | some row, some current =>
    match current.request.bind db.requests.get with
    | none => .error .conflict
    | some request => do
      let binding ← requestBinding h request
      require (outcome.terminal request ∧ occurrence = current.failureFields ∧
        current.state = .linked ∧ id = current.activation ∧ row.revision = current.revision ∧
        outcome.binding = binding ∧ oid = request.clientId ∧ row.by_ = request.by_ ∧
        row.room = request.room ∧ current.announced ∧ request.disposition = none) .conflict
      if outcome.marker = current.failed then pure []
      else do
        require (expected = row.resumeIdentity ∧ row.activeOccurrence = some oid ∧
          current.failed = .none) .conflict
        pure [.occurrence oid fun o ↦ { o with failed := outcome.marker },
          .activation id fun a ↦
            { a with
              enabled := false, reason := some .executionFailed, lastTerminalFailure := some oid,
              activeOccurrence := none }]
  | _, _ => .error .conflict

end Simmis.Schedules
