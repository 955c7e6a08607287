import Simmis.Knowledge.Processing

/-!
# Recovery of a batch

An unlinked batch is abandoned before any request exists, and a submitted batch is requeued once its
update has failed. A requeue makes the selected versions pending again under a new generation of the
stream.
-/

namespace Simmis.Knowledge

variable {U P : Type} [DecidableEq U] [LinearOrder P]

/-- `decision` of a batch recovery. -/
structure BatchDecision (U : Type) where
  id : U
  batch : U
  room : U
  by_ : U
  client : U
  at_ : ℤ
  reason : String
  mode : Mode
deriving DecidableEq

variable (h : Hasch U P)

def BatchDecision.sealed (value : BatchDecision U) : Bool :=
  1 ≤ value.reason.length ∧ value.reason.length ≤ 1000 ∧
    value.id = h.batchRecovery value.batch value.room value.by_ value.client

/-- `binding-fields` of a batch recovery. -/
structure RecoveryBinding (U : Type) extends ClaimFields U where
  frozen : Option U
  frozenId : Option U
  scheduledOccurrence : Option U
deriving DecidableEq

def Batch.recoveryBinding (b : Batch U) : RecoveryBinding U :=
  ⟨b.claimFields, b.frozen, b.frozenId, b.scheduledOccurrence⟩

/-- `expected` of a batch recovery. -/
structure Abandonment (U P : Type) where
  binding : RecoveryBinding U
  selection : Selection U P
  schedule : Option (Schedules.Retained U)
deriving DecidableEq

/-- The phase in which a batch may be abandoned. -/
inductive Phase where
  | ready | capturing
deriving DecidableEq, Repr

def Phase.state : Phase → BatchState
  | .ready => .ready
  | .capturing => .capturing

/-- The rows of a batch whose recovery was checked. -/
structure Recoverable (U P : Type) where
  batch : Batch U
  stream : Stream U
  items : List (Item U P)

/-- The occurrence of a scheduled batch is the one of the retained anchor. -/
def anchors (o : Schedules.Occurrence U) (b : Batch U) (anchor : Schedules.Retained U) : Bool :=
  anchor.value.batch = b.id ∧ anchor.value.selection = b.selectionId ∧
    some anchor.value.frozen = b.frozenId ∧ o.id = anchor.value.occurrence ∧
    o.batchRef = some anchor.reference ∧ o.batchRevision = some anchor.value.id

/-- What a batch retains in the phase of its recovery. -/
def Batch.inPhase (b : Batch U) (schedule : Option (Schedules.Retained U)) : Phase → Bool
  | .ready => b.frozen.isSome ∧ b.frozenId.isSome
  | .capturing => b.frozen = none ∧ b.frozenId = none ∧ b.scheduledOccurrence = none ∧
    schedule = none

variable (db : Db U P) (expected : Abandonment U P)

/-- `checked!` of a batch recovery. -/
def checkedRecovery (value : BatchDecision U) (from_ : Phase) (mode : Mode) :
    Except Reason (Recoverable U P) := do
  require (value.sealed h ∧ mode = value.mode) .invalidDecision
  let selection := expected.selection
  let bid := value.batch
  let rows := members db.toJournal bid
  match db.batches.get bid with
  | none => throw .batchOrMembersChanged
  | some b =>
    match db.streams.get b.stream with
    | none => throw .batchOrMembersChanged
    | some stream =>
      require (selection.sealed h ∧ selection.id = bid ∧ bid = b.selectionId ∧
        expected.binding = b.recoveryBinding ∧ value.room = b.room ∧
        b.inPhase expected.schedule from_ ∧
        -- later steps may move the items that a requeue has given back
        (if mode = .requeue ∧ b.state = .closed then rows = []
          else selection.owns b.stream rows)) .batchOrMembersChanged
      validateBinding h selection.stream (some stream)
      require (b.disposition = none ∧ b.adoption = none ∧ b.decisionFiling = none)
        .conflictingResolution
      require (b.request = none ∧ b.requestIntent = none ∧
        db.schedules.requests.select (fun r ↦ r.knowledgeBatch = some bid) = []) .requestLinked
      let occurrence ← boundOccurrence db bid
      require (occurrence.isSome = expected.schedule.isSome ∧
        ∀ o ∈ occurrence, ∀ anchor ∈ expected.schedule, anchors o b anchor) .scheduleBindingChanged
      pure ⟨b, stream, sortByPlace rows⟩

/-- `successor!` -/
def successor (before : ℕ) : Except Reason ℕ := do
  require (before < longMax) .generationExhausted
  pure (before + 1)

/-- The generation that a recovery gives its stream. -/
def nextGeneration (mode : Mode) (before : ℕ) : Except Reason (Option ℕ) :=
  if mode = .requeue then (successor before).map some else .ok none

/-- The withdrawal of the occurrence of a scheduled batch. -/
def withdrawal (forward : Option U) : Option (Schedules.Retained U) → Except Reason (Schedules.Tx U)
  | none => .ok []
  | some schedule =>
    (Schedules.withdrawUnlinkedTx h.toHasch db.schedules forward schedule).mapError .schedule

/-- The outcome of an abandonment. -/
def Mode.outcome : Mode → Outcome
  | .requeue => .abandonedRequeue
  | _ => .abandonedSkip

/-- The receipt of a batch recovery. -/
def abandonReceipt (value : BatchDecision U) (from_ : Phase) (mode : Mode)
    (generations : Option (ℕ × ℕ)) : Recovery U where
  id := value.id
  client := value.client
  by_ := value.by_
  at_ := value.at_
  reason := value.reason
  from_ := from_.state
  mode := mode
  generations := generations
  submitted := none

/-- `same-decision?`, with the phase and the generations of the receipt. -/
def Recovery.records (value : BatchDecision U) (from_ : Phase) (mode : Mode)
    (generations : Option (ℕ × ℕ)) (receipt : Recovery U) : Bool :=
  receipt.from_ = from_.state ∧ receipt.id = value.id ∧ receipt.client = value.client ∧
    receipt.by_ = value.by_ ∧ receipt.reason = value.reason ∧ receipt.mode = value.mode ∧
    receipt.generations = generations ∧ receipt.mode = mode

/-- The write of a recovery to the batch. -/
def Batch.recover (outcome : Outcome) (receipt : Recovery U) (b : Batch U) : Batch U :=
  { b with state := .closed, outcome := some outcome, recovery := some receipt }

/-- The writes of a requeue to the stream and to an item. -/
def Stream.regenerate (generation : ℕ) (s : Stream U) : Stream U :=
  { s with activeBatch := none, batchGeneration := generation }

def Item.requeue (stream : U) (i : Item U P) : Item U P :=
  { i with state := .pending, pendingStream := some stream, batch := none }

/-- The stream and item writes of a recovery. -/
def recoveryWrites (stream : U) (items : List (Item U P)) : Option ℕ → Tx U P
  | some generation => [.patchStream stream (Stream.regenerate generation),
      .patchItems (items.map (·.id)) (Item.requeue stream)]
  | none => [.patchStream stream Stream.deactivate,
      .patchItems (items.map (·.id)) (Item.settle .skipped)]

/-- `abandon-from-tx` -/
def abandonFromTx (value : BatchDecision U) (from_ : Phase) (mode : Mode) :
    Except Reason (Tx U P) := do
  let checked ← checkedRecovery h db expected value from_ mode
  let batch := checked.batch
  let stream := checked.stream
  let forward := batch.scheduledOccurrence
  let original := expected.selection.expected
  let before := original.batchGeneration
  let after ← nextGeneration mode before
  let generations := after.map fun generation ↦ (before, generation)
  if batch.state = .closed then do
    require (batch.outcome = some mode.outcome ∧
      (batch.recovery.any fun receipt ↦ receipt.records value from_ mode generations) ∧
      some batch.id ≠ stream.activeBatch ∧ (∀ generation ∈ after, generation ≤ stream.batchGeneration) ∧
      (after = none → ∀ i ∈ checked.items, i.state = .skipped)) .partialOrConflictingRecovery
    match expected.schedule with
    | none => pure []
    | some schedule => do
      (Schedules.withdrawn h.toHasch db.schedules forward schedule).mapError .schedule
      pure []
  else do
    admissible (some stream)
    require (from_.state = batch.state ∧ batch.outcome = none ∧ batch.recovery = none ∧
      original.activate batch.id = stream ∧ active db.toJournal batch.stream = none ∧
      ∀ i ∈ checked.items, i.state = .claimed) .batchNotAbandonable
    let withdrawn ← withdrawal h db forward expected.schedule
    pure (.patchBatch batch.id
        (Batch.recover mode.outcome (abandonReceipt value from_ mode generations)) ::
      (recoveryWrites batch.stream checked.items after ++ withdrawn.map .schedule))

/-- `abandon-tx` -/
def abandonTx (value : BatchDecision U) : Except Reason (Tx U P) :=
  abandonFromTx h db expected value .ready .skip

/-- `abandon-capturing-tx` -/
def abandonCapturingTx (value : BatchDecision U) : Except Reason (Tx U P) :=
  abandonFromTx h db expected value .capturing .skip

/-- `requeue-ready-tx` -/
def requeueReadyTx (value : BatchDecision U) : Except Reason (Tx U P) :=
  abandonFromTx h db expected value .ready .requeue

/-- `requeue-capturing-tx` -/
def requeueCapturingTx (value : BatchDecision U) : Except Reason (Tx U P) :=
  abandonFromTx h db expected value .capturing .requeue

/-- A failed candidate belongs to a completed job, and only to such a job. -/
def Native.shaped (native : Native U) : Bool :=
  match native.kind with
  | .candidateFailed => native.status = .completed ∧ native.candidate.isSome ∧
      native.attemptContent.isSome
  | .jobFailed => (native.status = .failed ∨ native.status = .cancelled) ∧
      native.candidate = none ∧ native.attemptContent = none

/-- `native-proof!` -/
def Native.proves (native : Native U) : Bool :=
  native.core = h.coreAck native.job ∧ native.adapter = h.adapterAck native.job ∧
    native.family = h.familyAck native.job ∧ native.shaped

/-- `decision` of a submitted recovery. -/
structure SubmittedDecision (U : Type) where
  id : U
  batch : U
  request : U
  room : U
  by_ : U
  client : U
  at_ : ℤ
  reason : String
deriving DecidableEq

def SubmittedDecision.sealed (value : SubmittedDecision U) : Bool :=
  1 ≤ value.reason.length ∧ value.reason.length ≤ 1000 ∧
    value.id = h.submittedRecovery value.batch value.request value.room value.by_ value.client

/-- `receipt-fields`, with the time of the decision. -/
def receiptFields (value : SubmittedDecision U) (native : Native U) (before after : ℕ) :
    Recovery U where
  id := value.id
  client := value.client
  by_ := value.by_
  at_ := value.at_
  reason := value.reason
  from_ := .submitted
  mode := .freshUpdate
  generations := some (before, after)
  submitted := some (value.request, native)

/-- `expected` of a submitted recovery. -/
structure FailedUpdate (U P : Type) where
  proof : Proof U P
  request : Schedules.Request U
  native : Native U
  schedule : Option (Schedules.Occurrence U)

/-- `scheduled-failure?` -/
def scheduledFailure (native : Native U) (o : Schedules.Occurrence U) : Bool :=
  match native.kind with
  | .candidateFailed => o.failed.candidate = native.candidate ∧
      o.failed.attemptContent = native.attemptContent
  | .jobFailed => o.failed.job = some native.job ∧ o.failed.jobStatus = some native.status

/-- The canonical requests that name a batch, at most two of them. -/
def reverseLinks (batch : U) : List U :=
  ((db.schedules.requests.select fun r ↦ r.knowledgeBatch = some batch).take 2).map (·.id)

/-- `recovered?`: the complete receipt of a failed update, that owns nothing any more. -/
def recovered (batchId requestId : U) : Except Reason Bool := do
  match db.batches.get batchId, db.schedules.requests.get requestId with
  | some batch, some request =>
    match db.streams.get batch.stream, batch.recovery with
    | some stream, some receipt =>
      match receipt.submitted, receipt.generations with
      | some (recoveryRequest, native), some (before, recordedAfter) =>
        require (native.proves h) .invalidNativeProof
        validateBinding h stream.toDescriptor (some stream)
        let after ← successor before
        let binding ← (Schedules.requestBinding h.toHasch request).mapError .schedule
        let occurrence ← boundOccurrence db batchId
        let value : SubmittedDecision U :=
          { id := h.submittedRecovery batchId requestId batch.room receipt.by_ receipt.client
            batch := batchId
            request := requestId
            room := batch.room
            by_ := receipt.by_
            client := receipt.client
            at_ := receipt.at_
            reason := receipt.reason }
        require (value.sealed h) .invalidDecision
        pure (batchId = batch.selectionId ∧ batch.frozen.isSome ∧ batch.frozenId.isSome ∧
          batch.by_ = stream.by_ ∧ batch.room = stream.room ∧ batch.target = stream.target ∧
          reverseLinks db batchId = [request.id] ∧ request.disposition = none ∧
          batch.state = .closed ∧ batch.outcome = some .failedRequeued ∧
          receipt = receiptFields value native before after ∧ recordedAfter = after ∧
          batch.disposition = none ∧ batch.adoption = none ∧ batch.decisionFiling = none ∧
          batch.request = some requestId ∧ recoveryRequest = requestId ∧
          some request.intentId = batch.requestIntent ∧ request.knowledgeBatch = some batchId ∧
          batch.frozenId = request.knowledgeFrozen ∧ request.by_ = batch.by_ ∧
          request.room = batch.room ∧ some native.job = binding.job ∧
          stream.activeBatch ≠ some batchId ∧
          (∀ o ∈ occurrence, o.request = some requestId ∧ o.knowledgeBatch = some batchId ∧
            o.state = .linked ∧ scheduledFailure native o) ∧
          stream.batchGeneration ≤ longMax ∧ after ≤ stream.batchGeneration ∧
          members db.toJournal batchId = [])
      | _, _ => pure false
    | _, _ => pure false
  | _, _ => pure false

/-- A receipt, whenever it was decided. -/
def Recovery.sameAs (a b : Recovery U) : Bool := a = { b with at_ := a.at_ }

/-- A scheduled batch failed in its own linked occurrence. -/
def failedOccurrence (b : Batch U) (request : U) (native : Native U)
    (o : Schedules.Occurrence U) : Bool :=
  b.scheduledOccurrence = some o.id ∧ o.request = some request ∧ o.state = .linked ∧
    o.knowledgeBatch = some b.id ∧ scheduledFailure native o

/-- `requeue-tx` -/
def requeueTx (expected : FailedUpdate U P) (value : SubmittedDecision U) :
    Except Reason (Tx U P) := do
  let proof := expected.proof
  let native := expected.native
  require (value.sealed h) .invalidExpected
  let binding ← (Schedules.requestBinding h.toHasch expected.request).mapError .schedule
  require (expected.request = binding) .invalidExpected
  require (native.proves h) .invalidNativeProof
  let origin := proof.origin
  let selection := proof.selection
  let bid := value.batch
  let before := selection.expected.batchGeneration
  let after ← successor before
  let rows := members db.toJournal bid
  match db.batches.get bid, db.schedules.requests.get value.request with
  | some batch, some row =>
    match db.streams.get batch.stream with
    | none => throw .bindingChanged
    | some stream =>
      let binding ← (Schedules.requestBinding h.toHasch row).mapError .schedule
      let occurrence ← boundOccurrence db bid
      require (selection.sealed h ∧ bid = origin.batch ∧ bid = origin.selection ∧
        bid = selection.id ∧ proof.binding = batch.binding ∧ expected.request = binding ∧
        some value.request = batch.request ∧ value.room = batch.room ∧ value.room = row.room ∧
        row.by_ = batch.by_ ∧ some row.intentId = batch.requestIntent ∧
        some origin.frozen = batch.frozenId ∧ some origin.frozen = row.knowledgeFrozen ∧
        some native.job = row.job ∧ reverseLinks db bid = [row.id] ∧
        expected.schedule = occurrence ∧
        ∀ o ∈ occurrence, failedOccurrence batch value.request native o) .bindingChanged
      validateBinding h selection.stream (some stream)
      require (row.disposition = none ∧ batch.disposition = none ∧ batch.adoption = none ∧
        batch.decisionFiling = none) .conflictingResolution
      if batch.state = .closed then do
        require ((recovered h db bid value.request).toOption = some true ∧
          batch.recovery.any fun receipt ↦
            receipt.sameAs (receiptFields value native before after)) .conflictingRecovery
        pure []
      else do
        admissible (some stream)
        require (batch.state = .submitted ∧ batch.outcome = none ∧ batch.recovery = none ∧
          selection.expected.activate bid = stream ∧ active db.toJournal batch.stream = none ∧
          selection.owns batch.stream rows ∧ ∀ i ∈ rows, i.state = .claimed) .batchNotRecoverable
        pure (.patchBatch batch.id
            (Batch.recover .failedRequeued (receiptFields value native before after)) ::
          recoveryWrites batch.stream (sortByPlace rows) (some after))
  | _, _ => throw .bindingChanged

end Simmis.Knowledge
