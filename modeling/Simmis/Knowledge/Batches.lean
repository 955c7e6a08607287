import Simmis.Knowledge.Pins

/-!
# Batches

A batch claims the whole stream and an exact prefix of its pending items before the bodies are read.
It is frozen once the inputs are retained and linked to one canonical request; every transition
compares the original claim row.
-/

namespace Simmis.Knowledge

variable {U P : Type} [DecidableEq U] [LinearOrder P]

/-- `portable` -/
def Item.portable (i : Item U P) : Portable U P := ⟨i.id, i.order, i.path, i.version⟩

variable (h : Hasch U P) (selection : Selection U P)

/-- The identity of a selection is the hash of everything else in it. -/
def Selection.sealed : Bool :=
  selection.version = 2 ∧ 1 ≤ selection.items.length ∧ selection.items.length ≤ 99 ∧
    selection.id = h.selection selection.toSelectionFacts

/-- `selection!` -/
def validateSelection : Except Reason Unit := do
  require (selection.sealed h ∧ selection.remaining ≤ maxChanges - selection.items.length)
    .invalidSelection
  validateBinding h selection.stream (some selection.expected)
  validateBasis selection.basis

/-- The stream is ready, and the selected items are the pending prefix. -/
def claimable (j : Journal U P) (selection : Selection U P) : Except Reason (List (Item U P)) := do
  let id := selection.stream.id
  let pending ← pendingItems h j id
  let selected := pending.take selection.items.length
  admissible (j.streams.get id)
  match j.streams.get id with
  | none => throw .streamNotReady
  | some current =>
    let pin := intent j current.cursorRoot
    let discovery := j.discoveries.get current.lastDiscovery
    require (selection.expected = current ∧ current.activeBatch = none ∧ active j id = none ∧
      (pin.any fun p ↦ p.state = .retained ∧ p.stream = id ∧
        p.discovery = some current.lastDiscovery) ∧
      discovery.any (·.oldRootReleased) ∧ selection.basis.commit = current.cursorCommit ∧
      selection.basis.maxTx = current.cursorTx ∧
      h.source selection.basis.toSourceFacts = current.source) .streamNotReady
    require (selection.items = selected.map (·.portable) ∧
      selection.remaining = pending.length - selection.items.length) .pendingPrefixChanged
    pure selected

/-- The row of a new batch. -/
def capture (ref claim : U) : Batch U where
  id := selection.id
  stream := selection.stream.id
  by_ := selection.stream.by_
  room := selection.stream.room
  target := selection.stream.target
  claim := claim
  state := .capturing
  selection := ref
  selectionId := selection.id
  frozen := none
  frozenId := none
  request := none
  requestIntent := none
  scheduledOccurrence := none
  disposition := none
  outcome := none
  adoption := none
  decisionFiling := none
  recovery := none

/-- The write of `claim-tx` to the stream. -/
def Stream.activate (batch : U) (s : Stream U) : Stream U := { s with activeBatch := some batch }

/-- The write of `claim-tx` to an item. -/
def Item.claim (batch : U) (i : Item U P) : Item U P :=
  { i with state := .claimed, batch := some batch, pendingStream := none }

/-- `claim-tx` -/
def claimTx (j : Journal U P) (selection : Selection U P) (ref claim : U) :
    Except Reason (Tx U P) := do
  validateSelection h selection
  match j.batches.get selection.id with
  | some existing =>
    require (selection.id = existing.selectionId ∧ selection.stream.id = existing.stream ∧
      selection.stream.by_ = existing.by_ ∧ selection.stream.room = existing.room ∧
      selection.stream.target = existing.target ∧ ref = existing.selection) .batchConflict
    pure []
  | none =>
    let selected ← claimable h j selection
    pure [.batch (capture selection ref claim),
      .patchStream selection.stream.id (Stream.activate selection.id),
      .patchItems (selected.map (·.id)) (Item.claim selection.id)]

/-- `immutable-fields` of a claim. -/
structure ClaimFields (U : Type) where
  id : U
  stream : U
  by_ : U
  room : U
  target : U
  claim : U
  selection : U
  selectionId : U
deriving DecidableEq

def Batch.claimFields (b : Batch U) : ClaimFields U :=
  ⟨b.id, b.stream, b.by_, b.room, b.target, b.claim, b.selection, b.selectionId⟩

/-- The active batch of the stream of a batch. -/
def Batch.owner (j : Journal U P) (b : Batch U) : Option U :=
  (j.streams.get b.stream).bind (·.activeBatch)

/-- The write of `freeze-tx`. -/
def Batch.freeze (frozen frozenId : U) (b : Batch U) : Batch U :=
  { b with state := .ready, frozen := some frozen, frozenId := some frozenId }

/-- `freeze-tx` -/
def freezeTx (j : Journal U P) (expected : Batch U) (frozenRef frozenId : U) :
    Except Reason (Tx U P) :=
  match j.batches.get expected.id with
  | none => .error .claimChanged
  | some current => do
    require (expected.claimFields = current.claimFields) .claimChanged
    if (current.state = .ready ∨ current.state = .submitted) ∧ current.frozen = some frozenRef ∧
        current.frozenId = some frozenId then pure []
    else do
      require (expected = current ∧ current.state = .capturing ∧ current.frozen = none ∧
        current.frozenId = none ∧ current.owner j = some current.id) .batchNotCapturing
      pure [.patchBatch current.id (Batch.freeze frozenRef frozenId)]

/-- `origin-schema` of a batch. -/
structure BatchOrigin (U : Type) where
  batch : U
  selection : U
  frozen : U
deriving DecidableEq

/-- The fields of a request that `request-tx` compares. -/
structure RequestFields (U : Type) where
  id : U
  clientId : U
  intentId : U
  knowledgeBatch : Option U
  knowledgeFrozen : Option U
  by_ : U
  room : U
  kind : Schedules.RequestKind
deriving DecidableEq

def requestFields (r : Schedules.Request U) : RequestFields U :=
  ⟨r.id, r.clientId, r.intentId, r.knowledgeBatch, r.knowledgeFrozen, r.by_, r.room, r.kind⟩

/-- The write of `request-tx`. -/
def Batch.link (request intent : U) (b : Batch U) : Batch U :=
  { b with state := .submitted, request := some request, requestIntent := some intent }

/-- `request-tx` of the batch, composed with the insertion of the request. -/
def requestTx (db : Db U P) (origin : BatchOrigin U) (request : Schedules.Request U)
    (intentId : U) : Except Reason (Tx U P) := do
  require (request.kind = .workflow ∧ intentId = request.intentId ∧
    some origin.batch = request.knowledgeBatch ∧ some origin.frozen = request.knowledgeFrozen ∧
    request.id = h.request request.by_ request.room request.clientId) .invalidRequestOrigin
  match db.batches.get origin.batch with
  | none => throw .requestOriginMismatch
  | some current =>
    let recorded := db.schedules.requests.get request.id
    match db.streams.get current.stream with
    | none => throw .requestOriginMismatch
    | some stream =>
      require (origin.selection = current.selectionId ∧ some origin.frozen = current.frozenId ∧
        request.by_ = current.by_ ∧ request.room = current.room ∧ current.by_ = stream.by_ ∧
        current.room = stream.room ∧ current.target = stream.target) .requestOriginMismatch
      match current.request with
      | some linked =>
        require (recorded.map requestFields = some (requestFields request) ∧
          request.id = linked ∧ some intentId = current.requestIntent) .requestConflict
        pure []
      | none =>
        -- an unrelated request is never repaired into a link
        require (recorded = none) .partialRequestLink
        require (current.state = .ready ∧ some origin.batch = stream.activeBatch) .inputsNotReady
        pure [.patchBatch current.id (Batch.link request.id intentId)]

/-- `bound-occurrence` of a batch. -/
def boundOccurrence (db : Db U P) (batch : U) : Except Reason (Option (Schedules.Occurrence U)) :=
  (Schedules.boundOccurrence db.schedules batch
    ((db.batches.get batch).bind (·.scheduledOccurrence))).mapError .schedule

/-- `ready!` of a binding. -/
def readyBatch (db : Db U P) (value : Schedules.BindingValue U) : Except Schedules.Refusal Unit :=
  match db.batches.get value.batch with
  | none => .error (.held "batch-not-ready")
  | some b =>
    match db.streams.get b.stream with
    | none => .error (.held "batch-not-ready")
    | some stream =>
      require (b.state = .ready ∧ b.request = none ∧ b.requestIntent = none ∧
        value.selection = b.selectionId ∧ some value.frozen = b.frozenId ∧ value.by_ = b.by_ ∧
        value.room = b.room ∧ b.frozen.isSome ∧ stream.activeBatch = some value.batch ∧
        value.by_ = stream.by_ ∧ value.room = stream.room ∧ b.target = stream.target)
        (.held "batch-not-ready")

/-- The write of `retention-tx` to the batch. -/
def Batch.schedule (occurrence : U) (b : Batch U) : Batch U :=
  { b with scheduledOccurrence := some occurrence }

/-- `retention-tx`, with the side of the batch. -/
def retentionTx (h : Hasch U P) (db : Db U P) (value : Schedules.BindingValue U) (ref : U) :
    Except Reason (Tx U P) := do
  let forward := (db.batches.get value.batch).bind (·.scheduledOccurrence)
  let writes ← (Schedules.retentionTx h.toHasch db.schedules forward (readyBatch db value) value
    ref).mapError .schedule
  pure (writes.map .schedule ++ [.patchBatch value.batch (Batch.schedule value.occurrence)])

end Simmis.Knowledge
