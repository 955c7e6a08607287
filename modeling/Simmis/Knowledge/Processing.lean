import Simmis.Knowledge.Batches

/-!
# Filing a processed batch

The filing of a disposition, the acceptance of its proposal and its dismissal close a submitted
batch together with its items. A replay verifies the joint result of the first application.
-/

namespace Simmis.Knowledge

variable {U P : Type} [DecidableEq U] [LinearOrder P]

/-- `batch-binding-keys` -/
structure BatchBinding (U : Type) extends ClaimFields U where
  frozen : Option U
  frozenId : Option U
  request : Option U
  requestIntent : Option U
  scheduledOccurrence : Option U
deriving DecidableEq

/-- `batch-binding` -/
def Batch.binding (b : Batch U) : BatchBinding U :=
  ⟨b.claimFields, b.frozen, b.frozenId, b.request, b.requestIntent, b.scheduledOccurrence⟩

/-- `expected`: the writer input from a verified batch proof. -/
structure Proof (U P : Type) where
  origin : BatchOrigin U
  selection : Selection U P
  binding : BatchBinding U
deriving DecidableEq

/-- The members of a batch, at most a hundred of them. -/
def members (j : Journal U P) (batch : U) : List (Item U P) :=
  (j.items.select fun i ↦ i.batch = some batch).take 100

/-- The members are the selected items, off the pending index. -/
def Selection.owns (selection : Selection U P) (stream : U) (rows : List (Item U P)) : Bool :=
  selection.items = (sortByPlace rows).map (·.portable) ∧
    ∀ i ∈ rows, i.stream = stream ∧ i.pendingStream = none

/-- The rows of a batch whose binding was verified. -/
structure Bound (U P : Type) where
  request : Schedules.Request U
  batch : Batch U
  stream : Stream U
  items : List (Item U P)

variable (h : Hasch U P) (db : Db U P) (expected : Proof U P) (value : Disposition U)

/-- `binding!` -/
def boundBatch : Except Reason (Bound U P) := do
  let origin := expected.origin
  let selection := expected.selection
  require (origin.batch = origin.selection ∧ origin.batch = selection.id ∧ selection.sealed h ∧
    some origin.batch = value.batch) .invalidExpectedBatch
  let descriptor := selection.stream
  let rows := members db.toJournal origin.batch
  match db.schedules.requests.get value.request, db.batches.get origin.batch,
    db.streams.get descriptor.id with
  | some row, some batch, some stream =>
    require (expected.binding = batch.binding ∧ row.kind = .workflow ∧ value.intent = row.intentId ∧
      some value.job = row.job ∧ some value.basis = row.publicationBasisId ∧
      row.knowledgeBatch = some origin.batch ∧ row.knowledgeFrozen = some origin.frozen ∧
      origin.selection = batch.selectionId ∧ some origin.frozen = batch.frozenId ∧
      some value.request = batch.request ∧ some value.intent = batch.requestIntent ∧
      descriptor.by_ = batch.by_ ∧ descriptor.room = batch.room ∧
      descriptor.target = batch.target ∧ descriptor.id = batch.stream ∧ descriptor.by_ = row.by_ ∧
      descriptor.room = row.room ∧ rows.length < 100 ∧ selection.owns descriptor.id rows)
      .canonicalBindingMismatch
    validateBinding h descriptor (some stream)
    pure ⟨row, batch, stream, sortByPlace rows⟩
  | _, _, _ => throw .canonicalBindingMismatch

/-- `adoption-binding!` -/
def adoptionBinding (world : World U) (selection : Selection U P) (value : Disposition U)
    (operation : Operation U) : Except Reason Unit := do
  require (world.valid operation) .adoption
  require (value.kind = .proposed ∧ operation.state = .accepted ∧
    value.proposal = some operation.proposal ∧ value.manifest = some operation.manifest ∧
    value.id = operation.disposition ∧ selection.stream.room = operation.room)
    .adoptionBindingMismatch
  let target ← targetId h operation.target
  require (selection.stream.target = target) .adoptionBindingMismatch

/-- `terminal-facts!` -/
def terminalFacts (world : World U) (expected : Operation U) : Except Reason Unit := do
  require (world.valid expected) .adoption
  match world.owner (some expected.component) with
  | none => throw .terminalFactsMismatch
  | some owner =>
    let p := world.proposal owner.proposalEntity
    let f := world.fork owner.fork
    let operation ← world.acceptedOperation owner.fork
    require (expected.state = .accepted ∧ expected.proposal = owner.proposal ∧
      expected.room = owner.room ∧ expected = operation ∧ expected.proposal = p.id ∧
      some expected.filing = p.filingHash ∧ p.status = some .accepted ∧ f.status = some .accepted ∧
      some expected.actor = p.resolvedBy ∧ some expected.actor = f.resolvedBy ∧
      some expected.updatedAt = p.resolvedAt ∧ some expected.updatedAt = f.resolvedAt)
      .terminalFactsMismatch

/-- `accepted-facts!` -/
def acceptedFacts (world : World U) (selection : Selection U P) (value : Disposition U)
    (batch : Batch U) : Except Reason (Operation U) := do
  match batch.adoption with
  | none => throw .missingAdoption
  | some adoption =>
    match ← world.operation adoption with
    | none => throw .adoption
    | some operation =>
      adoptionBinding h world selection value operation
      terminalFacts world operation
      pure operation

/-- `open-proposal?` -/
def openProposal (world : World U) (value : Disposition U) : Except Reason Bool :=
  match world.owner value.manifest with
  | none => .ok false
  | some owner =>
    let p := world.proposal owner.proposalEntity
    let f := world.fork owner.fork
    if value.proposal = some owner.proposal ∧ p.status = some .opened ∧ f.status = none then do
      let operation ← world.currentOperation owner.fork
      pure (∀ o ∈ operation, o.state ≠ .accepted)
    else .ok false

/-- `#"[0-9a-f]{64}"` -/
def filingHash (text : String) : Bool :=
  text.length = 64 ∧ text.toList.all fun c ↦ c.isDigit ∨ ('a' ≤ c ∧ c ≤ 'f')

/-- `dismissal-facts!` -/
def dismissalFacts (world : World U) (value : Disposition U) (batch : Batch U) :
    Except Reason (U × ℤ) := do
  match world.owner value.manifest with
  | none => throw .partialDismissal
  | some owner =>
    let p := world.proposal owner.proposalEntity
    let f := world.fork owner.fork
    match p.resolvedBy, p.resolvedAt with
    | some by_, some at_ =>
      require (value.proposal = some owner.proposal ∧ p.status = some .dismissed ∧
        f.status = some .dismissed ∧ f.resolvedBy = some by_ ∧ f.resolvedAt = some at_ ∧
        batch.decisionFiling.any filingHash ∧ batch.decisionFiling = p.filingHash ∧
        batch.adoption = none) .partialDismissal
      match ← world.withdrawnOperation owner.fork with
      | none => pure (by_, at_)
      | some operation =>
        require (value.proposal = some operation.proposal ∧
          value.manifest = some operation.manifest ∧ value.id = operation.disposition ∧
          batch.room = operation.room ∧ batch.decisionFiling = some operation.filing)
          .withdrawnFilingMismatch
        let target ← targetId h operation.target
        require (batch.target = target) .withdrawnFilingMismatch
        pure (by_, at_)
    | _, _ => throw .partialDismissal

/-- The retraction of the active batch. -/
def Stream.deactivate (s : Stream U) : Stream U := { s with activeBatch := none }

def Item.settle (state : ItemState) (i : Item U P) : Item U P := { i with state := state }

/-- The writes of `filing-tx` to the batch. -/
def Batch.file (disposition : U) (b : Batch U) : Batch U :=
  { b with state := .review, disposition := some disposition }

def Batch.fileNoOp (disposition : U) (b : Batch U) : Batch U :=
  { b with state := .closed, disposition := some disposition, outcome := some .noOp }

/-- A replay of `filing-tx` verifies the whole receipt. -/
def filed (bound : Bound U P) : Except Reason Unit := do
  let batch := bound.batch
  let proposed := value.kind = .proposed
  let accepted := proposed ∧ batch.state = .closed ∧ batch.outcome = some .accepted
  let dismissed := proposed ∧ batch.state = .closed ∧ batch.outcome = some .dismissed
  let itemState : ItemState :=
    if dismissed then .skipped else if proposed ∧ ¬ accepted then .claimed else .processed
  let expectedState : BatchState := if proposed then .review else .closed
  require (some value.id = batch.disposition ∧ some value.id = bound.request.disposition ∧
    (accepted ∨ dismissed ∨ expectedState = batch.state) ∧
    ∀ i ∈ bound.items, i.state = itemState) .partialFiling
  if accepted then do
    require (batch.decisionFiling = none ∧ bound.stream.activeBatch ≠ some batch.id) .partialFiling
    let _ ← acceptedFacts h db.world expected.selection value batch
    pure ()
  else if dismissed then do
    require (bound.stream.activeBatch ≠ some batch.id) .partialFiling
    let _ ← dismissalFacts h db.world value batch
    pure ()
  else if proposed then do
    let opened ← openProposal db.world value
    require (bound.stream.activeBatch = some batch.id ∧ batch.outcome = none ∧
      batch.adoption = none ∧ batch.decisionFiling = none ∧ opened) .partialFiling
  else
    require (batch.outcome = some .noOp ∧ batch.adoption = none ∧ batch.decisionFiling = none ∧
      bound.stream.activeBatch ≠ some batch.id) .partialFiling

/-- `filing-tx` -/
def filingTx : Except Reason (Tx U P) := do
  let bound ← boundBatch h db expected value
  let batch := bound.batch
  if batch.disposition.isSome ∨ bound.request.disposition.isSome then do
    filed h db expected value bound
    pure []
  else do
    require (batch.state = .submitted ∧ bound.stream.activeBatch = some batch.id ∧
      batch.outcome = none ∧ batch.adoption = none ∧ batch.decisionFiling = none ∧
      ∀ i ∈ bound.items, i.state = .claimed) .batchNotSubmitted
    if value.kind = .proposed then pure [.patchBatch batch.id (Batch.file value.id)]
    else pure [.patchBatch batch.id (Batch.fileNoOp value.id),
      .patchStream bound.stream.id Stream.deactivate,
      .patchItems (bound.items.map (·.id)) (Item.settle .processed)]

/-- The write of `acceptance-tx` to the batch. -/
def Batch.accept (adoption : U) (b : Batch U) : Batch U :=
  { b with state := .closed, outcome := some .accepted, adoption := some adoption }

/-- `acceptance-tx` -/
def acceptanceTx (accepted : Operation U) : Except Reason (Tx U P) := do
  adoptionBinding h db.world expected.selection value accepted
  let bound ← boundBatch h db expected value
  let batch := bound.batch
  require (batch.decisionFiling = none ∧ some value.id = batch.disposition ∧
    some value.id = bound.request.disposition) .missingFiling
  if batch.state = .closed then do
    require (batch.outcome = some .accepted) .partialAcceptance
    let operation ← acceptedFacts h db.world expected.selection value batch
    require (accepted = operation ∧ (∀ i ∈ bound.items, i.state = .processed) ∧
      bound.stream.activeBatch ≠ some batch.id) .partialAcceptance
    pure []
  else do
    let current ← db.world.operation accepted.id
    match current with
    | none => throw .acceptancePrestateMismatch
    | some current =>
      require (batch.state = .review ∧ batch.outcome = none ∧ batch.adoption = none ∧
        bound.stream.activeBatch = some batch.id ∧ (∀ i ∈ bound.items, i.state = .claimed) ∧
        current.state = .applying ∧ current.toAdoptionIntent = accepted.toAdoptionIntent ∧
        current.updatedAt ≤ accepted.updatedAt) .acceptancePrestateMismatch
      pure [.patchBatch batch.id (Batch.accept accepted.id),
        .patchStream bound.stream.id Stream.deactivate,
        .patchItems (bound.items.map (·.id)) (Item.settle .processed)]

/-- The write of `dismissal-tx` to the batch. -/
def Batch.dismiss (filing : String) (b : Batch U) : Batch U :=
  { b with state := .closed, outcome := some .dismissed, decisionFiling := some filing }

/-- `dismissal-tx` -/
def dismissalTx (by_ : U) (at_ : ℤ) : Except Reason (Tx U P) := do
  require (value.kind = .proposed) .invalidDismissal
  let bound ← boundBatch h db expected value
  let batch := bound.batch
  require (some value.id = batch.disposition ∧ some value.id = bound.request.disposition)
    .missingFiling
  if batch.state = .closed then do
    require (batch.outcome = some .dismissed) .partialDismissal
    let facts ← dismissalFacts h db.world value batch
    require ((by_, at_) = facts ∧ (∀ i ∈ bound.items, i.state = .skipped) ∧
      bound.stream.activeBatch ≠ some batch.id) .partialDismissal
    pure []
  else do
    let filing := (db.world.owner value.manifest).bind fun owner ↦
      (db.world.proposal owner.proposalEntity).filingHash
    let opened ← openProposal db.world value
    match filing with
    | none => throw .dismissalPrestateMismatch
    | some filing =>
      require (batch.state = .review ∧ batch.outcome = none ∧ batch.adoption = none ∧
        batch.decisionFiling = none ∧ bound.stream.activeBatch = some batch.id ∧
        (∀ i ∈ bound.items, i.state = .claimed) ∧ opened ∧ filingHash filing)
        .dismissalPrestateMismatch
      pure [.patchBatch batch.id (Batch.dismiss filing),
        .patchStream bound.stream.id Stream.deactivate,
        .patchItems (bound.items.map (·.id)) (Item.settle .skipped)]

end Simmis.Knowledge
