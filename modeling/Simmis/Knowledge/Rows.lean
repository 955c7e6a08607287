import Simmis.Schedules.Batches

/-!
# Rows of the knowledge journal

The journal rows that share a knowledge stream: its cursor, the source versions, the discoveries,
the batches and the pins. Requests, schedules, proposals and adoptions are rows of other journals
that the fragments compare.
-/

namespace Simmis.Knowledge

/-- `Long/MAX_VALUE` -/
def longMax : ℕ := 2 ^ 63 - 1

/-- `max-changes` -/
def maxChanges : ℕ := 20000

/-- `max-plan-bytes` -/
def maxPlanBytes : ℕ := 16 * 1024 * 1024

/-- The metadata that identifies a version of a file. -/
structure Version (U : Type) where
  content : U
  size : ℕ
  mode : ℕ
deriving DecidableEq

inductive Role where
  | trigger | context
deriving DecidableEq, Repr

structure File (U : Type) extends Version U where
  role : Role
deriving DecidableEq

inductive Kind where
  | added | removed | modified
deriving DecidableEq, Repr

/-- One entry of `:changes`. -/
structure PathChange (U P : Type) where
  path : P
  kind : Kind
  before : Option (File U)
  after : Option (File U)
deriving DecidableEq

structure SourceFacts (U : Type) where
  repository : U
  store : U
  backend : String
  branch : String
  ref : String
  configuration : U
deriving DecidableEq

structure Basis (U : Type) extends SourceFacts U where
  commit : U
  maxTx : ℕ
  datoms : ℕ
deriving DecidableEq

structure Plan (U P : Type) where
  before : Option (Basis U)
  after : Basis U
  changes : List (PathChange U P)
deriving DecidableEq

structure DescriptorFacts (U : Type) where
  by_ : U
  room : U
  target : U
  policy : U
  program : U
  epoch : U
deriving DecidableEq

structure Descriptor (U : Type) extends DescriptorFacts U where
  id : U
deriving DecidableEq

inductive StreamState where
  | active | retiring | retired
deriving DecidableEq, Repr

/-- `:knowledge.stream/...` -/
structure Stream (U : Type) extends Descriptor U where
  source : U
  revision : ℕ
  nextOrder : ℕ
  batchGeneration : ℕ
  state : StreamState
  cursorCommit : U
  cursorRoot : U
  cursorTx : ℕ
  lastDiscovery : U
  activeBatch : Option U
deriving DecidableEq

inductive ItemState where
  | pending | claimed | processed | skipped | superseded | removed
deriving DecidableEq, Repr

/-- `:knowledge.item/...`; `pendingStream` is the derived lookup key of pending items. -/
structure Item (U P : Type) where
  id : U
  stream : U
  pendingStream : Option U
  path : P
  version : Version U
  order : ℕ
  state : ItemState
  discovery : U
  batch : Option U
deriving DecidableEq

/-- `:knowledge.discovery/...` -/
structure Discovery (U : Type) where
  id : U
  stream : U
  revision : ℕ
  payload : U
  payloadId : U
  beforeRoot : Option U
  afterRoot : U
  oldRootReleased : Bool
deriving DecidableEq

/-- The projection of an item that selections and receipts compare. -/
structure Portable (U P : Type) where
  id : U
  order : ℕ
  path : P
  version : Version U
deriving DecidableEq

/-- A selection without its identity. What is only hashed stands for its content. -/
structure SelectionFacts (U P : Type) where
  version : ℕ
  stream : Descriptor U
  expected : Stream U
  basis : Basis U
  batchPolicy : U
  reserved : U
  items : List (Portable U P)
  remaining : ℕ
  evidence : U
deriving DecidableEq

structure Selection (U P : Type) extends SelectionFacts U P where
  id : U
deriving DecidableEq

inductive BatchState where
  | capturing | ready | submitted | review | closed
deriving DecidableEq, Repr

inductive Outcome where
  | noOp | accepted | dismissed | abandonedSkip | abandonedRequeue | failedRequeued
deriving DecidableEq, Repr

inductive Mode where
  | skip | requeue | freshUpdate
deriving DecidableEq, Repr

inductive Failure where
  | candidateFailed | jobFailed
deriving DecidableEq, Repr

/-- What the host observed of the failed native work. -/
structure Native (U : Type) where
  kind : Failure
  job : U
  status : Schedules.JobStatus
  core : U
  adapter : U
  family : U
  candidate : Option U
  attemptContent : Option U
deriving DecidableEq

/-- `:knowledge.batch/recovery-...` -/
structure Recovery (U : Type) where
  id : U
  client : U
  by_ : U
  at_ : ℤ
  reason : String
  from_ : BatchState
  mode : Mode
  /-- `recovery-generation-before` and `recovery-generation-after` -/
  generations : Option (ℕ × ℕ)
  /-- The request and the native receipt of a submitted recovery, of version 1. -/
  submitted : Option (U × Native U)
deriving DecidableEq

/-- `:knowledge.batch/...` -/
structure Batch (U : Type) where
  id : U
  stream : U
  by_ : U
  room : U
  target : U
  claim : U
  state : BatchState
  selection : U
  selectionId : U
  frozen : Option U
  frozenId : Option U
  request : Option U
  requestIntent : Option U
  scheduledOccurrence : Option U
  disposition : Option U
  outcome : Option Outcome
  adoption : Option U
  decisionFiling : Option String
  recovery : Option (Recovery U)
deriving DecidableEq

inductive PinState where
  | creating | pinned | committed | retained | released
deriving DecidableEq, Repr

/-- `:knowledge.pin/retirement-...` -/
structure Audit (U : Type) where
  id : U
  client : U
  by_ : U
  at_ : ℤ
  reason : String
  streamBinding : U
  pinBinding : U
deriving DecidableEq

/-- `:knowledge.pin/...` -/
structure Pin (U : Type) where
  id : U
  stream : U
  activeStream : Option U
  claim : U
  by_ : U
  room : U
  target : U
  state : PinState
  payload : U
  payloadId : U
  discovery : Option U
  retirement : Option (Audit U)
deriving DecidableEq

structure Target (U : Type) where
  repository : U
  store : U
  backend : String
  branch : String
  ref : String
  registrySystem : Option U
  runtimeSystem : Option String
deriving DecidableEq

structure Origin (U : Type) where
  target : Target U
  targetStamp : U
  workflow : String
  sourceRevision : U
deriving DecidableEq

structure Payload (U : Type) where
  stream : Descriptor U
  expected : Option (Stream U)
  basis : Basis U
  origin : Origin U
deriving DecidableEq

/-- `pin-fields`, the entity apart. -/
structure PinFields (U : Type) where
  id : U
  stream : U
  claim : U
  by_ : U
  room : U
  target : U
  payload : U
  payloadId : U
  discovery : Option U
deriving DecidableEq

inductive AdoptionState where
  | claimed | applying | aborted | accepted
deriving DecidableEq, Repr

/-- The fields of an adoption operation that later states leave alone. -/
structure AdoptionIntent (U : Type) where
  id : U
  version : ℕ
  intent : U
  token : U
  proposal : U
  component : U
  manifest : U
  room : U
  actor : U
  filing : String
  disposition : U
  target : Target U
  createdAt : ℤ
  reason : Option String
  reviewRevision : Option U
deriving DecidableEq

/-- `:file.adoption/...` -/
structure Operation (U : Type) extends AdoptionIntent U where
  state : AdoptionState
  updatedAt : ℤ
  commit : Option U
  head : Option U
  noop : Option Bool
  reconciledBy : Option U
deriving DecidableEq

/-- `manifests/owner` -/
structure Owner (U : Type) where
  proposal : U
  room : U
  fork : U
  proposalEntity : U
deriving DecidableEq

inductive ProposalState where
  | opened | accepted | dismissed
deriving DecidableEq, Repr

structure Proposal (U : Type) where
  id : U
  status : Option ProposalState
  filingHash : Option String
  resolvedBy : Option U
  resolvedAt : Option ℤ
deriving DecidableEq

structure Fork (U : Type) where
  status : Option ProposalState
  resolvedBy : Option U
  resolvedAt : Option ℤ
deriving DecidableEq

inductive DispositionKind where
  | proposed | noOp
deriving DecidableEq, Repr

/-- The facts of a filing receipt that the batch journal compares. -/
structure Disposition (U : Type) where
  id : U
  kind : DispositionKind
  batch : Option U
  request : U
  intent : U
  job : U
  basis : U
  manifest : Option U
  proposal : Option U
deriving DecidableEq

/-- The `:reason` of a refusal, or the exception of another journal. -/
inductive Reason where
  | invalidDescriptor | streamClosed | pendingInventoryLimit | invalidPendingIndex | invalidBasis
  | invalidPlan | sourceConflict | invalidBootstrap | invalidChangeOrder | invalidChange
  | planTooLarge | invalidStreamBinding | discoveryConflict | cursorConflict | batchActive
  | orphanedClaim | invalidStreamCounters | descriptorConflict | baselineConflict | pinReused
  | invalidItemState
  | invalidSelection | batchConflict | streamNotReady | pendingPrefixChanged | claimChanged
  | batchNotCapturing | invalidRequestOrigin | requestOriginMismatch | requestConflict
  | partialRequestLink | inputsNotReady
  | invalidExpectedBatch | canonicalBindingMismatch | adoptionBindingMismatch | missingAdoption
  | terminalFactsMismatch | partialDismissal | withdrawnFilingMismatch | partialFiling
  | batchNotSubmitted | missingFiling | partialAcceptance | acceptancePrestateMismatch
  | invalidDismissal | dismissalPrestateMismatch
  | invalidDecision | batchOrMembersChanged | conflictingResolution | requestLinked
  | scheduleBindingChanged | generationExhausted | partialOrConflictingRecovery
  | batchNotAbandonable | invalidNativeProof | invalidExpected | bindingChanged
  | conflictingRecovery | batchNotRecoverable
  | invalidOrigin | originMismatch | invalidStream | cleanupPending | pinIntentBusy | rootIdReused
  | intentChanged | invalidState | discoveryMismatch | cleanupBindingMismatch
  | streamOrPinChanged | cursorBasisChanged | streamNotClean | pinNotRetirable
  | partialOrConflictingRetirement | partialRetirement | retirementNotBegun
  | batchNotReady
  | schedule (refusal : Schedules.Refusal)
  | adoption
deriving DecidableEq, Repr

variable {U P : Type} [DecidableEq U]

/-- `hasch/uuid` of the values that identify journal rows, and what other libraries derive. -/
structure Hasch (U P : Type) extends Schedules.Hasch U where
  /-- `[:simmis/knowledge-stream-v1 value]` -/
  descriptor : DescriptorFacts U → U
  /-- `[:simmis/knowledge-item-v1 stream-id path metadata]` -/
  item : U → P → Version U → U
  item_injective : ∀ {s s' p p' v v'}, item s p v = item s' p' v' → s = s' ∧ p = p' ∧ v = v'
  /-- `[:simmis/knowledge-source-v1 ...]` -/
  source : SourceFacts U → U
  plan : Plan U P → U
  /-- The length of `pr-str` of a plan, in UTF-8. -/
  planBytes : Plan U P → ℕ
  /-- `[:simmis/knowledge-discovery-v1 id expected plan root]` -/
  discovery : U → Option (Stream U) → U → U → U
  /-- `[:simmis/knowledge-batch-selection-v2 value]` -/
  selection : SelectionFacts U P → U
  selection_injective : ∀ {a b}, selection a = selection b → a = b
  /-- `[:simmis/knowledge-batch-recovery-v1 batch room by client]` -/
  batchRecovery : U → U → U → U → U
  /-- `[:simmis/submitted-knowledge-recovery-v1 batch request room by client]` -/
  submittedRecovery : U → U → U → U → U → U
  payload : Payload U → U
  /-- `[:simmis/knowledge-owned-target-v1 target]` -/
  target : Target U → U
  /-- `[:simmis/knowledge-stream-retirement-v1 stream root by client]` -/
  retirement : U → U → U → U → U
  streamBinding : Stream U → U
  pinBinding : PinFields U → U
  /-- `job-cleanup-ack-id` of the two cleanups and `family-return-ack-id`. -/
  coreAck : U → U
  adapterAck : U → U
  familyAck : U → U

/-- What the adoption and proposal journals answer; their readers refuse corrupt rows. -/
structure World (U : Type) where
  /-- Whether `adoptions/validate!` accepts. -/
  valid : Operation U → Bool
  /-- `adoptions/operation` -/
  operation : U → Except Reason (Option (Operation U))
  /-- `adoptions/accepted-operation` -/
  acceptedOperation : U → Except Reason (Operation U)
  /-- `adoptions/current-operation` -/
  currentOperation : U → Except Reason (Option (Operation U))
  /-- `adoptions/withdrawn-operation` -/
  withdrawnOperation : U → Except Reason (Option (Operation U))
  /-- `manifests/owner` -/
  owner : Option U → Option (Owner U)
  proposal : U → Proposal U
  fork : U → Fork U

def World.empty [Inhabited U] : World U where
  valid _ := true
  operation _ := .ok none
  acceptedOperation _ := .error .adoption
  currentOperation _ := .ok none
  withdrawnOperation _ := .ok none
  owner _ := none
  proposal _ := ⟨default, none, none, none, none⟩
  fork _ := ⟨none, none, none⟩

structure Journal (U P : Type) [DecidableEq U] where
  streams : Table (fun s : Stream U ↦ s.id)
  items : Table (Item.id (U := U) (P := P))
  discoveries : Table (Discovery.id (U := U))
  batches : Table (Batch.id (U := U))
  pins : Table (Pin.id (U := U))

def Journal.init : Journal U P := ⟨.empty, .empty, .empty, .empty, .empty⟩

structure Db (U P : Type) [DecidableEq U] extends Journal U P where
  schedules : Schedules.Db U
  world : World U

inductive Write (U P : Type) where
  | stream (row : Stream U)
  | patchStream (id : U) (fields : Stream U → Stream U)
  | items (rows : List (Item U P))
  | patchItems (ids : List U) (fields : Item U P → Item U P)
  | discovery (row : Discovery U)
  | patchDiscovery (id : U) (fields : Discovery U → Discovery U)
  | batch (row : Batch U)
  | patchBatch (id : U) (fields : Batch U → Batch U)
  | pin (row : Pin U)
  | patchPin (id : U) (fields : Pin U → Pin U)
  | schedule (write : Schedules.Write U)

/-- The fields of the rows with one of the identities. -/
def among (ids : List U) (fields : Item U P → Item U P) (i : Item U P) : Item U P :=
  if i.id ∈ ids then fields i else i

variable (j : Journal U P)

def Journal.write : Write U P → Journal U P
  | .stream row => { j with streams := j.streams.put row }
  | .patchStream id fields => { j with streams := j.streams.modify id fields }
  | .items rows => { j with items := j.items.putAll rows }
  | .patchItems ids fields => { j with items := j.items.mapRows (among ids fields) }
  | .discovery row => { j with discoveries := j.discoveries.put row }
  | .patchDiscovery id fields => { j with discoveries := j.discoveries.modify id fields }
  | .batch row => { j with batches := j.batches.put row }
  | .patchBatch id fields => { j with batches := j.batches.modify id fields }
  | .pin row => { j with pins := j.pins.put row }
  | .patchPin id fields => { j with pins := j.pins.modify id fields }
  | .schedule _ => j

def scheduleWrite (db : Schedules.Db U) : Write U P → Schedules.Db U
  | .schedule write => db.write write
  | _ => db

/-- The datoms of one transaction function. -/
abbrev Tx (U P : Type) := List (Write U P)

def Journal.apply (writes : Tx U P) : Journal U P := writes.foldl Journal.write j

def Db.apply (db : Db U P) (writes : Tx U P) : Db U P where
  toJournal := db.toJournal.apply writes
  schedules := writes.foldl scheduleWrite db.schedules
  world := db.world

@[simp] theorem Journal.apply_nil : j.apply [] = j := rfl

@[simp] theorem Journal.apply_cons (w : Write U P) (writes : Tx U P) :
    j.apply (w :: writes) = (j.write w).apply writes := rfl

theorem Journal.apply_append (first second : Tx U P) :
    j.apply (first ++ second) = (j.apply first).apply second := List.foldl_append

/-- Writes to the schedule rows leave the journal alone. -/
theorem Journal.apply_schedule (writes : Schedules.Tx U) : j.apply (writes.map .schedule) = j := by
  induction writes with
  | nil => rfl
  | cons w writes ih => exact ih

end Simmis.Knowledge
