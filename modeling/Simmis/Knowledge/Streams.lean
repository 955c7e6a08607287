import Simmis.Knowledge.Rows
import Mathlib.Data.List.Sort
import Mathlib.Data.Prod.Lex

/-!
# The discovery journal

A discovery moves the cursor of a stream to a later snapshot of its source and queues the versions
that became current triggers. An exact replay writes nothing and any other move of the cursor
conflicts.
-/

namespace Simmis.Knowledge

variable {U P : Type} [DecidableEq U] [LinearOrder P]

/-- `pos-int?` and the ranges of the counters of a stream row. -/
def Stream.counted (s : Stream U) : Bool :=
  0 < s.revision ∧ s.revision < longMax ∧ s.batchGeneration ≤ longMax ∧
    s.nextOrder ≤ longMax - maxChanges

/-- `validate-basis!` -/
def validateBasis (basis : Basis U) : Except Reason Unit :=
  require (1 ≤ basis.ref.length ∧ basis.ref.length ≤ 512 ∧ basis.maxTx ≤ longMax ∧
    basis.datoms ≤ longMax) .invalidBasis

variable (h : Hasch U P)

/-- `(= value (descriptor (dissoc value :id)))` -/
def Descriptor.sealed (value : Descriptor U) : Bool :=
  value.id = h.descriptor value.toDescriptorFacts

/-- `validate-binding!` -/
def validateBinding (value : Descriptor U) (expected : Option (Stream U)) : Except Reason Unit := do
  require (value.sealed h) .invalidDescriptor
  match expected with
  | none => pure ()
  | some s =>
    require (value = s.toDescriptor ∧ s.counted ∧ s.cursorTx ≤ longMax) .invalidStreamBinding

/-- `admissible!`: nil is an uncreated stream. -/
def admissible (row : Option (Stream U)) : Except Reason Unit :=
  require (∀ s ∈ row, s.state = .active) .streamClosed

/-- `item-id` -/
def itemId (stream : U) (path : P) (metadata : Version U) : U := h.item stream path metadata

/-- The place of an item in the order of its stream. -/
def Item.place (i : Item U P) : ℕ ×ₗ P := toLex (i.order, i.path)

/-- `(sort-by (juxt :knowledge.item/order :knowledge.item/path) rows)` -/
def sortByPlace (rows : List (Item U P)) : List (Item U P) :=
  rows.insertionSort fun a b ↦ a.place ≤ b.place

/-- The check of one row of the pending index. -/
def Item.queued (id : U) (i : Item U P) : Bool :=
  i.stream = id ∧ i.state = .pending ∧ i.version.mode = 33188 ∧ i.id = itemId h id i.path i.version

variable (j : Journal U P)

/-- `pending-items` -/
def pendingItems (id : U) : Except Reason (List (Item U P)) := do
  let rows := j.items.select fun i ↦ i.pendingStream = some id
  require (rows.length ≤ maxChanges) .pendingInventoryLimit
  require (∀ i ∈ rows, i.queued h id) .invalidPendingIndex
  pure (sortByPlace rows)

/-- `file-schema` -/
def File.valid (file : File U) : Bool := file.size ≤ longMax ∧ file.mode = 33188

/-- The kind that `:before` and `:after` determine. -/
def PathChange.expectedKind (c : PathChange U P) : Kind :=
  if c.before = none then .added else if c.after = none then .removed else .modified

variable (plan : Plan U P)

/-- `validate-plan!` -/
def validatePlan : Except Reason Unit := do
  require (plan.changes.length ≤ maxChanges) .invalidPlan
  (plan.before.toList ++ [plan.after]).forM fun basis ↦
    require (1 ≤ basis.ref.length ∧ basis.ref.length ≤ 512 ∧ basis.maxTx ≤ longMax ∧
      basis.datoms ≤ longMax) .invalidPlan
  require (∀ before ∈ plan.before,
    h.source before.toSourceFacts = h.source plan.after.toSourceFacts ∧
      before.maxTx ≤ plan.after.maxTx) .sourceConflict
  require (plan.before = none →
    ∀ c ∈ plan.changes, c.kind = .added ∧ c.before = none) .invalidBootstrap
  require ((plan.changes.map (·.path)).Pairwise (· < ·)) .invalidChangeOrder
  require (∀ c ∈ plan.changes, c.before ≠ c.after ∧ (∀ file ∈ c.before, file.valid) ∧
    (∀ file ∈ c.after, file.valid) ∧ c.kind = c.expectedKind) .invalidChange
  require (h.planBytes plan ≤ maxPlanBytes) .planTooLarge

/-- The file that a change makes a current trigger. -/
def PathChange.trigger (c : PathChange U P) : Option (File U) := c.after.filter (·.role = .trigger)

/-- The versions that a plan makes current triggers, with their paths. -/
def Plan.triggers : List (P × Version U) :=
  plan.changes.filterMap fun c ↦ c.trigger.map fun file ↦ (c.path, file.toVersion)

/-- `discovery-id` -/
def discoveryId (descriptor : Descriptor U) (expected : Option (Stream U)) (plan : Plan U P)
    (root : U) : U :=
  h.discovery descriptor.id expected (h.plan plan) root

/-- The baseline of a plan is the cursor of its stream. -/
def Plan.continues : Option (Stream U) → Bool
  | none => plan.before.isNone
  | some s => plan.before.any fun before ↦
    s.source = h.source plan.after.toSourceFacts ∧ s.source = h.source before.toSourceFacts ∧
      s.cursorCommit = before.commit ∧ s.cursorTx = before.maxTx

/-- The state of the item of a version. -/
def stateOf (id : U) (version : P × Version U) : Option ItemState :=
  (j.items.get (itemId h id version.1 version.2)).map (·.state)

/-- A version is queued unless it waits, was processed or was skipped. -/
def eligible (id : U) (version : P × Version U) : Bool :=
  ∀ state ∈ stateOf h j id version, state = .superseded ∨ state = .removed

/-- The pending item that a change of its path displaces. -/
def displaces (id : U) (plan : Plan U P) (i : Item U P) : Bool :=
  i.stream = id ∧ i.state = .pending ∧ i.path ∈ plan.changes.map (·.path) ∧
    i.id ∉ plan.triggers.map fun v ↦ itemId h id v.1 v.2

/-- Superseded by another version of its path, or removed with it. -/
def displace (did : U) (i : Item U P) : Item U P :=
  let change := plan.changes.find? (·.path = i.path)
  { i with
    state := if (change.bind (·.after)).isSome then .superseded else .removed, discovery := did,
    pendingStream := none }

/-- The row of a queued version, written over an old one. -/
def queue (id did : U) (order : ℕ) (version : P × Version U) : Item U P where
  id := itemId h id version.1 version.2
  stream := id
  pendingStream := some id
  path := version.1
  version := version.2
  order := order
  state := .pending
  discovery := did
  batch := (j.items.get (itemId h id version.1 version.2)).bind (·.batch)

/-- The queued rows, in the order of their paths. -/
def queueAll (id did : U) (start : ℕ) (versions : List (P × Version U)) : List (Item U P) :=
  versions.mapIdx fun n version ↦ queue h j id did (start + n) version

/-- The cursor row after a discovery, with the old row's other fields. -/
def moveCursor (value : Descriptor U) (current : Option (Stream U)) (plan : Plan U P) (root did : U)
    (queued : ℕ) : Stream U where
  toDescriptor := value
  source := h.source plan.after.toSourceFacts
  revision := current.elim 0 (·.revision) + 1
  nextOrder := current.elim 0 (·.nextOrder) + queued
  batchGeneration := current.elim 0 (·.batchGeneration)
  state := .active
  cursorCommit := plan.after.commit
  cursorRoot := root
  cursorTx := plan.after.maxTx
  lastDiscovery := did
  activeBatch := current.bind (·.activeBatch)

/-- `discovery-tx` -/
def discoveryTx (value : Descriptor U) (expected : Option (Stream U)) (plan : Plan U P)
    (root payloadRef : U) :
    Except Reason (Tx U P) := do
  require (value.sealed h) .invalidDescriptor
  validatePlan h plan
  let id := value.id
  let current := j.streams.get id
  let did := discoveryId h value expected plan root
  match j.discoveries.get did with
  | some existing =>
    require (id = existing.stream ∧ h.plan plan = existing.payloadId ∧
      payloadRef = existing.payload ∧ expected.elim 0 (·.revision) + 1 = existing.revision ∧
      expected.map (·.cursorRoot) = existing.beforeRoot ∧ root = existing.afterRoot)
      .discoveryConflict
    pure []
  | none =>
    require (expected = current) .cursorConflict
    admissible current
    -- discovery is serialized with the retention and the processing of a batch
    require (current.bind (·.activeBatch) = none) .batchActive
    require (j.items.select (fun i ↦ i.stream = id ∧ i.state = .claimed) = []) .orphanedClaim
    require (∀ s ∈ current, s.counted) .invalidStreamCounters
    require (∀ s ∈ current, value = s.toDescriptor) .descriptorConflict
    require (plan.continues h current) .baselineConflict
    require (some root ≠ current.map (·.cursorRoot)) .pinReused
    require (∀ v ∈ plan.triggers, stateOf h j id v ≠ some .claimed) .invalidItemState
    let fresh := plan.triggers.filter (eligible h j id)
    let start := current.elim 0 (·.nextOrder)
    let displaced := (j.items.select (displaces h id plan)).map (·.id)
    let event : Discovery U :=
      { id := did
        stream := id
        revision := current.elim 0 (·.revision) + 1
        payload := payloadRef
        payloadId := h.plan plan
        beforeRoot := current.map (·.cursorRoot)
        afterRoot := root
        oldRootReleased := current.isNone }
    pure [.discovery event, .stream (moveCursor h value current plan root did fresh.length),
      .patchItems displaced (displace plan did), .items (queueAll h j id did start fresh)]

end Simmis.Knowledge
