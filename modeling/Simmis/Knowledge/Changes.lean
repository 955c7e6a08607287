import Simmis.Knowledge.Writer

/-!
# What one step can do

`Change` lists the changes that an accepted fragment makes to the journal rows, each with what the
fragment has checked. Every fragment leaves a marker by which it recognises its own past effect.
-/

namespace Simmis.Knowledge

variable {U P : Type} [DecidableEq U] [LinearOrder P]

variable (h : Hasch U P) (j : Journal U P)

/-- The row of a discovery. -/
def discoveryEvent (value : Descriptor U) (plan : Plan U P) (root payloadRef did : U) :
    Discovery U where
  id := did
  stream := value.id
  revision := (j.streams.get value.id).elim 0 (·.revision) + 1
  payload := payloadRef
  payloadId := h.plan plan
  beforeRoot := (j.streams.get value.id).map (·.cursorRoot)
  afterRoot := root
  oldRootReleased := (j.streams.get value.id).isNone

/-- The versions that a discovery queues. -/
def freshVersions (id : U) (plan : Plan U P) : List (P × Version U) :=
  plan.triggers.filter (eligible h j id)

/-- The items that a discovery displaces. -/
def displacedIds (id : U) (plan : Plan U P) : List U :=
  (j.items.select (displaces h id plan)).map (·.id)

/-- The journal after a discovery. -/
def Journal.discovered (value : Descriptor U) (plan : Plan U P) (root payloadRef did : U) :
    Journal U P :=
  let current := j.streams.get value.id
  let fresh := freshVersions h j value.id plan
  { j with
    discoveries := j.discoveries.put (discoveryEvent h j value plan root payloadRef did)
    streams := j.streams.put (moveCursor h value current plan root did fresh.length)
    items := (j.items.mapRows (among (displacedIds h j value.id plan) (displace plan did))).putAll
      (queueAll h j value.id did (current.elim 0 (·.nextOrder)) fresh) }

/-- What a discovery has checked. -/
structure Discovering (h : Hasch U P) (j : Journal U P) (value : Descriptor U) (plan : Plan U P)
    (root did : U) : Prop where
  fresh : j.discoveries.get did = none
  ordered : (plan.changes.map (·.path)).Pairwise (· < ·)
  ready : ∀ s ∈ j.streams.get value.id, s.state = .active ∧ s.activeBatch = none ∧
    value = s.toDescriptor
  unclaimed : ∀ id i, j.items.get id = some i → i.stream = value.id → i.state ≠ .claimed
  unused : some root ≠ (j.streams.get value.id).map (·.cursorRoot)
  decided : ∀ v ∈ plan.triggers, stateOf h j value.id v ≠ some .claimed

/-- The items of a batch are the selected ones. -/
structure Owning (h : Hasch U P) (j : Journal U P) (b : Batch U) (s : Stream U)
    (selection : SelectionFacts U P) (items : List (Item U P)) : Prop where
  batch : j.batches.get b.id = some b
  stream : j.streams.get s.id = some s
  home : b.stream = s.id
  identity : h.selection selection = b.id
  listed : selection.items = items.map (·.portable)
  stored : ∀ i ∈ items, j.items.get i.id = some i
  members : ∀ id i, j.items.get id = some i → (i ∈ items ↔ i.batch = some b.id)
  streamed : ∀ i ∈ items, i.stream = s.id

/-- What a claim has checked. -/
structure Claiming (h : Hasch U P) (j : Journal U P) (selection : Selection U P) (s : Stream U)
    (selected : List (Item U P)) : Prop where
  identity : selection.id = h.selection selection.toSelectionFacts
  nonempty : selection.items ≠ []
  fresh : j.batches.get selection.id = none
  stream : j.streams.get s.id = some s
  home : selection.stream.id = s.id
  expected : selection.expected = s
  free : s.activeBatch = none
  admitted : s.state = .active
  unpinned : active j s.id = none
  retained : ∃ p, j.pins.get s.cursorRoot = some p ∧ p.state = .retained
  listed : selection.items = selected.map (·.portable)
  pending : ∀ i ∈ selected, j.items.get i.id = some i ∧ i.stream = s.id ∧ i.state = .pending

/-- The journal after a claim. -/
def Journal.claimed (selection : Selection U P) (ref token : U) (selected : List (Item U P)) :
    Journal U P :=
  { j with
    batches := j.batches.put (capture selection ref token)
    streams := j.streams.modify selection.stream.id (Stream.activate selection.id)
    items := j.items.mapRows (among (selected.map (·.id)) (Item.claim selection.id)) }

/-- What a patch of a batch leaves alone. -/
structure Batch.Keeps (b b' : Batch U) : Prop where
  stream : b'.stream = b.stream
  frozen : Kept b.frozen b'.frozen
  request : Kept b.request b'.request
  occurrence : Kept b.scheduledOccurrence b'.scheduledOccurrence
  disposition : Kept b.disposition b'.disposition

/-- A patch that neither opens nor closes a batch. -/
structure Batch.Noted (b b' : Batch U) : Prop extends Batch.Keeps b b' where
  before : b.state ≠ .closed
  after : b'.state ≠ .closed

def Outcome.requeues : Outcome → Bool
  | .abandonedRequeue | .failedRequeued => true
  | _ => false

/-- Where the items of a batch go when it closes. -/
def Outcome.settle (stream : U) : Outcome → Item U P → Item U P
  | .noOp | .accepted => Item.settle .processed
  | .dismissed | .abandonedSkip => Item.settle .skipped
  | .abandonedRequeue | .failedRequeued => Item.requeue stream

/-- What a closing stream loses, and the generation that a requeue gives it. -/
def Stream.close : Option ℕ → Stream U → Stream U
  | none => Stream.deactivate
  | some generation => Stream.regenerate generation

/-- A requeue closes the batch of an unchanged stream row and takes the next generation. -/
def Outcome.Generates (outcome : Outcome) (b : Batch U) (s : Stream U)
    (selection : SelectionFacts U P) (generation : Option ℕ) : Prop :=
  if outcome.requeues then
    selection.expected.activate b.id = s ∧
      generation = some (selection.expected.batchGeneration + 1)
  else generation = none

/-- What a closing step has checked. -/
structure Closing (h : Hasch U P) (j : Journal U P) (b : Batch U) (fields : Batch U → Batch U)
    (s : Stream U) (selection : SelectionFacts U P) (items : List (Item U P)) (outcome : Outcome)
    (generation : Option ℕ) : Prop extends Owning h j b s selection items where
  id : ∀ r, (fields r).id = r.id
  keeps : b.Keeps (fields b)
  before : b.state ≠ .closed
  after : (fields b).state = .closed
  recorded : (fields b).outcome = some outcome
  running : s.activeBatch = some b.id
  claimed : ∀ i ∈ items, i.state = .claimed
  generates : outcome.Generates b s selection generation

/-- The journal after a batch was closed with its items. -/
def Journal.closed (b : Batch U) (fields : Batch U → Batch U) (s : Stream U)
    (items : List (Item U P)) (outcome : Outcome) (generation : Option ℕ) : Journal U P :=
  { j with
    batches := j.batches.modify b.id fields
    streams := j.streams.modify s.id (Stream.close generation)
    items := j.items.mapRows (among (items.map (·.id)) (outcome.settle s.id)) }

/-- The journal after `finish-tx` of pins. -/
def Journal.finished (p : Pin U) (event : Discovery U) : Journal U P :=
  let retained := j.pins.modify p.id Pin.retain
  { j with
    discoveries := j.discoveries.modify event.id Discovery.cleanUp
    pins := event.beforeRoot.elim retained fun root ↦ retained.modify root Pin.release }

/-- What `finish-tx` of pins has checked. -/
structure Finishing (j : Journal U P) (p : Pin U) (event : Discovery U) (s : Stream U) : Prop where
  pin : j.pins.get p.id = some p
  recorded : p.discovery = some event.id
  logged : j.discoveries.get event.id = some event
  stream : j.streams.get s.id = some s
  home : p.stream = s.id
  state : p.state = .committed
  cursor : p.id = s.cursorRoot
  after : p.id = event.afterRoot
  old : ∀ root ∈ event.beforeRoot, ∃ old, j.pins.get root = some old ∧ old.state = .retained ∧
    old.stream = p.stream

/-- What `begin-tx` of a retirement has checked. -/
structure Beginning (j : Journal U P) (s : Stream U) (p : Pin U) : Prop where
  stream : j.streams.get s.id = some s
  pin : j.pins.get p.id = some p
  cursor : p.id = s.cursorRoot
  admitted : s.state = .active
  free : s.activeBatch = none
  unpinned : active j s.id = none
  clean : ∀ id i, j.items.get id = some i → i.stream = s.id →
    i.state ≠ .pending ∧ i.state ≠ .claimed

/-- What `finish-tx` of a retirement has checked. -/
structure Retirement (j : Journal U P) (s : Stream U) (p : Pin U) : Prop where
  stream : j.streams.get s.id = some s
  pin : j.pins.get p.id = some p
  cursor : p.id = s.cursorRoot
  home : p.stream = s.id
  fenced : s.state = .retiring
  retained : p.state = .retained

/-- One change of the journal; the index names the stream whose cursor it moves. -/
inductive Change (h : Hasch U P) (step : Step U P) (j : Journal U P) :
    Option (U × Plan U P) → Journal U P → Prop
  | idle : Change h step j none j
  | discover (value : Descriptor U) (plan : Plan U P) (root payloadRef did : U)
    (horigin : (∃ expected, step = .discovery value expected plan root payloadRef) ∨
      ∃ p, j.pins.get root = some p ∧ p.discovery = some did)
    (hdiscovering : Discovering h j value plan root did) :
    Change h step j (some (value.id, plan)) (j.discovered h value plan root payloadRef did)
  | commit (value : Descriptor U) (plan : Plan U P) (payloadRef did : U) (p : Pin U)
    (hpin : j.pins.get p.id = some p) (hstate : p.state = .pinned) (hhome : p.stream = value.id)
    (hdiscovering : Discovering h j value plan p.id did) :
    Change h step j (some (value.id, plan))
      { j.discovered h value plan p.id payloadRef did with
        pins := j.pins.modify p.id (Pin.commit did) }
  | recommit (p : Pin U) (did : U) (hpin : j.pins.get p.id = some p) (hstate : p.state = .pinned)
    (hevent : (j.discoveries.get did).isSome) :
    Change h step j none { j with pins := j.pins.modify p.id (Pin.commit did) }
  | prepare (p : Pin U) (hnew : j.pins.get p.id = none) (hactive : active j p.stream = none)
    (hstate : p.state = .creating) (hkey : p.activeStream = some p.stream)
    (hrecord : p.discovery = none)
    (hfree : ∀ s ∈ j.streams.get p.stream, s.state = .active ∧ s.activeBatch = none) :
    Change h step j none { j with pins := j.pins.put p }
  | mark (p : Pin U) (hpin : j.pins.get p.id = some p) (hstate : p.state = .creating) :
    Change h step j none { j with pins := j.pins.modify p.id Pin.mark }
  | finish (p : Pin U) (event : Discovery U) (s : Stream U) (hfinishing : Finishing j p event s) :
    Change h step j none (j.finished p event)
  | claim (selection : Selection U P) (ref token : U) (s : Stream U) (selected : List (Item U P))
    (hclaiming : Claiming h j selection s selected) :
    Change h step j none (j.claimed selection ref token selected)
  | note (b : Batch U) (fields : Batch U → Batch U) (hb : j.batches.get b.id = some b)
    (hid : ∀ r, (fields r).id = r.id) (hnoted : b.Noted (fields b)) :
    Change h step j none { j with batches := j.batches.modify b.id fields }
  | close (b : Batch U) (fields : Batch U → Batch U) (s : Stream U)
    (selection : SelectionFacts U P) (items : List (Item U P)) (outcome : Outcome)
    (generation : Option ℕ)
    (hclosing : Closing h j b fields s selection items outcome generation) :
    Change h step j none (j.closed b fields s items outcome generation)
  | begin (s : Stream U) (p : Pin U) (recorded : Audit U) (hbeginning : Beginning j s p) :
    Change h step j none
      { j with
        streams := j.streams.modify s.id (Stream.setState .retiring)
        pins := j.pins.modify p.id (Pin.recordAudit recorded) }
  | retire (s : Stream U) (p : Pin U) (hretirement : Retirement j s p) :
    Change h step j none
      { j with
        streams := j.streams.modify s.id (Stream.setState .retired)
        pins := j.pins.modify p.id Pin.release }

/-- The states of a pin, in their order. -/
def PinState.rank : PinState → ℕ
  | .creating => 0
  | .pinned => 1
  | .committed => 2
  | .retained => 3
  | .released => 4

/-- The states of a stream, in their order. -/
def StreamState.rank : StreamState → ℕ
  | .active => 0
  | .retiring => 1
  | .retired => 2

/-- A batch under the identity has the property. -/
def Journal.HasBatch (id : U) (p : Batch U → Prop) : Prop := ∃ b, j.batches.get id = some b ∧ p b

/-- The pin has reached the state. -/
def Journal.Pinned (id : U) (state : PinState) : Prop :=
  ∃ p, j.pins.get id = some p ∧ state.rank ≤ p.state.rank

/-- The stream has reached the state. -/
def Journal.Reached (id : U) (state : StreamState) : Prop :=
  ∃ s, j.streams.get id = some s ∧ state.rank ≤ s.state.rank

/-- The trace that the first application of a fragment leaves. -/
def Step.Applied : Step U P → Prop
  | .discovery value expected plan root _ =>
    (j.discoveries.get (discoveryId h value expected plan root)).isSome
  | .prepare _ _ _ _ root _ => j.Pinned root .creating
  | .markPinned expected => j.Pinned expected.id .pinned
  | .pinDiscovery expectedIntent value expectedStream plan _ _ =>
    j.Pinned expectedIntent.id .committed ∧
      (j.discoveries.get (discoveryId h value expectedStream plan expectedIntent.id)).isSome
  | .finishPin expected => j.Pinned expected.id .retained
  | .claim selection _ _ => j.HasBatch selection.id fun _ ↦ True
  | .freeze expected _ _ => j.HasBatch expected.id fun b ↦ b.frozen.isSome
  | .request origin _ _ => j.HasBatch origin.batch fun b ↦ b.request.isSome
  | .retention value _ => j.HasBatch value.batch fun b ↦ b.scheduledOccurrence.isSome
  | .filing expected _ => j.HasBatch expected.origin.batch fun b ↦ b.disposition.isSome
  | .acceptance expected _ _ | .dismissal expected _ _ _ =>
    j.HasBatch expected.origin.batch fun b ↦ b.state = .closed
  | .abandon _ value | .abandonCapturing _ value | .requeueReady _ value
  | .requeueCapturing _ value => j.HasBatch value.batch fun b ↦ b.state = .closed
  | .requeue _ value => j.HasBatch value.batch fun b ↦ b.state = .closed
  | .begin _ value => j.Reached value.stream .retiring
  | .finishRetirement _ value => j.Reached value.stream .retired
  | .elsewhere _ _ => True

def Step.prepares : Step U P → Bool
  | .prepare .. => true
  | _ => false

/-- What an application without datoms finds; a `prepare-tx` may differ. -/
structure Replay (h : Hasch U P) (db : Db U P) (step : Step U P) (writes : Tx U P) : Prop where
  nil : writes = []
  still : step.moves h db = none
  applied : step.prepares = false → step.Applied h db.toJournal

/-- What an application other than a replay does. -/
structure Effect (h : Hasch U P) (step : Step U P) (j : Journal U P)
    (moved : Option (U × Plan U P)) (writes : Tx U P) : Prop where
  change : Change h step j moved (j.apply writes)
  fresh : ¬ step.Applied h j
  applied : step.Applied h (j.apply writes)

end Simmis.Knowledge
