import Simmis.Knowledge.Streams

/-!
# Pin intents

A pin retains the source at the cursor of a stream. Its intent is recorded before the pin exists,
committed with the discovery that moves the cursor to it, and finished once the old pin was
released.
-/

namespace Simmis.Knowledge

variable {U P : Type} [DecidableEq U] [LinearOrder P] (j : Journal U P)

/-- `intent` -/
def intent (id : U) : Option (Pin U) := j.pins.get id

/-- `active` -/
def active (stream : U) : Option (Pin U) := j.pins.rows.find? fun p ↦ p.activeStream = some stream

/-- `host-target?` -/
def Target.host (target : Target U) : Bool :=
  target.registrySystem.isSome ∧ target.runtimeSystem.any fun system ↦
    1 ≤ system.length ∧ system.length ≤ 4096 ∧ system.toList.any (fun c ↦ ¬ c.isWhitespace)

/-- `target-id` -/
def targetId (h : Hasch U P) (target : Target U) : Except Reason U := do
  require (1 ≤ target.ref.length ∧ target.ref.length ≤ 4096 ∧ target.host) .invalidOrigin
  pure (h.target target)

/-- `#"^[a-z0-9][a-z0-9-]{0,63}$"` -/
def workflowName (name : String) : Bool :=
  let letter (c : Char) : Bool := c.isLower ∨ c.isDigit
  match name.toList with
  | [] => false
  | c :: rest => letter c ∧ rest.length ≤ 63 ∧ rest.all fun c ↦ letter c ∨ c = '-'

/-- `validate-origin!` -/
def validateOrigin (h : Hasch U P) (value : Descriptor U) (basis : Basis U) (origin : Origin U) :
    Except Reason Unit := do
  require (workflowName origin.workflow) .originMismatch
  let target ← targetId h origin.target
  require (value.target = target ∧ basis.repository = origin.target.repository ∧
    basis.store = origin.target.store ∧ basis.backend = origin.target.backend ∧
    basis.branch = origin.target.branch ∧ basis.ref = origin.target.ref) .originMismatch

/-- `prepare-tx` -/
def prepareTx (h : Hasch U P) (j : Journal U P) (value : Descriptor U)
    (expected : Option (Stream U)) (payloadId ref root claim : U) : Except Reason (Tx U P) := do
  require (value.sealed h) .invalidStream
  require (expected = j.streams.get value.id) .cursorConflict
  admissible expected
  require (expected.bind (·.activeBatch) = none) .batchActive
  require (j.items.select (fun i ↦ i.stream = value.id ∧ i.state = .claimed) = []) .orphanedClaim
  require (∀ s ∈ expected, (j.discoveries.get s.lastDiscovery).any (·.oldRootReleased))
    .cleanupPending
  match active j value.id with
  | some existing =>
    require (payloadId = existing.payloadId) .pinIntentBusy
    pure []
  | none =>
    require (intent j root = none) .rootIdReused
    let row : Pin U :=
      { id := root
        stream := value.id
        activeStream := some value.id
        claim := claim
        by_ := value.by_
        room := value.room
        target := value.target
        state := .creating
        payload := ref
        payloadId := payloadId
        discovery := none
        retirement := none }
    pure [.pin row]

/-- The write of `mark-pinned-tx`. -/
def Pin.mark (p : Pin U) : Pin U := { p with state := .pinned }

/-- `mark-pinned-tx` -/
def markPinnedTx (expected : Pin U) : Except Reason (Tx U P) :=
  match intent j expected.id with
  | none => .error .intentChanged
  | some current =>
    if current = expected then
      match current.state with
      | .creating => .ok [.patchPin current.id Pin.mark]
      | .pinned => .ok []
      | _ => .error .invalidState
    else .error .intentChanged

/-- The write of `discovery-tx` to the intent. -/
def Pin.commit (did : U) (p : Pin U) : Pin U :=
  { p with state := .committed, discovery := some did }

/-- `discovery-tx` of pins, which composes the discovery of the stream. -/
def pinDiscoveryTx (h : Hasch U P) (j : Journal U P) (expectedIntent : Pin U)
    (value : Descriptor U) (expectedStream : Option (Stream U)) (plan : Plan U P)
    (origin : Origin U) (planRef : U) : Except Reason (Tx U P) := do
  validateOrigin h value plan.after origin
  let root := expectedIntent.id
  let did := discoveryId h value expectedStream plan root
  match intent j root with
  | none => throw .intentChanged
  | some current =>
    require (current.stream = value.id ∧ current.by_ = value.by_ ∧ current.room = value.room ∧
      current.target = value.target ∧ current.claim = expectedIntent.claim ∧
      current.payloadId = expectedIntent.payloadId ∧
      expectedIntent.payloadId = h.payload ⟨value, expectedStream, plan.after, origin⟩)
      .intentChanged
    match current.state with
    | .pinned =>
      require (current = expectedIntent) .intentChanged
      let writes ← discoveryTx h j value expectedStream plan root planRef
      pure (.patchPin current.id (Pin.commit did) :: writes)
    | .committed | .retained | .released =>
      require (current.discovery = some did) .discoveryMismatch
      discoveryTx h j value expectedStream plan root planRef
    | .creating => throw .invalidState

/-- `pin-fields`; the same fields are the binding of `finish-tx`. -/
def Pin.fields (p : Pin U) : PinFields U :=
  ⟨p.id, p.stream, p.claim, p.by_, p.room, p.target, p.payload, p.payloadId, p.discovery⟩

/-- The write of `finish-tx` to the intent. -/
def Pin.retain (p : Pin U) : Pin U := { p with state := .retained, activeStream := none }

/-- The write of a release. -/
def Pin.release (p : Pin U) : Pin U := { p with state := .released }

/-- The write of `finish-tx` to its discovery. -/
def Discovery.cleanUp (d : Discovery U) : Discovery U := { d with oldRootReleased := true }

/-- `finish-tx` of pins, after the old pin was physically released. -/
def finishPinTx (expected : Pin U) : Except Reason (Tx U P) :=
  match intent j expected.id with
  | none => .error .intentChanged
  | some current =>
    let event := current.discovery.bind j.discoveries.get
    let stream := j.streams.get current.stream
    let old := event.bind (·.beforeRoot)
    if (current.state = .retained ∨ current.state = .released) ∧
        current.fields = expected.fields ∧ event.any (·.oldRootReleased) then .ok []
    else do
      require (current = expected) .intentChanged
      match event, stream with
      | some event, some stream =>
        require (current.state = .committed ∧ current.id = stream.cursorRoot ∧
          current.id = event.afterRoot ∧ current.discovery = some stream.lastDiscovery ∧
          ∀ root ∈ old, (intent j root).any fun p ↦
            p.state = .retained ∧ current.stream = p.stream) .cleanupBindingMismatch
        pure (.patchPin current.id Pin.retain :: .patchDiscovery event.id Discovery.cleanUp ::
          old.toList.map fun root ↦ .patchPin root Pin.release)
      | _, _ => throw .cleanupBindingMismatch

end Simmis.Knowledge
