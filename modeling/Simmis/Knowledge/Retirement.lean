import Simmis.Knowledge.Recovery

/-!
# Retirement of a stream

A clean stream is fenced before its last pin is physically released, and retired once the release
was observed. The audit of the decision stays on the pin; no phase reopens the stream.
-/

namespace Simmis.Knowledge

variable {U P : Type} [DecidableEq U] [LinearOrder P]

/-- `decision` of a retirement. -/
structure RetirementDecision (U : Type) where
  id : U
  stream : U
  root : U
  by_ : U
  client : U
  at_ : ℤ
  reason : String
deriving DecidableEq

variable (h : Hasch U P)

def RetirementDecision.sealed (value : RetirementDecision U) : Bool :=
  1 ≤ value.reason.length ∧ value.reason.length ≤ 1000 ∧
    value.id = h.retirement value.stream value.root value.by_ value.client

/-- `expected` of a retirement; the state of the stream is not compared. -/
structure Retiring (U : Type) where
  stream : Stream U
  pin : PinFields U
  value : Descriptor U
  basis : Basis U
deriving DecidableEq

/-- `checked!` of a retirement. -/
def checkedRetirement (j : Journal U P) (expected : Retiring U) (value : RetirementDecision U) :
    Except Reason (Stream U × Pin U) := do
  require (value.sealed h) .invalidDecision
  match j.streams.get value.stream, intent j value.root with
  | some s, some p =>
    let descriptor := expected.value
    let basis := expected.basis
    require ({ expected.stream with state := s.state } = s ∧ expected.pin = p.fields ∧
      value.stream = descriptor.id ∧ value.stream = p.stream ∧ value.root = s.cursorRoot ∧
      descriptor.by_ = p.by_ ∧ descriptor.room = p.room ∧ descriptor.target = p.target ∧
      p.discovery = some s.lastDiscovery ∧
      ((p.discovery.bind j.discoveries.get).any fun event ↦ value.root = event.afterRoot ∧
        value.stream = event.stream ∧ event.revision = s.revision ∧ event.oldRootReleased) ∧
      p.activeStream = none) .streamOrPinChanged
    validateBinding h descriptor (some s)
    validateBasis basis
    require (basis.commit = s.cursorCommit ∧ basis.maxTx = s.cursorTx ∧
      h.source basis.toSourceFacts = s.source) .cursorBasisChanged
    require (s.activeBatch = none ∧ active j value.stream = none ∧
      j.items.select (fun i ↦ i.pendingStream = some value.stream) = [] ∧
      j.items.select (fun i ↦ i.stream = value.stream ∧
        (i.state = .pending ∨ i.state = .claimed)) = []) .streamNotClean
    pure (s, p)
  | _, _ => throw .streamOrPinChanged

/-- `audit` -/
def audit (expected : Retiring U) (value : RetirementDecision U) : Audit U where
  id := value.id
  client := value.client
  by_ := value.by_
  at_ := value.at_
  reason := value.reason
  streamBinding := h.streamBinding { expected.stream with state := .active }
  pinBinding := h.pinBinding expected.pin

/-- The audit of the same decision, whenever it was made. -/
def Audit.sameAs (a b : Audit U) : Bool := a = { b with at_ := a.at_ }

/-- The state of the last pin of a stream. -/
def StreamState.pinState : StreamState → PinState
  | .retired => .released
  | _ => .retained

/-- The writes of `begin-tx`. -/
def Stream.setState (state : StreamState) (s : Stream U) : Stream U := { s with state := state }

def Pin.recordAudit (audit : Audit U) (p : Pin U) : Pin U := { p with retirement := some audit }

/-- `begin-tx` -/
def beginTx (j : Journal U P) (expected : Retiring U) (value : RetirementDecision U) :
    Except Reason (Tx U P) := do
  let (stream, pin) ← checkedRetirement h j expected value
  if stream.state = .active then do
    require (pin.state = .retained ∧ pin.retirement = none) .pinNotRetirable
    pure [.patchStream value.stream (Stream.setState .retiring),
      .patchPin pin.id (Pin.recordAudit (audit h expected value))]
  else do
    require (pin.retirement.any fun recorded ↦ recorded.sameAs (audit h expected value))
      .partialOrConflictingRetirement
    require (stream.state.pinState = pin.state) .partialRetirement
    pure []

/-- `finish-tx` of a retirement. -/
def finishRetirementTx (j : Journal U P) (expected : Retiring U) (value : RetirementDecision U) :
    Except Reason (Tx U P) := do
  let begun ← beginTx h j expected value
  require begun.isEmpty .retirementNotBegun
  let (stream, pin) ← checkedRetirement h j expected value
  if stream.state = .retired then pure []
  else pure [.patchStream value.stream (Stream.setState .retired), .patchPin pin.id Pin.release]

end Simmis.Knowledge
