import Simmis.Library.Checks
import Simmis.Library.Runs
import Simmis.Library.Table
import Mathlib.Data.Fintype.Pi

/-!
# The journal of Git synchronisation

An intent to synchronise a room's repository is one row. Fast-forwards and incoming contributions
share a transition graph, outbound pushes have their own; all share the one pending slot of their
room.
-/

namespace Simmis.Git

/-- `:github.sync/kind` -/
inductive Kind where
  | fastForward | incoming | incomingPolicy | push
deriving DecidableEq, Repr

/-- `:github.sync/state`; the last four belong to pushes only. -/
inductive State where
  | creating | allocated | retaining | ready | filing | filed | applying | applied
  | satisfiedObserved | closing | held | closed
  | sending | pushed | rejected | observed
deriving DecidableEq, Repr

inductive Disposition where
  | fastForward | proposal
deriving DecidableEq, Repr

/-- The attributes that name a receipt, of `:github.sync` and of `:github.push`. -/
inductive Slot where
  | workspace | retention | ready | filing | outcome | closure | incident
  | pushRetention | pushReady | pushIntent | pushOutcome | pushClosure
deriving DecidableEq, Repr

def Slot.all : List Slot :=
  [workspace, retention, ready, filing, outcome, closure, incident, pushRetention, pushReady,
    pushIntent, pushOutcome, pushClosure]

instance : Fintype Slot where
  elems := ⟨Slot.all, by decide⟩
  complete slot := by cases slot <;> decide

/-- The stored body and its identity; both attributes are written together. -/
structure Receipt (U : Type) where
  ref : U
  id : U
deriving DecidableEq, Repr

structure Policy (U : Type) where
  disposition : Disposition
  reviewRevision : U
deriving DecidableEq, Repr

structure Pack (U : Type) where
  pack : U
  size : ℤ
deriving DecidableEq, Repr

/-- `:github.sync/...` with `:github.push/...` -/
structure Row (U : Type) where
  id : U
  by_ : U
  room : U
  clientId : U
  claim : U
  preparation : U
  preparationId : U
  kind : Option Kind
  state : State
  heldFrom : Option State
  activeRoom : Option U
  disposition : Option Disposition
  reviewRevision : Option U
  receipts : Slot → Option (Receipt U)
  pack : Option (Pack U)
deriving DecidableEq

structure Binding (U : Type) where
  id : U
  by_ : U
  room : U
  clientId : U
  claim : U
deriving DecidableEq, Repr

variable {U : Type} [DecidableEq U]

abbrev Db (U : Type) [DecidableEq U] := Table (Row.id (U := U))

inductive Refusal where
  | invalidIdentity | differentIntent | roomBusy | staleObservation | wrongKind
  | invalidDisposition | wrongDisposition | invalidReceipt | invalidTransition | retentionRequired
  | uncertainApply | differentReceipt | inactiveIntent | invalidPack
deriving DecidableEq, Repr

/-- `sync/kind` -/
def Row.kindOf (row : Row U) : Kind := row.kind.getD .fastForward

def Row.isIncoming (row : Row U) : Bool := row.kindOf = .incoming || row.kindOf = .incomingPolicy

/-- `active-in` -/
def activeIn (db : Db U) (room : U) : Option (Row U) :=
  db.rows.find? fun row ↦ row.activeRoom = some room

def Binding.row (binding : Binding U) (preparation preparationId : U) (kind : Kind) : Row U where
  id := binding.id
  by_ := binding.by_
  room := binding.room
  clientId := binding.clientId
  claim := binding.claim
  preparation
  preparationId
  kind := if kind = .fastForward then none else some kind
  state := .creating
  heldFrom := none
  activeRoom := some binding.room
  disposition := none
  reviewRevision := none
  receipts _ := none
  pack := none

/-- The identity without the claim, and the preparation. -/
def Row.sameIntent (row other : Row U) : Bool :=
  row.id = other.id && row.by_ = other.by_ && row.room = other.room &&
    row.clientId = other.clientId && row.preparation = other.preparation &&
    row.preparationId = other.preparationId

/-- `prepare-tx`. The result is the row that is written, if any. -/
def prepareTx (requestId : U → U → U → U) (db : Db U) (binding : Binding U)
    (preparation preparationId : U) (kind : Kind) : Except Refusal (Option (Row U)) := do
  require (binding.id = requestId binding.by_ binding.room binding.clientId) .invalidIdentity
  let fresh := binding.row preparation preparationId kind
  match db.get binding.id with
  | some row =>
    require (kind = row.kindOf ∧ fresh.sameIntent row) .differentIntent
    return none
  | none =>
    require (activeIn db binding.room = none) .roomBusy
    return some fresh

/-- `github-push/prepare-tx` -/
def pushPrepareTx (requestId : U → U → U → U) (db : Db U) (binding : Binding U) (ref bodyId : U) :
    Except Refusal (Option (Row U)) :=
  prepareTx requestId db binding ref bodyId .push

/-- `next-states` -/
def nextStates : State → List State
  | .creating => [.allocated, .held]
  | .allocated => [.ready, .retaining, .held, .closing]
  | .retaining => [.ready, .held]
  | .ready => [.applying, .filing, .closing, .held]
  | .filing => [.filed, .held]
  | .filed => [.closing, .held]
  | .applying => [.applied, .satisfiedObserved, .held]
  | .applied => [.closing, .held]
  | .satisfiedObserved => [.closing, .held]
  | .closing => [.closed, .held]
  | .held => [.ready, .closing, .satisfiedObserved]
  | .closed | .sending | .pushed | .rejected | .observed => []

/-- `receipt-slot` -/
def receiptSlot : State → Option Slot
  | .allocated => some .workspace
  | .retaining => some .retention
  | .ready => some .ready
  | .filing => some .filing
  | .filed | .applied | .satisfiedObserved => some .outcome
  | .closed => some .closure
  | .held => some .incident
  | _ => none

def State.applies (state : State) : Bool :=
  state = .applying || state = .applied || state = .satisfiedObserved

def State.files (state : State) : Bool := state = .filing || state = .filed

/-- What a call may say of the review policy: from `:incoming-policy` to `:ready` the recorded one,
else nothing. -/
def Row.acceptsPolicy (row : Row U) (toState : State) (policy : Option (Policy U)) : Bool :=
  if row.kindOf = .incomingPolicy ∧ toState = .ready then
    policy.any fun policy ↦ row.disposition = none ||
      (row.disposition = some policy.disposition && row.reviewRevision = some policy.reviewRevision)
  else policy = none

/-- The receipt that a call gives for a slot, or for none. -/
def receiptOf (slot : Option Slot) (ref receiptId : Option U) :
    Except Refusal (Option (Slot × Receipt U)) :=
  match slot, ref, receiptId with
  | some slot, some ref, some id => .ok (some (slot, ⟨ref, id⟩))
  | none, none, none => .ok none
  | _, _, _ => .error .invalidReceipt

/-- `(= receipt (select-keys row (keys receipt)))` -/
def Row.hasReceipt (row : Row U) (receipt : Option (Slot × Receipt U)) : Bool :=
  receipt.all fun (slot, receipt) ↦ row.receipts slot = some receipt

/-- The receipt fits the one that is set. -/
def Row.fitsReceipt (row : Row U) (receipt : Option (Slot × Receipt U)) : Bool :=
  receipt.all fun (slot, receipt) ↦ row.receipts slot = none || row.receipts slot = some receipt

/-- The state that a held row was in. -/
def Row.heldIn (row : Row U) (states : List State) : Bool :=
  row.state = .held && row.heldFrom.any (· ∈ states)

/-- The row after the transaction of `transition-tx`. -/
def Row.moved (row : Row U) (toState : State) (receipt : Option (Slot × Receipt U))
    (policy : Option (Policy U)) : Row U :=
  { row with
    state := toState
    receipts := receipt.elim row.receipts fun (slot, receipt) ↦
      Function.update row.receipts slot (some receipt)
    disposition := policy.elim row.disposition (some ·.disposition)
    reviewRevision := policy.elim row.reviewRevision (some ·.reviewRevision)
    heldFrom :=
      if toState = .held then if row.state = .held then row.heldFrom else some row.state else none
    activeRoom := if toState = .closed then none else row.activeRoom }

/-- `transition-tx` -/
def transitionTx (db : Db U) (expected : Row U) (toState : State) (ref receiptId : Option U)
    (policy : Option (Policy U)) : Except Refusal (Option (Row U)) :=
  match db.get expected.id with
  | none => .error .staleObservation
  | some row => do
    require (expected = row) .staleObservation
    require (row.kindOf ≠ .push) .wrongKind
    require (row.acceptsPolicy toState policy) .invalidDisposition
    require (row.kindOf = .incomingPolicy → (toState.applies → row.disposition = some .fastForward) ∧
      (toState.files → row.disposition = some .proposal)) .wrongDisposition
    require (¬ (row.kindOf = .incoming ∧ toState.applies) ∧
      ¬ (¬ row.isIncoming ∧ (toState = .retaining ∨ toState.files))) .wrongKind
    let receipt ← receiptOf (receiptSlot toState) ref receiptId
    require (row.state = toState ∨ toState ∈ nextStates row.state) .invalidTransition
    require (row.isIncoming ∧ toState = .ready → (row.receipts .retention).isSome ∧
      (row.state = .retaining ∨ row.state = .ready ∨ row.heldIn [.retaining, .ready]))
      .retentionRequired
    require (row.state = .held ∧ toState = .ready → row.heldIn [.allocated, .ready] ∨
      row.isIncoming ∧ row.heldIn [.retaining]) .uncertainApply
    require (receiptSlot toState = some .incident ∨ row.fitsReceipt receipt) .differentReceipt
    if row.state = toState ∧ row.hasReceipt receipt then return none
    require (row.activeRoom = some row.room) .inactiveIntent
    return some (row.moved toState receipt policy)

/-- `github-push/next-states` -/
def pushNextStates : State → List State
  | .creating => [.retaining, .closed]
  | .retaining => [.ready, .closed]
  | .ready => [.sending, .closed]
  | .sending => [.pushed, .rejected, .observed]
  | .pushed | .rejected | .observed => [.closed]
  | _ => []

/-- `github-push/slots` -/
def pushSlot : State → Option Slot
  | .retaining => some .pushRetention
  | .ready => some .pushReady
  | .sending => some .pushIntent
  | .pushed | .rejected | .observed => some .pushOutcome
  | .closed => some .pushClosure
  | _ => none

def maxPackBytes : ℤ := 16 * 1024 * 1024

/-- What a call may say of the pack: only for `:ready`, and the recorded one. -/
def Row.acceptsPack (row : Row U) (state : State) (pack : Option (Pack U)) : Bool :=
  if state = .ready then
    pack.any fun pack ↦ 1 ≤ pack.size && pack.size ≤ maxPackBytes &&
      (row.receipts .pushRetention).isSome && (row.pack = none || row.pack = some pack)
  else pack = none

/-- The row after the transaction of `github-push/transition-tx`. -/
def Row.pushMoved (row : Row U) (state : State) (slot : Slot) (receipt : Receipt U)
    (pack : Option (Pack U)) : Row U :=
  { row with
    state
    receipts := Function.update row.receipts slot (some receipt)
    pack := pack.or row.pack
    activeRoom := if state = .closed then none else row.activeRoom }

/-- `github-push/transition-tx` -/
def pushTransitionTx (db : Db U) (expected : Row U) (state : State) (ref bodyId : Option U)
    (pack : Option (Pack U)) : Except Refusal (Option (Row U)) :=
  match db.get expected.id with
  | none => .error .differentIntent
  | some row => do
    require (row = expected ∧ row.kindOf = .push) .differentIntent
    match pushSlot state, ref, bodyId with
    | some slot, some ref, some id =>
      require (state = row.state ∨ state ∈ pushNextStates row.state) .invalidTransition
      require (row.activeRoom = some row.room ∨ row.state = .closed ∧ state = .closed)
        .inactiveIntent
      require (row.receipts slot = none ∨ row.receipts slot = some ⟨ref, id⟩) .differentReceipt
      require (row.acceptsPack state pack) .invalidPack
      if state = row.state then return none
      return some (row.pushMoved state slot ⟨ref, id⟩ pack)
    | _, _, _ => .error .invalidReceipt

inductive Call (U : Type) where
  | prepare (binding : Binding U) (preparation preparationId : U) (kind : Kind)
  | transition (expected : Row U) (toState : State) (ref receiptId : Option U)
    (policy : Option (Policy U))
  | pushPrepare (binding : Binding U) (ref bodyId : U)
  | pushTransition (expected : Row U) (state : State) (ref bodyId : Option U)
    (pack : Option (Pack U))

variable (requestId : U → U → U → U)

def Call.tx (call : Call U) (db : Db U) : Except Refusal (Option (Row U)) :=
  match call with
  | prepare binding preparation preparationId kind =>
    prepareTx requestId db binding preparation preparationId kind
  | transition expected toState ref receiptId policy => transitionTx db expected toState ref receiptId policy
  | pushPrepare binding ref bodyId => pushPrepareTx requestId db binding ref bodyId
  | pushTransition expected state ref bodyId pack =>
    pushTransitionTx db expected state ref bodyId pack

/-- The writer runs the fragments of one call at a time on its own database. -/
def Db.step (db : Db U) (call : Call U) : Db U :=
  match call.tx requestId db with
  | .ok (some row) => db.put row
  | .ok none | .error _ => db

def reached (calls : List (Call U)) : Db U := Runs.run (Db.step requestId) Table.empty calls

end Simmis.Git
