import Simmis.Library.Checks
import Simmis.Library.Runs
import Simmis.Library.Table
import Simmis.Library.Text

/-!
# File adoptions

The journal of the publication of a retained file. A component is a fork of a proposal, which links
to its newest operation. A claim inserts an operation and moves the link, a transition patches the
linked operation. Both check the history of the component first.
-/

namespace Simmis.Files

open Text

variable {U : Type} [DecidableEq U]

/-- Milliseconds of a host clock. -/
abbrev Time := ℤ

/-- A target of `publication/target-schema`. -/
structure Target (U : Type) where
  repository : U
  store : U
  backend : String
  branch : String
  ref : String
  registrySystem : Option U
  runtimeSystem : Option String
deriving DecidableEq, Repr

structure Binding (U : Type) where
  proposal : U
  component : U
  manifest : U
  room : U
  actor : U
  filing : String
  disposition : U
  target : Target U
deriving DecidableEq, Repr

inductive State where
  | claimed | applying | accepted | aborted
deriving DecidableEq, Repr

/-- One journal operation, with its binding keys under `binding`. -/
structure Operation (U : Type) where
  id : U
  version : ℕ
  intent : U
  token : U
  binding : Binding U
  reviewRevision : Option U
  state : State
  createdAt : Time
  updatedAt : Time
  reason : Option String
  commit : Option U
  head : Option U
  noop : Option Bool
  reconciledBy : Option U
deriving DecidableEq, Repr

/-- `:file.adoption/...`, the attributes of an operation and of its target side by side. -/
structure Row (U : Type) where
  id : U
  version : ℕ
  intent : U
  token : U
  proposal : U
  component : U
  manifest : U
  room : U
  actor : U
  filing : String
  disposition : U
  reviewRevision : Option U
  repository : U
  store : U
  backend : String
  branch : String
  ref : String
  registrySystem : Option U
  runtimeSystem : Option String
  state : State
  createdAt : Time
  updatedAt : Time
  reason : Option String
  commit : Option U
  head : Option U
  noop : Option Bool
  reconciledBy : Option U

inductive Resolution where
  | accepted | dismissed
deriving DecidableEq, Repr

/-- `:proposal.fork/...` -/
structure Fork (U : Type) where
  eid : ℕ
  scope : Option U
  fileOutput : Bool
  status : Option Resolution
  fileAdoption : Option U
deriving DecidableEq, Repr

/-- `hasch/uuid` of the two versions of an intent and of an operation. -/
structure Hasch (U : Type) where
  intentV1 : Binding U → U
  intentV2 : Binding U → Option U → U
  operation : U → U → U

inductive Reason where
  | invalidBinding | invalidOperation | unexpectedOutcome | invalidAbort | invalidOutcome
  | componentNotOpen | invalidJournalLink | claimChanged | invalidJournalHistory
  | componentBindingChanged | notAClaim | alreadyOwned | invalidTransition
deriving DecidableEq, Repr

/-- The rows newest first. Without the journal schema there is nothing to pull. -/
structure Db (U : Type) [DecidableEq U] where
  rows : Table (Row.id (U := U))
  forks : Table (Fork.eid (U := U))
  linkInstalled : Bool

def Db.init : Db U := ⟨.empty, .empty, false⟩

def hostTarget (target : Target U) : Prop :=
  target.registrySystem.isSome ∧
    target.runtimeSystem.any fun s ↦ 1 ≤ count s ∧ count s ≤ 4096 ∧ ¬ isBlank s

instance (target : Target U) : Decidable (hostTarget target) := inferInstanceAs (Decidable (_ ∧ _))

def targetSchema (target : Target U) : Prop :=
  (1 ≤ count target.ref ∧ count target.ref ≤ 4096) ∧
    (target.runtimeSystem.all fun s ↦ 1 ≤ count s ∧ count s ≤ 4096) ∧
    (target.registrySystem = none ∧ target.runtimeSystem = none ∨ hostTarget target)

instance (target : Target U) : Decidable (targetSchema target) :=
  inferInstanceAs (Decidable (_ ∧ _))

/-- `binding!` -/
def Binding.Valid (binding : Binding U) : Prop :=
  (hasRun isHex 64 binding.filing ∧ targetSchema binding.target) ∧
    binding.component = binding.manifest ∧ hostTarget binding.target ∧
    ¬ isBlank binding.target.ref

instance (binding : Binding U) : Decidable binding.Valid := inferInstanceAs (Decidable (_ ∧ _))

variable (h : Hasch U)

/-- Version, clock and hashes. -/
def Operation.Sealed (value : Operation U) : Prop :=
  value.version = (if value.reviewRevision.isSome then 2 else 1) ∧
    value.createdAt ≤ value.updatedAt ∧
    value.intent = (if value.version = 2 then h.intentV2 value.binding value.reviewRevision
      else h.intentV1 value.binding) ∧
    value.id = h.operation value.intent value.token

instance (h : Hasch U) (value : Operation U) : Decidable (value.Sealed h) :=
  inferInstanceAs (Decidable (_ ∧ _))

def Operation.noOutcome (value : Operation U) : Prop :=
  value.commit = none ∧ value.head = none ∧ value.noop = none ∧ value.reconciledBy = none

instance (value : Operation U) : Decidable value.noOutcome := inferInstanceAs (Decidable (_ ∧ _))

/-- The shape that each state requires, with the refusal of a value that lacks it. -/
def Operation.Shaped (value : Operation U) : Prop :=
  match value.state with
  | .claimed | .applying => value.noOutcome ∧ value.reason = none
  | .aborted => value.reason.isSome ∧ value.noOutcome
  | .accepted => value.noop.isSome ∧ value.reason = none ∧
      if value.noop = some true then value.commit = none
      else value.commit.isSome ∧ value.commit = value.head

instance (value : Operation U) : Decidable value.Shaped := by
  unfold Operation.Shaped
  split <;> infer_instance

def State.shapeRefusal : State → Reason
  | .claimed | .applying => .unexpectedOutcome
  | .aborted => .invalidAbort
  | .accepted => .invalidOutcome

/-- `validate!` -/
def validate (value : Operation U) : Except Reason (Operation U) := do
  require value.binding.Valid .invalidBinding
  require (value.Sealed h) .invalidOperation
  require value.Shaped value.state.shapeRefusal
  return value

def entity (value : Operation U) : Row U :=
  { id := value.id, version := value.version, intent := value.intent, token := value.token
    proposal := value.binding.proposal, component := value.binding.component
    manifest := value.binding.manifest, room := value.binding.room
    actor := value.binding.actor, filing := value.binding.filing
    disposition := value.binding.disposition, reviewRevision := value.reviewRevision
    repository := value.binding.target.repository, store := value.binding.target.store
    backend := value.binding.target.backend, branch := value.binding.target.branch
    ref := value.binding.target.ref, registrySystem := value.binding.target.registrySystem
    runtimeSystem := value.binding.target.runtimeSystem, state := value.state
    createdAt := value.createdAt, updatedAt := value.updatedAt, reason := value.reason
    commit := value.commit, head := value.head, noop := value.noop
    reconciledBy := value.reconciledBy }

/-- The value that a row stands for, before it is validated. -/
def Row.value (row : Row U) : Operation U :=
  { id := row.id, version := row.version, intent := row.intent, token := row.token
    binding :=
      { proposal := row.proposal, component := row.component, manifest := row.manifest
        room := row.room, actor := row.actor, filing := row.filing
        disposition := row.disposition
        target :=
          { repository := row.repository, store := row.store, backend := row.backend
            branch := row.branch, ref := row.ref, registrySystem := row.registrySystem
            runtimeSystem := row.runtimeSystem } }
    reviewRevision := row.reviewRevision, state := row.state
    createdAt := row.createdAt, updatedAt := row.updatedAt, reason := row.reason
    commit := row.commit, head := row.head, noop := row.noop, reconciledBy := row.reconciledBy }

def metadata (row : Row U) : Except Reason (Operation U) := validate h row.value

/-- A transacted map replaces the attributes that it has. -/
def Row.upsert (new : Row U) (old : Row U) : Row U :=
  { new with
    reviewRevision := new.reviewRevision.or old.reviewRevision
    registrySystem := new.registrySystem.or old.registrySystem
    runtimeSystem := new.runtimeSystem.or old.runtimeSystem
    reason := new.reason.or old.reason
    commit := new.commit.or old.commit
    head := new.head.or old.head
    noop := new.noop.or old.noop
    reconciledBy := new.reconciledBy.or old.reconciledBy }

variable (db : Db U)

def operation (id : U) : Except Reason (Option (Operation U)) :=
  match db.rows.get id with
  | some row => do return some (← metadata h row)
  | none => .ok none

/-- `fork!` -/
def openFork (eid : ℕ) (component : U) : Except Reason (Fork U) :=
  match db.forks.get eid with
  | some fork => do
    require (fork.fileOutput ∧ fork.scope = some component ∧ fork.status = none) .componentNotOpen
    return fork
  | none => .error .componentNotOpen

def latest (fork : Fork U) : Except Reason (Option (Operation U)) :=
  match fork.fileAdoption with
  | none => .ok none
  | some id => do
    let row ← operation h db id
    let owners := (db.forks.select (·.fileAdoption = some id)).take 2
    require (row.isSome ∧ owners.map (·.eid) = [fork.eid]) .invalidJournalLink
    return row

/-- The rows of a component. -/
def Db.history (component : U) : List (Row U) := db.rows.select (·.component = component)

/-- Equal bindings up to the actor. -/
def Binding.Same (a b : Binding U) : Prop := { a with actor := b.actor } = b

instance (a b : Binding U) : Decidable (a.Same b) := inferInstanceAs (Decidable (_ = _))

/-- A historical row is of the same binding, and aborted unless it is the linked one. -/
def historical (h : Hasch U) (row : Option (Operation U)) : List (Row U) → Except Reason Unit
  | [] => .ok ()
  | r :: rows => do
    let value ← metadata h r
    require (row.any fun current ↦ current.binding.Same value.binding ∧
      (current.id = value.id ∨ value.state = .aborted)) .invalidJournalHistory
    historical h row rows

def checkedHistory (fork : Fork U) : Except Reason (Option (Operation U)) := do
  let row ← latest h db fork
  let history := if db.linkInstalled then
    (db.rows.select fun r ↦ some r.component = fork.scope).take 1001 else []
  require (history.length ≤ 1000 ∧ (history ≠ [] → row ≠ none)) .invalidJournalHistory
  require (row.all fun r ↦ some r.binding.component = fork.scope) .componentBindingChanged
  historical h row history
  return row

def currentOperation (eid : ℕ) : Except Reason (Option (Operation U)) :=
  match db.forks.get eid with
  | some fork => do
    require (fork.fileOutput ∧ fork.scope.isSome ∧ fork.status = none) .componentNotOpen
    checkedHistory h db fork
  | none => .error .componentNotOpen

def linkedOperation (eid : ℕ) (expected : Operation U) : Except Reason (Operation U) := do
  let _ ← validate h expected
  let fork ← openFork db eid expected.binding.component
  let current ← currentOperation h db fork.eid
  require (current = some expected) .claimChanged
  return expected

inductive Write (U : Type) where
  | insert (row : Row U)
  | patch (row : Row U)
  | link (eid : ℕ) (id : U)

def Fork.link (id : U) (fork : Fork U) : Fork U := { fork with fileAdoption := some id }

def Db.write : Write U → Db U
  | .insert row => { db with rows := db.rows.put row }
  | .patch row => { db with rows := db.rows.modify row.id row.upsert }
  | .link eid id => { db with forks := db.forks.modify eid (Fork.link id) }

/-- The journal schema is part of what a claim transacts. -/
def claimTxData (eid : ℕ) (value : Operation U) : Except Reason (List (Write U)) := do
  let _ ← validate h value
  require (value.state = .claimed) .notAClaim
  require db.linkInstalled .componentNotOpen
  let fork ← openFork db eid value.binding.component
  let previous ← currentOperation h db fork.eid
  require (previous.all fun p ↦ p.binding.Same value.binding) .componentBindingChanged
  let existing ← operation h db value.id
  require (existing = none ∧ previous.all fun p ↦ p.state = .aborted) .alreadyOwned
  return [.insert (entity value), .link eid value.id]

/-- The `fields` of a transition; any other key is refused. -/
structure Fields (U : Type) where
  reason : Option String := none
  commit : Option U := none
  head : Option U := none
  noop : Option Bool := none
  reconciledBy : Option U := none
deriving DecidableEq, Repr

/-- Which fields each next state takes, from which state. -/
def Fields.Fit (fields : Fields U) (state next : State) : Prop :=
  match next with
  | .applying => state = .claimed ∧ fields = {}
  | .aborted => state = .claimed ∧ fields.reason.isSome ∧ fields = { reason := fields.reason }
  | .accepted => state = .applying ∧ fields.noop.isSome ∧ fields.reason = none
  | .claimed => False

instance (fields : Fields U) (state next : State) : Decidable (fields.Fit state next) := by
  unfold Fields.Fit
  split <;> infer_instance

def Operation.move (expected : Operation U) (next : State) (fields : Fields U) (now : Time) :
    Operation U :=
  { expected with
    state := next, updatedAt := now
    reason := fields.reason.or expected.reason
    commit := fields.commit.or expected.commit
    head := fields.head.or expected.head
    noop := fields.noop.or expected.noop
    reconciledBy := fields.reconciledBy.or expected.reconciledBy }

def transitionTxData (eid : ℕ) (expected : Operation U) (nextState : State) (fields : Fields U)
    (now : Time) : Except Reason (List (Write U)) := do
  let _ ← linkedOperation h db eid expected
  require (expected.updatedAt ≤ now ∧ fields.Fit expected.state nextState) .invalidTransition
  let next ← validate h (expected.move nextState fields now)
  return [.patch (entity next)]

/-- The two calls, and what the host does around them. -/
inductive Step (U : Type) where
  | install
  | openComponent (fork : Fork U)
  | resolve (eid : ℕ) (status : Option Resolution)
  | claim (eid : ℕ) (value : Operation U)
  | transition (eid : ℕ) (expected : Operation U) (next : State) (fields : Fields U) (now : Time)

def Fork.resolve (status : Option Resolution) (fork : Fork U) : Fork U := { fork with status }

/-- Refused calls change nothing. -/
def Db.step : Step U → Db U
  | .install => { db with linkInstalled := true }
  | .openComponent fork =>
    if db.forks.get fork.eid = none then
      { db with forks := db.forks.put { fork with fileAdoption := none } }
    else db
  | .resolve eid status => { db with forks := db.forks.modify eid (Fork.resolve status) }
  | .claim eid value =>
    match claimTxData h db eid value with
    | .ok writes => writes.foldl Db.write db
    | .error _ => db
  | .transition eid expected next fields now =>
    match transitionTxData h db eid expected next fields now with
    | .ok writes => writes.foldl Db.write db
    | .error _ => db

end Simmis.Files
