import Simmis.Library.Checks
import Simmis.Library.Table

/-!
# Schedule rows

An activation is a deployed schedule with its cursor `nextFire`; an occurrence is one recorded slot
of it. Work requests are rows of another journal and are only read here. Instants are milliseconds.
-/

namespace Simmis.Schedules

open Table

variable {U : Type} [DecidableEq U]

/-- `:schedule.occurrence/state` -/
inductive State where
  | pending | admitting | linked | interrupted | blocked | skipped
deriving DecidableEq, Repr

/-- `:schedule.occurrence/reason` and `:schedule.activation/reason`. -/
inductive Reason where
  | overlap | coalesced | paused | streamBusy | noInputs | unchanged | interrupted | restart
  | ownedDispatchUnavailable | periodCapacity | periodByteLimit | sourceScanLimit
  | unsupportedOriginal | admissionFailed | dispatcherFailed | executionFailed | batchAbandoned
  /-- The `:type` of an exception. -/
  | type (name : String)
deriving DecidableEq, Repr

inductive JobStatus where
  | running | completed | failed | cancelled
deriving DecidableEq, Repr

/-- `:schedule.activation/...` -/
structure Activation (U : Type) where
  id : U
  room : U
  by_ : U
  revision : U
  targetRef : U
  enabled : Bool
  initialEnabled : Option Bool
  createdAt : ℤ
  nextFire : ℤ
  lastOccurrence : Option U
  activeOccurrence : Option U
  reason : Option Reason
  lastTerminalFailure : Option U
  lastProcessedInput : Option U

/-- The marker that a terminal failure leaves on its occurrence. -/
structure Marker (U : Type) where
  job : Option U
  jobStatus : Option JobStatus
  candidate : Option U
  attemptContent : Option U
deriving DecidableEq

def Marker.none : Marker U := ⟨.none, .none, .none, .none⟩

/-- `:schedule.occurrence/...` -/
structure Occurrence (U : Type) where
  id : U
  activation : U
  revision : U
  intendedAt : ℤ
  createdAt : ℤ
  coalesced : ℤ
  state : State
  claim : Option U
  inputId : Option U
  inputRef : Option U
  inputRevision : Option U
  request : Option U
  announced : Bool
  reason : Option Reason
  failed : Marker U
  knowledgeBatch : Option U
  batchRef : Option U
  batchRevision : Option U
deriving DecidableEq

inductive RequestKind where
  | workflow | benchmark
deriving DecidableEq, Repr

inductive RequestState where
  | held | submitted | interrupted
deriving DecidableEq, Repr

/-- `:work.request/...`; the last field is `:knowledge.disposition/id`. -/
structure Request (U : Type) where
  id : U
  clientId : U
  by_ : U
  room : U
  kind : RequestKind
  intentId : U
  publicationBasisId : Option U
  payloadRef : U
  job : Option U
  state : RequestState
  returnPending : Option Bool
  knowledgeBatch : Option U
  knowledgeFrozen : Option U
  disposition : Option U
deriving DecidableEq

/-- The control database, as far as schedules read it. -/
structure Db (U : Type) [DecidableEq U] where
  activations : Table (Activation.id (U := U))
  occurrences : Table (Occurrence.id (U := U))
  requests : Table (Request.id (U := U))

def Db.init : Db U := ⟨.empty, .empty, .empty⟩

/-- Why a transaction function throws. -/
inductive Refusal where
  | missing | conflict | capacity | backlog | invalid | arithmetic | corrupt
  | held (reason : String)
deriving DecidableEq, Repr

/-- What a binding of an occurrence to a knowledge batch names, its own identity apart. -/
structure BindingFacts (U : Type) where
  activation : U
  revision : U
  targetRef : U
  occurrence : U
  claim : U
  by_ : U
  room : U
  batch : U
  selection : U
  frozen : U
deriving DecidableEq

/-- `hasch/uuid` of the values that identify schedule rows. It is free of collisions. -/
structure Hasch (U : Type) where
  /-- `[:simmis/scheduled-occurrence-v1 id revision intended]` -/
  occurrence : U → U → ℤ → U
  occurrence_injective : ∀ {a a' r r' t t'}, occurrence a r t = occurrence a' r' t' →
    a = a' ∧ r = r' ∧ t = t'
  /-- `[:simmis/work-request-v1 party room client-id]` -/
  request : U → U → U → U
  /-- `[:simmis/scheduled-knowledge-batch-v1 value]` -/
  binding : BindingFacts U → U

inductive Write (U : Type) where
  | activate (row : Activation U)
  | activation (id : U) (fields : Activation U → Activation U)
  | occur (row : Occurrence U)
  | occurrence (id : U) (fields : Occurrence U → Occurrence U)

variable (db : Db U)

def Db.write : Write U → Db U
  | .activate row => { db with activations := db.activations.put row }
  | .activation id fields => { db with activations := db.activations.modify id fields }
  | .occur row => { db with occurrences := db.occurrences.put row }
  | .occurrence id fields => { db with occurrences := db.occurrences.modify id fields }

/-- The datoms of one transaction function. -/
abbrev Tx (U : Type) := List (Write U)

def Db.apply (writes : Tx U) : Db U := writes.foldl Db.write db

@[simp] theorem Db.apply_nil : db.apply [] = db := rfl

@[simp] theorem Db.apply_cons (w : Write U) (writes : Tx U) :
    db.apply (w :: writes) = (db.write w).apply writes := rfl

@[simp] theorem Db.write_activation_occurrences (id : U) (fields : Activation U → Activation U) :
    (db.write (.activation id fields)).occurrences = db.occurrences := rfl

@[simp] theorem Db.write_occurrence_activations (id : U) (fields : Occurrence U → Occurrence U) :
    (db.write (.occurrence id fields)).activations = db.activations := rfl

@[simp] theorem Db.write_activate_occurrences (row : Activation U) :
    (db.write (.activate row)).occurrences = db.occurrences := rfl

@[simp] theorem Db.write_occur_activations (row : Occurrence U) :
    (db.write (.occur row)).activations = db.activations := rfl

theorem Db.get_write_activation {db : Db U} {id : U} {fields : Activation U → Activation U}
    (hid : ∀ r, (fields r).id = r.id) (l : U) :
    (db.write (.activation id fields)).activations.get l =
      if l = id then (db.activations.get id).map fields else db.activations.get l :=
  get_modify hid l

theorem Db.get_write_occurrence {db : Db U} {id : U} {fields : Occurrence U → Occurrence U}
    (hid : ∀ r, (fields r).id = r.id) (l : U) :
    (db.write (.occurrence id fields)).occurrences.get l =
      if l = id then (db.occurrences.get id).map fields else db.occurrences.get l :=
  get_modify hid l

theorem Db.get_write_activate (row : Activation U) (l : U) :
    (db.write (.activate row)).activations.get l =
      if l = row.id then some row else db.activations.get l :=
  get_put _ _ _

theorem Db.get_write_occur (row : Occurrence U) (l : U) :
    (db.write (.occur row)).occurrences.get l =
      if l = row.id then some row else db.occurrences.get l :=
  get_put _ _ _

end Simmis.Schedules
