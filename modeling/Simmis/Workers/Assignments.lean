import Simmis.Library.Table

/-!
# External worker assignments

An assignment is one run on one worker: it is prepared or queued by the host, claimed by the worker
under a lease, and ends withdrawn, stopped or completed. What a transition returns is applied as a
whole, and a thrown refusal changes nothing.
-/

namespace Simmis.Workers

/-- Milliseconds of a host clock. -/
abbrev Time := ℤ

variable {U : Type} [DecidableEq U]

/-- `:simmis.worker/...` -/
structure Enrollment (U : Type) where
  id : U
  by_ : U
  room : U
  generation : ℕ
  credentialHash : String
  configId : U
  configRef : U
  createdAt : Time
  revokedAt : Option Time

inductive State where
  | prepared | queued | claimed | quarantined | withdrawn | stopped | completed
deriving DecidableEq, Repr

/-- `:simmis.worker.assignment/...` -/
structure Assignment (U : Type) where
  id : U
  worker : U
  generation : ℕ
  room : U
  request : U
  job : U
  cell : Option U
  intentId : U
  inputRef : U
  state : State
  queuedAt : Option Time
  nonce : Option U
  lease : Option U
  secretHash : Option String
  heartbeatAt : Option Time
  expiresAt : Option Time
  cancelAt : Option Time
  outputId : Option U
  outputRef : Option U
  stopAckAt : Option Time

structure Db (U : Type) [DecidableEq U] where
  workers : Table (Enrollment.id (U := U))
  assignments : Table (Assignment.id (U := U))

/-- Current room permission of a worker, asked in the writer; a host may pass none. -/
abbrev Permitted (U : Type) [DecidableEq U] := Option (Db U → Enrollment U → Bool)

/-- The `:type` of a refusal. -/
inductive Refusal where
  | denied | conflict | missing | invalid | busy
deriving DecidableEq, Repr

inductive Write (U : Type) where
  | worker (row : Enrollment U)
  | revoke (id : U) (now : Time)
  | insert (row : Assignment U)
  | update (id : U) (fields : Assignment U → Assignment U)

variable (db : Db U)

def Db.write : Write U → Db U
  | .worker row => { db with workers := db.workers.put row }
  | .revoke id now =>
    { db with workers := db.workers.modify id fun row ↦ { row with revokedAt := some now } }
  | .insert row => { db with assignments := db.assignments.put row }
  | .update id fields => { db with assignments := db.assignments.modify id fields }

/-- The datoms of one transaction function. -/
abbrev Tx (U : Type) := List (Write U)

def permits (permitted : Permitted U) (db : Db U) (worker : Enrollment U) : Bool :=
  permitted.all fun ask ↦ ask db worker

/-- `active-enrollment!`: the worker row, or a refusal. -/
def activeEnrollment (id : U) (generation : ℕ) (room : U) (permitted : Permitted U) :
    Except Refusal (Enrollment U) :=
  match db.workers.get id with
  | none => .error .denied
  | some worker =>
    if worker.revokedAt = none ∧ generation = worker.generation ∧ room = worker.room ∧
        permits permitted db worker then .ok worker
    else .error .denied

/-- `insert-tx` for an enrollment. -/
def insertWorkerTx (row : Enrollment U) : Except Refusal (Tx U) :=
  match db.workers.get row.id with
  | some old => if row.configId = old.configId then .ok [] else .error .conflict
  | none => .ok [.worker row]

/-- `insert-tx` for an assignment. -/
def insertAssignmentTx (row : Assignment U) (permitted : Permitted U) : Except Refusal (Tx U) :=
  match db.assignments.get row.id with
  | some old => if row.intentId = old.intentId then .ok [] else .error .conflict
  | none => do
    let _ ← activeEnrollment db row.worker row.generation row.room permitted
    pure [.insert row]

/-- The compare-and-set of `revoke!`. -/
def revokeTx (id : U) (now : Time) : Except Refusal (Tx U) :=
  match db.workers.get id with
  | none => .error .missing
  | some worker => if worker.revokedAt = none then .ok [.revoke id now] else .error .conflict

/-- What the host binds a run to. -/
structure Intent (U : Type) where
  id : U
  worker : U
  generation : ℕ
  room : U
  request : U
  job : U
  cell : Option U
  /-- `assignment-digest` of the other fields and the input value. -/
  digest : U

variable (intent : Intent U)

/-- The row of an intent, without any ownership field. -/
def Intent.row (state : State) (queuedAt : Option Time) (ref : U) : Assignment U where
  id := intent.id
  worker := intent.worker
  generation := intent.generation
  room := intent.room
  request := intent.request
  job := intent.job
  cell := intent.cell
  intentId := intent.digest
  inputRef := ref
  state := state
  queuedAt := queuedAt
  nonce := none
  lease := none
  secretHash := none
  heartbeatAt := none
  expiresAt := none
  cancelAt := none
  outputId := none
  outputRef := none
  stopAckAt := none

/-- The insert of `prepare!`. -/
def prepareTx (ref : U) (permitted : Permitted U) : Except Refusal (Tx U) :=
  insertAssignmentTx db (intent.row .prepared none ref) permitted

/-- The insert of `enqueue!`; `queue-prepared-tx` follows in its own transaction. -/
def enqueueTx (ref : U) (now : Time) (permitted : Permitted U) : Except Refusal (Tx U) :=
  insertAssignmentTx db (intent.row .queued (some now) ref) permitted

def queuePreparedTx (id digest : U) (now : Time) (permitted : Permitted U) :
    Except Refusal (Tx U) :=
  match db.assignments.get id with
  | none => .error .conflict
  | some row =>
    if digest ≠ row.intentId then .error .conflict
    else if row.state = .prepared then do
      let _ ← activeEnrollment db row.worker row.generation row.room permitted
      pure [.update id fun row ↦ { row with state := .queued, queuedAt := some now }]
    else .ok []

/-- `owned!`: the row that this lease and proof own. -/
def owned (id lease : U) (hash : String) : Except Refusal (Assignment U) :=
  match db.assignments.get id with
  | none => .error .denied
  | some row =>
    if row.lease = some lease ∧ row.secretHash = some hash then .ok row else .error .denied

/-- `expired?`: a lease with an expiry that is not after `now`. -/
def Assignment.expired (row : Assignment U) (now : Time) : Bool :=
  row.expiresAt.any fun expiry ↦ expiry ≤ now

def quarantine (id : U) (now : Time) : Write U :=
  .update id fun row ↦ { row with state := .quarantined, cancelAt := some (row.cancelAt.getD now) }

/-- Some assignment of the worker has a lease and no shutdown receipt. -/
def unresolved (worker : U) : Bool :=
  db.assignments.rows.any fun row ↦ row.worker = worker ∧ row.lease.isSome ∧ row.stopAckAt = none

def claimTx (id worker : U) (generation : ℕ) (nonce : U) (hash : String) (lease : U)
    (now ttl : Time) (permitted : Permitted U) : Except Refusal (Tx U) :=
  match db.assignments.get id with
  | none => .error .missing
  | some row => do
    let _ ← activeEnrollment db worker generation row.room permitted
    if ¬ (worker = row.worker ∧ generation = row.generation) then throw .denied
    else if row.state = .queued then
      if unresolved db worker then throw .busy
      else pure [.update id fun row ↦
        { row with
          state := .claimed, nonce := some nonce, secretHash := some hash, lease := some lease,
          heartbeatAt := some now, expiresAt := some (now + ttl) }]
    else if row.nonce = some nonce ∧ row.secretHash = some hash then
      if row.state = .claimed ∧ row.expired now then pure [quarantine id now] else pure []
    else throw .conflict

def cancelTx (id : U) (now : Time) : Except Refusal (Tx U) :=
  match db.assignments.get id with
  | none => .error .missing
  | some row =>
    if row.cancelAt.isSome then .ok []
    else if row.state = .prepared ∨ row.state = .queued then
      .ok [.update id fun row ↦
        { row with state := .withdrawn, cancelAt := some now, stopAckAt := some now }]
    else if row.stopAckAt.isSome then
      .ok [.update id fun row ↦ { row with cancelAt := some now }]
    else .ok [quarantine id now]

/-- The tombstone also fences an enqueue that arrives later. -/
def withdrawTx (ref : U) (now queuedAt : Time) : Except Refusal (Tx U) :=
  match db.assignments.get intent.id with
  | some old => if intent.digest ≠ old.intentId then .error .conflict else cancelTx db intent.id now
  | none =>
    .ok [.insert { intent.row .withdrawn (some queuedAt) ref with
      cancelAt := some now, stopAckAt := some now }]

def heartbeatTx (id lease : U) (hash : String) (now ttl : Time) (permitted : Permitted U) :
    Except Refusal (Tx U) := do
  let row ← owned db id lease hash
  let worker := db.workers.get row.worker
  if row.stopAckAt.isSome then pure []
  else if row.cancelAt.isSome ∨ row.expired now ∨ (worker.bind (·.revokedAt)).isSome ∨
      ¬ worker.all (permits permitted db) ∨ worker.map (·.generation) ≠ some row.generation then
    pure [quarantine id now]
  else
    pure [.update id fun row ↦ { row with heartbeatAt := some now, expiresAt := some (now + ttl) }]

def stoppedTx (id lease : U) (hash : String) (now : Time) : Except Refusal (Tx U) := do
  let row ← owned db id lease hash
  if row.stopAckAt.isSome then pure []
  else pure [.update id fun row ↦ { row with state := .stopped, stopAckAt := some now }]

/-- Completion includes the physical-stop acknowledgement. -/
def completeTx (id lease : U) (hash : String) (digest ref : U) (now : Time)
    (permitted : Permitted U) : Except Refusal (Tx U) := do
  let row ← owned db id lease hash
  match row.outputId with
  | some old => if old = digest then pure [] else throw .conflict
  | none =>
    let _ ← activeEnrollment db row.worker row.generation row.room permitted
    if row.state = .claimed ∧ row.cancelAt = none ∧ ¬ row.expired now then
      pure [.update id fun row ↦
        { row with
          state := .completed, outputId := some digest, outputRef := some ref,
          stopAckAt := some now }]
    else throw .denied

/-- One transaction of any caller, with the clock reading taken in the writer. -/
inductive Step (U : Type) [DecidableEq U] where
  | enroll (row : Enrollment U)
  | revoke (id : U) (now : Time)
  | prepare (intent : Intent U) (ref : U) (permitted : Permitted U)
  | enqueue (intent : Intent U) (ref : U) (now : Time) (permitted : Permitted U)
  | queuePrepared (id digest : U) (now : Time) (permitted : Permitted U)
  | claim (id worker : U) (generation : ℕ) (nonce : U) (hash : String) (lease : U) (now ttl : Time)
      (permitted : Permitted U)
  | heartbeat (id lease : U) (hash : String) (now ttl : Time) (permitted : Permitted U)
  | cancel (id : U) (now : Time)
  | withdraw (intent : Intent U) (ref : U) (now queuedAt : Time)
  | stopped (id lease : U) (hash : String) (now : Time)
  | complete (id lease : U) (hash : String) (digest ref : U) (now : Time) (permitted : Permitted U)

def Step.tx : Step U → Except Refusal (Tx U)
  | .enroll row => insertWorkerTx db row
  | .revoke id now => revokeTx db id now
  | .prepare intent ref permitted => prepareTx db intent ref permitted
  | .enqueue intent ref now permitted => enqueueTx db intent ref now permitted
  | .queuePrepared id digest now permitted => queuePreparedTx db id digest now permitted
  | .claim id worker generation nonce hash lease now ttl permitted =>
    claimTx db id worker generation nonce hash lease now ttl permitted
  | .heartbeat id lease hash now ttl permitted => heartbeatTx db id lease hash now ttl permitted
  | .cancel id now => cancelTx db id now
  | .withdraw intent ref now queuedAt => withdrawTx db intent ref now queuedAt
  | .stopped id lease hash now => stoppedTx db id lease hash now
  | .complete id lease hash digest ref now permitted =>
    completeTx db id lease hash digest ref now permitted

/-- A refused transaction leaves the database unchanged. -/
def Db.step (db : Db U) (step : Step U) : Db U :=
  match step.tx db with
  | .ok writes => writes.foldl Db.write db
  | .error _ => db

def Db.init : Db U := ⟨.empty, .empty⟩

end Simmis.Workers
