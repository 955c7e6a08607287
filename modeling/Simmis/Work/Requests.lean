import Simmis.Library.Checks
import Simmis.Library.Clients
import Simmis.Library.Table

/-!
# Work requests

A request row is inserted once, by the call that wins the conditional insert, and carries the random
token of that call. Every function reads the published snapshot, may submit one transaction, and
decides after an exception from what it reads back.
-/

namespace Simmis.Work

open Clients

variable {U I : Type} [DecidableEq U]

/-- `:work.request/kind` -/
inductive Kind where
  | allowance | workflow | coordinator | benchmark | cliBenchmark | localWorkerBenchmark
  | named (keyword : String)
deriving DecidableEq, Repr

inductive State where
  | admitting | submitted | provisioned | interrupted
deriving DecidableEq, Repr

structure Limits where
  budgetMicrodollars : Option ℤ := none
  maxDispatches : Option ℤ := none
  maxModelSteps : Option ℤ := none
  maxWorkerAdmissions : Option ℤ := none
  maxCliRuns : Option ℤ := none
  timeoutMs : Option ℤ := none
  settlement : Option Kind := none
deriving DecidableEq, Repr

/-- The keys of an intent that admission reads, and everything else under `rest`. -/
structure Intent (U I : Type) where
  publicationBasis : Option I
  executionId : Option U
  batch : Option (U × U)
  batchControl : Bool
  rest : I
deriving DecidableEq, Repr

structure Input (U I : Type) where
  party : U
  room : U
  clientId : U
  kind : Kind
  intent : Intent U I
  limits : Option Limits
deriving DecidableEq, Repr

/-- `{:kind kind :limits (or limits {}) :input intent}` -/
structure Retained (U I : Type) where
  kind : Kind
  limits : Limits
  input : Intent U I
deriving DecidableEq, Repr

/-- `:work.request/...` -/
structure Row (U : Type) where
  id : U
  clientId : U
  by_ : U
  room : U
  kind : Kind
  intentId : U
  claim : U
  createdAt : ℤ
  state : State
  publicationBasisId : Option U
  knowledgeBatch : Option U
  knowledgeFrozen : Option U
  limits : Limits
  payloadRef : Option U
  job : Option U
  returnPending : Option Bool
  incident : Option U
deriving DecidableEq, Repr

abbrev Db (U : Type) [DecidableEq U] := Table (Row.id (U := U))

/-- `lost` is the connection's own; a compare-and-set reports what it found. -/
inductive Exn (U : Type) where
  | batchNeedsJointAdmission | invalidBatch | invalidPublicationBasis | invalidLimit
  | conflict | missing | notOwner
  | casState (found : State)
  | casJob (found : Option U)
  | lost
deriving DecidableEq, Repr

/-- Identities, content addresses and random tokens. -/
structure Host (U I : Type) where
  requestId : U → U → U → U
  digest : Retained U I → U
  publishValue : Retained U I → U
  validatedBasis : I → Option U
  randomUuid : ℕ ↪ U

structure Prepared (U I : Type) where
  id : U
  party : U
  room : U
  clientId : U
  kind : Kind
  limits : Option Limits
  basisId : Option U
  intent : Retained U I
  digest : U

variable (host : Host U I)

def publicationId (intent : Intent U I) : Except (Exn U) (Option U) :=
  match intent.publicationBasis with
  | none => .ok none
  | some basis =>
    match host.validatedBasis basis, intent.executionId with
    | some id, some _ => .ok (some id)
    | _, _ => .error .invalidPublicationBasis

def prepareClaim (input : Input U I) : Except (Exn U) (Prepared U I) := do
  require (input.intent.batch.isSome → input.kind = .workflow) .invalidBatch
  let basisId ← publicationId host input.intent
  let intent : Retained U I := ⟨input.kind, input.limits.getD {}, input.intent⟩
  return { id := host.requestId input.party input.room input.clientId
           party := input.party, room := input.room, clientId := input.clientId
           kind := input.kind, limits := input.limits, basisId, intent
           digest := host.digest intent }

/-- `:db.type/long` -/
def long (n : ℤ) : Prop := -2 ^ 63 ≤ n ∧ n < 2 ^ 63

instance (n : ℤ) : Decidable (long n) := inferInstanceAs (Decidable (_ ∧ _))

def Limits.columns (limits : Limits) : List (Option ℤ) :=
  [limits.budgetMicrodollars, limits.maxDispatches, limits.maxModelSteps,
    limits.maxWorkerAdmissions, limits.maxCliRuns, limits.timeoutMs]

/-- Every integral limit fits its typed column. -/
def Limits.Long (limits : Limits) : Prop := ∀ n ∈ limits.columns, ∀ value ∈ n, long value

instance (limits : Limits) : Decidable limits.Long :=
  inferInstanceAs (Decidable (∀ n ∈ limits.columns, ∀ value ∈ n, long value))

variable (prepared : Prepared U I)

/-- The row of one original attempt, under its token. -/
def claimRow (claim : U) (now : ℤ) : Except (Exn U) (Row U) := do
  let limits := prepared.limits.getD {}
  require limits.Long .invalidLimit
  return { id := prepared.id, clientId := prepared.clientId, by_ := prepared.party
           room := prepared.room, kind := prepared.kind, intentId := prepared.digest, claim
           createdAt := now, state := .admitting, publicationBasisId := prepared.basisId
           knowledgeBatch := prepared.intent.input.batch.map (·.1)
           knowledgeFrozen := prepared.intent.input.batch.map (·.2), limits
           payloadRef := none, job := none, returnPending := none, incident := none }

variable (row : Row U)

def sameIntent (intentId : U) : Except (Exn U) (Row U) := do
  require (intentId = row.intentId) .conflict
  return row

/-- The rows that the insert fragment adds to the writer's own database. -/
def claimTx (db : Db U) (row : Row U) (digest : U) : Except (Exn U) (List (Row U)) :=
  match db.get row.id with
  | some found => do
    let _ ← sameIntent found digest
    return []
  | none => .ok [row]

def inspectClaim (db : Db U) (prepared : Prepared U I) : Except (Exn U) (Option (Row U)) :=
  match db.get prepared.id with
  | some row => do return some (← sameIntent row prepared.digest)
  | none => .ok none

def claimResult (db : Db U) (prepared : Prepared U I) (claim : U) : Except (Exn U) (Row U × Bool) :=
  match inspectClaim db prepared with
  | .ok (some row) => .ok (row, claim = row.claim)
  | .ok none => .error .missing
  | .error e => .error e

inductive Tx (U : Type) where
  | claim (row : Row U) (digest : U)
  | recordJob (id job : U)
  | recordProvisioned (id : U)
  | interrupt (id : U) (incident : Option U)
  | markReturned (id : U)

def Row.submit (job : U) (row : Row U) : Row U :=
  { row with state := .submitted, job := some job, returnPending := some true }

def Row.provision : Row U := { row with state := .provisioned }

def Row.interrupt (incident : Option U) (row : Row U) : Row U :=
  { row with state := .interrupted, incident := incident.or row.incident }

def Row.markReturned : Row U := { row with returnPending := some false }

/-- `[:db.fn/cas eid :work.request/state :admitting ...]` -/
def casAdmitting (db : Db U) (id : U) : Except (Exn U) (Row U) :=
  match db.get id with
  | some row => do
    require (row.state = .admitting) (.casState row.state)
    return row
  | none => .error .missing

def Tx.exec (db : Db U) : Tx U → Except (Exn U) (Db U)
  | .claim row digest => do return db.putAll (← claimTx db row digest)
  | .recordJob id job => do
    let row ← casAdmitting db id
    require (row.job = none) (.casJob row.job)
    return db.modify id (Row.submit job)
  | .recordProvisioned id => do
    let _ ← casAdmitting db id
    return db.modify id Row.provision
  | .interrupt id incident => do
    let _ ← casAdmitting db id
    return db.modify id (Row.interrupt incident)
  | .markReturned id => .ok (db.modify id Row.markReturned)

inductive Reply (U : Type) where
  | claimed (request : Row U) (claimed : Bool)
  | row (request : Option (Row U))
  | nothing

/-- The calls of admission, each with its reads, its transaction and its exceptions. -/
abbrev Admission (U : Type) [DecidableEq U] := Call (Db U) (Tx U) (Exn U) (Reply U)

def readClaim (claim : U) : Admission U :=
  .read fun db ↦ .done ((claimResult db prepared claim).map fun r ↦ .claimed r.1 r.2)

/-- What `claim!` does with its row: insert, and then decide. -/
def attempt : Admission U :=
  .transact (.claim { row with payloadRef := some (host.publishValue prepared.intent) }
      prepared.digest) fun
    | none => readClaim prepared row.claim
    | some e => .read fun db ↦
      match inspectClaim db prepared with
      | .error e' => .done (.error e')
      | .ok none => .done (.error e)
      | .ok (some _) => readClaim prepared row.claim

def claim (token : U) (input : Input U I) (now : ℤ) : Admission U :=
  if input.intent.batch.isSome ∨ input.intent.batchControl then
    .done (.error .batchNeedsJointAdmission)
  else
    match prepareClaim host input with
    | .error e => .done (.error e)
    | .ok prepared => .read fun db ↦
      match inspectClaim db prepared with
      | .error e => .done (.error e)
      | .ok (some row) => .done (.ok (.claimed row false))
      | .ok none =>
        match claimRow prepared token now with
        | .error e => .done (.error e)
        | .ok row => attempt host prepared row

def getRequest (id : U) : Admission U := .read fun db ↦ .done (.ok (.row (db.get id)))

def Row.holds (claim job : U) : Prop :=
  claim = row.claim ∧
    (row.state = .admitting ∧ row.job = none ∨ row.state = .submitted ∧ row.job = some job)

instance (row : Row U) (claim job : U) : Decidable (row.holds claim job) :=
  inferInstanceAs (Decidable (_ ∧ _))

def recordJob (id claim job : U) : Admission U :=
  .read fun db ↦
    match db.get id with
    | none => .done (.error .notOwner)
    | some row =>
      if row.holds claim job then
        if row.state = .admitting then
          .transact (.recordJob id job) fun
            | none => getRequest id
            | some e => .read fun after ↦
              if (after.get id).any fun r ↦ r.state = .submitted ∧ r.job = some job then
                getRequest id
              else .done (.error e)
        else getRequest id
      else .done (.error .notOwner)

def markReturned (id : U) : Admission U :=
  .read fun db ↦
    match db.get id with
    | none => .done (.error .missing)
    | some _ => .transact (.markReturned id) fun
      | none => .done (.ok .nothing)
      | some e => .done (.error e)

def recordProvisioned (id claim : U) : Admission U :=
  .read fun db ↦
    match db.get id with
    | none => .done (.error .notOwner)
    | some row =>
      if row.kind = .allowance ∧ claim = row.claim then
        if row.state = .admitting then
          .transact (.recordProvisioned id) fun
            | none => getRequest id
            | some e => .read fun after ↦
              if (after.get id).any fun r ↦ r.state = .provisioned then getRequest id
              else .done (.error e)
        else getRequest id
      else .done (.error .notOwner)

/-- A competing writer's committed value is authoritative before it is published. -/
def lostTransition : Exn U → Bool
  | .casState .submitted | .casState .interrupted => true
  | _ => false

def interrupt (id : U) (incident : Option U) : Admission U :=
  .read fun db ↦
    match db.get id with
    | none => .done (.error .missing)
    | some row =>
      if row.state = .admitting then
        .transact (.interrupt id incident) fun
          | none => .done (.ok .nothing)
          | some e =>
            if lostTransition e then .done (.ok .nothing)
            else .read fun after ↦
              if (after.get id).any fun r ↦ r.state = .admitting then .done (.error e)
              else .done (.ok .nothing)
      else .done (.ok .nothing)

inductive Request (U I : Type) where
  | claim (input : Input U I) (now : ℤ)
  | recordJob (id claim job : U)
  | markReturned (id : U)
  | recordProvisioned (id claim : U)
  | interrupt (id : U) (incident : Option U)

/-- The `n`-th call draws the `n`-th random token. -/
def Request.call (n : ℕ) : Request U I → Admission U
  | .claim input now => Work.claim host (host.randomUuid n) input now
  | .recordJob id token job => Work.recordJob id token job
  | .markReturned id => Work.markReturned id
  | .recordProvisioned id token => Work.recordProvisioned id token
  | .interrupt id incident => Work.interrupt id incident

def service : Service (Request U I) (Db U) (Tx U) (Exn U) (Reply U) where
  call := Request.call host
  exec tx db := tx.exec db
  lost := .lost

/-- Every state that callers reach from a database without requests. -/
abbrev reached (host : Host U I) (events : List (Event (Request U I))) :
    World (Request U I) (Db U) (Tx U) (Exn U) (Reply U) :=
  Runs.run (World.step (service host)) (World.init .empty) events

end Simmis.Work
