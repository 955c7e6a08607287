import Simmis.Schedules.Admission

/-!
# The schedule dispatcher

The process that recovers, ticks and dispatches one activation, one transaction at a time. Between
any two of them the process may crash, people may pause and resume, and the request journal may move
on. A person's resume reads the rows before it writes.
-/

namespace Simmis.Schedules

variable {U : Type} [DecidableEq U]

/-- Where the dispatcher is, with the rows it has read. -/
inductive Phase (U : Type) [DecidableEq U] where
  | down
  /-- `recover!`, with the admissions that are still to be visited. -/
  | recovering (todo : List U)
  /-- `recover!` after `finish-admission!`, before `block!`. -/
  | recoverBlock (id : U) (todo : List U)
  /-- Between two passes of `tick!`. -/
  | idle
  | ticking (row : Activation U)
  /-- The body of `release-settled!`. -/
  | releasing (row : Activation U) (o : Occurrence U)
  | firing (row : Activation U)
  | dispatching (row : Activation U)
  /-- The body of `dispatch!` under an acknowledged claim. -/
  | admitted (row : Activation U) (oid claim : U)
  /-- The handler of `dispatch!`, which has read the request. -/
  | finishing (row : Activation U) (oid claim : U) (submitted requested : Bool) (reason : Reason)
  | blocking (row : Activation U) (oid : U) (requested : Bool) (reason : Reason)
  | clearing (row : Activation U) (oid : U)

structure System (U : Type) [DecidableEq U] where
  db : Db U
  phase : Phase U
  /-- Resumes that have passed their inspection and not yet written. -/
  resumes : ℕ

def System.init : System U := ⟨.init, .down, 0⟩

inductive Event (U : Type) [DecidableEq U] where
  | create (id room by_ revision targetRef : U) (now nextFire : ℤ) (on : Bool)
  | crash
  /-- The process starts and reads the admitting occurrences. -/
  | start
  /-- The next transaction of the phase that needs no argument. -/
  | next
  /-- An exception, with its `:type`. -/
  | throw (type : Option String)
  | announce
  | processed (settled : Bool)
  | executionFailed
  | failTerminal (outcome : Outcome U)
  | due (now : ℤ)
  | admitClaim (claim : U)
  | select (inputId : U) (emptyInput : Bool)
  | retain (inputId revision ref : U)
  | submitted
  | pause
  | inspect
  | resume
  | elsewhere (requests : Table (Request.id (U := U)))

/-- The request of an occurrence, by its canonical identity. -/
def requestOf (h : Hasch U) (db : Db U) (row : Activation U) (oid : U) : Option (Request U) :=
  db.requests.get (h.request row.by_ row.room oid)

def isSubmitted (request : Option (Request U)) : Bool := request.any (·.state = .submitted)

/-- A transaction of the dispatcher and where it continues after reading back. -/
structure Turn (U : Type) [DecidableEq U] where
  step : Option (Step U)
  phase : Db U → Phase U

/-- The turns of the dispatcher of activation `aid`. -/
def turn (h : Hasch U) (aid : U) (db : Db U) : Phase U → Event U → Option (Turn U)
  | .down, .start =>
    let admitting := db.occurrences.select (·.state = .admitting)
    some ⟨none, fun _ ↦ .recovering (admitting.map (·.id))⟩
  | .recovering [], .next => some ⟨none, fun _ ↦ .idle⟩
  | .recovering (oid :: todo), .next =>
    match db.occurrences.get oid with
    | none => some ⟨none, fun _ ↦ .recovering todo⟩
    | some o =>
      match db.activations.get o.activation with
      | none => some ⟨none, fun _ ↦ .recovering todo⟩
      | some row =>
        let request := requestOf h db row oid
        -- the claim belongs to the dispatcher that is physically gone
        let finish (state : State) : Step U :=
          .finish oid (o.claim.getD oid) state (request.map (·.id)) (some .restart)
        if isSubmitted request then some ⟨some (finish .linked), fun _ ↦ .recovering todo⟩
        else some ⟨some (finish .interrupted), fun _ ↦ .recoverBlock row.id todo⟩
  | .recoverBlock id todo, .next => some ⟨some (.block id .interrupted), fun _ ↦ .recovering todo⟩
  | .idle, .next =>
    match db.activations.get aid with
    | none => none
    | some row => some ⟨none, fun _ ↦ .ticking row⟩
  | .ticking row, .next =>
    match row.activeOccurrence.bind db.occurrences.get with
    | none => some ⟨none, fun _ ↦ .firing row⟩
    | some o =>
      if o.state = .linked ∧
          (o.request.bind db.requests.get).any (·.returnPending = some false) then
        some ⟨none, fun _ ↦ .releasing row o⟩
      else some ⟨none, fun _ ↦ .firing row⟩
  | .releasing row o, .announce => some ⟨some (.announce o.id), fun _ ↦ .releasing row o⟩
  | .releasing row o, .processed settled =>
    some ⟨some (.processed o.id settled), fun _ ↦ .releasing row o⟩
  | .releasing row o, .executionFailed =>
    some ⟨some (.block row.id .executionFailed), fun _ ↦ .releasing row o⟩
  | .releasing row o, .failTerminal outcome =>
    some ⟨some (.failTerminal row.id row.resumeIdentity o.failureFields outcome),
      fun _ ↦ .releasing row o⟩
  | .releasing row o, .next => some ⟨some (.clearActive row.id o.id), fun _ ↦ .firing row⟩
  -- a failed release is logged and retried by a later pass
  | .releasing row _, .throw _ => some ⟨none, fun _ ↦ .firing row⟩
  | .firing row, .due now =>
    if row.enabled then some ⟨some (.due row.id row.revision now), fun _ ↦ .dispatching row⟩
    else some ⟨none, fun _ ↦ .dispatching row⟩
  | .dispatching row, .admitClaim claim =>
    match (db.activations.get row.id).bind (·.activeOccurrence) with
    | none => some ⟨none, fun _ ↦ .idle⟩
    | some oid =>
      if (db.occurrences.get oid).any (·.state = .pending) then
        some ⟨some (.admitClaim oid claim), fun db ↦
          if (db.occurrences.get oid).bind (·.claim) = some claim then .admitted row oid claim
          else .idle⟩
      else some ⟨none, fun _ ↦ .idle⟩
  | .admitted row oid claim, .select inputId emptyInput =>
    some ⟨some (.selectInput oid claim inputId emptyInput), fun db ↦
      if (db.occurrences.get oid).any (·.state = .skipped) then .idle else .admitted row oid claim⟩
  | .admitted row oid claim, .retain inputId revision ref =>
    some ⟨some (.retainInput oid claim inputId revision ref), fun _ ↦ .admitted row oid claim⟩
  | .admitted row oid claim, .submitted =>
    some ⟨some (.finish oid claim .linked (some (h.request row.by_ row.room oid)) none),
      fun _ ↦ .idle⟩
  | .admitted row oid claim, .throw type =>
    let request := requestOf h db row oid
    let reason := if request.isSome then .interrupted else (type.map .type).getD .admissionFailed
    some ⟨none, fun _ ↦ .finishing row oid claim (isSubmitted request) request.isSome reason⟩
  | .finishing row oid claim submitted requested reason, .next =>
    let state : State :=
      if submitted then .linked else if requested then .interrupted else .blocked
    let request := if requested then some (h.request row.by_ row.room oid) else none
    some ⟨some (.finish oid claim state request (some reason)), fun _ ↦
      if submitted then .idle else .blocking row oid requested reason⟩
  | .blocking row oid requested reason, .next =>
    some ⟨some (.block row.id reason), fun _ ↦ if requested then .idle else .clearing row oid⟩
  | .clearing row oid, .next => some ⟨some (.clearActive row.id oid), fun _ ↦ .idle⟩
  -- any other exception of a pass blocks the activation
  | .ticking row, .throw type | .firing row, .throw type | .dispatching row, .throw type
  | .finishing row _ _ _ _ _, .throw type | .blocking row _ _ _, .throw type
  | .clearing row _, .throw type =>
    some ⟨some (.block row.id ((type.map .type).getD .dispatcherFailed)), fun _ ↦ .idle⟩
  | _, _ => none

def System.take (h : Hasch U) (cadence : U → Cadence) (s : System U) : Option (Turn U) → System U
  | none => s
  | some t =>
    let db := t.step.elim s.db (s.db.step h cadence)
    { s with db := db, phase := t.phase db }

def System.step (h : Hasch U) (cadence : U → Cadence) (aid : U) (s : System U) : Event U → System U
  | .create id room by_ revision targetRef now nextFire on =>
    { s with db := s.db.step h cadence (.create id room by_ revision targetRef now nextFire on) }
  | .crash => { s with phase := .down }
  | .pause => { s with db := s.db.step h cadence (.enabled aid false) }
  | .inspect =>
    match s.db.activations.get aid with
    | none => s
    | some row =>
      if (row.activeOccurrence.bind s.db.occurrences.get).any (·.state = .interrupted) then s
      else { s with resumes := s.resumes + 1 }
  | .resume =>
    if s.resumes = 0 then s
    else { s with db := s.db.step h cadence (.enabled aid true), resumes := s.resumes - 1 }
  | .elsewhere requests => { s with db := s.db.step h cadence (.elsewhere requests) }
  | event => s.take h cadence (turn h aid s.db s.phase event)

end Simmis.Schedules
