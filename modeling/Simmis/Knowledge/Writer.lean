import Simmis.Library.Runs
import Simmis.Knowledge.Retirement

/-!
# The serialized journal writer

One step is one accepted or refused fragment of any caller; a refused one leaves the journal
unchanged. The other journals may move on at any time.
-/

namespace Simmis.Knowledge

variable {U P : Type} [DecidableEq U] [LinearOrder P]

inductive Step (U P : Type) [DecidableEq U] where
  | discovery (value : Descriptor U) (expected : Option (Stream U)) (plan : Plan U P)
      (root payloadRef : U)
  | prepare (value : Descriptor U) (expected : Option (Stream U))
      (payloadId ref root claim : U)
  | markPinned (expected : Pin U)
  | pinDiscovery (expectedIntent : Pin U) (value : Descriptor U)
      (expectedStream : Option (Stream U)) (plan : Plan U P) (origin : Origin U) (planRef : U)
  | finishPin (expected : Pin U)
  | claim (selection : Selection U P) (ref claim : U)
  | freeze (expected : Batch U) (frozenRef frozenId : U)
  | request (origin : BatchOrigin U) (request : Schedules.Request U) (intentId : U)
  | retention (value : Schedules.BindingValue U) (ref : U)
  | filing (expected : Proof U P) (value : Disposition U)
  | acceptance (expected : Proof U P) (value : Disposition U) (accepted : Operation U)
  | dismissal (expected : Proof U P) (value : Disposition U) (by_ : U) (at_ : ℤ)
  | abandon (expected : Abandonment U P) (value : BatchDecision U)
  | abandonCapturing (expected : Abandonment U P) (value : BatchDecision U)
  | requeueReady (expected : Abandonment U P) (value : BatchDecision U)
  | requeueCapturing (expected : Abandonment U P) (value : BatchDecision U)
  | requeue (expected : FailedUpdate U P) (value : SubmittedDecision U)
  | begin (expected : Retiring U) (value : RetirementDecision U)
  | finishRetirement (expected : Retiring U) (value : RetirementDecision U)
  /-- The schedules, the requests, the proposals and the adoptions have moved on. -/
  | elsewhere (schedules : Schedules.Db U) (world : World U)

def Step.tx (h : Hasch U P) (db : Db U P) : Step U P → Except Reason (Tx U P)
  | .discovery value expected plan root payloadRef =>
    discoveryTx h db.toJournal value expected plan root payloadRef
  | .prepare value expected payloadId ref root token =>
    prepareTx h db.toJournal value expected payloadId ref root token
  | .markPinned expected => markPinnedTx db.toJournal expected
  | .pinDiscovery expectedIntent value expectedStream plan origin planRef =>
    pinDiscoveryTx h db.toJournal expectedIntent value expectedStream plan origin planRef
  | .finishPin expected => finishPinTx db.toJournal expected
  | .claim selection ref token => claimTx h db.toJournal selection ref token
  | .freeze expected frozenRef frozenId => freezeTx db.toJournal expected frozenRef frozenId
  | .request origin row intentId => requestTx h db origin row intentId
  | .retention value ref => retentionTx h db value ref
  | .filing expected value => filingTx h db expected value
  | .acceptance expected value accepted => acceptanceTx h db expected value accepted
  | .dismissal expected value by_ at_ => dismissalTx h db expected value by_ at_
  | .abandon expected value => abandonTx h db expected value
  | .abandonCapturing expected value => abandonCapturingTx h db expected value
  | .requeueReady expected value => requeueReadyTx h db expected value
  | .requeueCapturing expected value => requeueCapturingTx h db expected value
  | .requeue expected value => requeueTx h db expected value
  | .begin expected value => beginTx h db.toJournal expected value
  | .finishRetirement expected value => finishRetirementTx h db.toJournal expected value
  | .elsewhere _ _ => .ok []

def Db.step (h : Hasch U P) (db : Db U P) (step : Step U P) : Db U P :=
  match step with
  | .elsewhere schedules world => { db with schedules := schedules, world := world }
  | step =>
    match step.tx h db with
    | .ok writes => db.apply writes
    | .error _ => db

def Db.init (schedules : Schedules.Db U) (world : World U) : Db U P :=
  ⟨.init, schedules, world⟩

/-- The descriptor, the expected row, the plan and the root of a discovery. -/
def Step.discovers : Step U P → Option (Descriptor U × Option (Stream U) × Plan U P × U)
  | .discovery value expected plan root _ => some (value, expected, plan, root)
  | .pinDiscovery expectedIntent value expectedStream plan _ _ =>
    some (value, expectedStream, plan, expectedIntent.id)
  | _ => none

/-- The stream whose cursor the step moves, with the plan; a replay moves nothing. -/
def Step.moves (h : Hasch U P) (db : Db U P) (step : Step U P) : Option (U × Plan U P) :=
  match step.discovers, step.tx h db with
  | some (value, expected, plan, root), .ok _ =>
    if db.discoveries.get (discoveryId h value expected plan root) = none then
      some (value.id, plan)
    else none
  | _, _ => none

end Simmis.Knowledge
