import Simmis.Library.Text

/-!
# Escalated reviews

A Review that is escalated is filed as a proposal, once, and a person decides it. The operation on
the world, the record of the decision and the labels are three steps of a call, among those of all
other calls; a call can end before each of them.
-/

namespace Simmis.Reviews

/-- A reviewed world, with the token of its state. -/
inductive World (T : Type)
  | live (token : T)
  | merged (token : T)
  | discarded
deriving DecidableEq

inductive ReviewDecision
  | escalated
  | other (name : String)
deriving DecidableEq

/-- An immutable Review of a world. -/
structure Review (R W T K : Type) where
  id : R
  world : W
  stateToken : T
  decision : ReviewDecision
  isSpotCheck : Bool
  policy : K
  verdict : Option String
deriving DecidableEq

/-- Who reviewed, and which workflow with its version. -/
structure Context (P : Type) where
  reviewer : Option P
  workflow : Option (String × Option String)
deriving DecidableEq

/-- What is filed of a Review, and never changes. -/
structure Filing (R U W P T K : Type) where
  id : U
  review : R
  world : W
  reviewState : T
  reviewPolicy : K
  isSpotCheck : Bool
  reviewerVerdict : Option String
  author : Option P
  workflow : Option (String × Option String)
deriving DecidableEq

inductive Verdict
  | accept
  | reject
deriving DecidableEq

inductive Status
  | open
  | accepted
  | dismissed
deriving DecidableEq

def Verdict.status : Verdict → Status
  | .accept => .accepted
  | .reject => .dismissed

structure Resolution (P : Type) where
  verdict : Verdict
  by_ : P
  note : Option String
deriving DecidableEq

/-- A proposal is open as long as it has no resolution. -/
structure Proposal (R U W P T K : Type) where
  filing : Filing R U W P T K
  resolution : Option (Resolution P)
deriving DecidableEq

inductive About
  | workflow
  | reviewer
deriving DecidableEq

structure Label (R U P K : Type) where
  subject : U
  about : About
  review : R
  policy : K
  reviewerVerdict : Option String
  workflow : Option (String × Option String)
  verdict : Verdict
  by_ : P
  reasons : Option String
deriving DecidableEq

/-- The system database, the labels in the store of the room, and the worlds. -/
structure Store (R U W P T K : Type) where
  worlds : W → World T
  reviews : List (Review R W T K)
  proposals : List (Proposal R U W P T K)
  labels : List (Label R U P K)

variable {R U W P T K : Type}

def Proposal.status (proposal : Proposal R U W P T K) : Status :=
  (proposal.resolution.map fun resolution ↦ resolution.verdict.status).getD .open

def World.isLive : World T → Bool
  | .live _ => true
  | _ => false

/-- A note that is not blank, without the blanks around it. -/
def cleaned (note : Option String) : Option String :=
  (note.filter fun text ↦ ¬ Text.isBlank text).map fun text ↦ String.ofList
    (((text.toList.dropWhile Text.isWhitespace).reverse.dropWhile Text.isWhitespace).reverse)

inductive FilerStage
  | queued
  | missing
  | located
deriving DecidableEq

/-- A sighting of a Review on its way to a proposal. -/
structure Filer (R W P T K : Type) where
  review : Review R W T K
  context : Context P
  stage : FilerStage
  ended : Bool

variable (proposalId : R → U)

def filingOf (review : Review R W T K) (context : Context P) : Filing R U W P T K where
  id := proposalId review.id
  review := review.id
  world := review.world
  reviewState := review.stateToken
  reviewPolicy := review.policy
  isSpotCheck := review.isSpotCheck
  reviewerVerdict := review.verdict
  author := context.reviewer
  workflow := context.workflow

section

variable [DecidableEq R] [DecidableEq U] (store : Store R U W P T K)

/-- `proposal-for-review` -/
def Store.forReview (id : R) : Option (Proposal R U W P T K) :=
  store.proposals.find? fun proposal ↦ proposal.filing.review = id

/-- `get-proposal` -/
def Store.get (id : U) : Option (Proposal R U W P T K) :=
  store.proposals.find? fun proposal ↦ proposal.filing.id = id

/-- `file-proposal-if-absent`: a taken id has the same content, or refuses. -/
def Store.file (filing : Filing R U W P T K) : Store R U W P T K :=
  match store.get filing.id with
  | some _ => store
  | none => { store with proposals := store.proposals ++ [⟨filing, none⟩] }

/-- One step of `file-escalation!`. -/
def Filer.proceed (filer : Filer R W P T K) : Store R U W P T K × Filer R W P T K :=
  match filer.stage with
  | .queued =>
    if filer.review.decision = .escalated ∧ (store.forReview filer.review.id).isNone then
      (store, { filer with stage := .missing })
    else (store, { filer with ended := true })
  | .missing =>
    if (store.worlds filer.review.world).isLive then (store, { filer with stage := .located })
    else (store, { filer with ended := true })
  | .located => (store.file (filingOf proposalId filer.review filer.context),
      { filer with ended := true })

/-- The Reviews that `sweep!` queues. -/
def Store.swept : List (Review R W T K) :=
  store.reviews.filter fun review ↦ review.decision = .escalated ∧
    (store.forReview review.id).isNone ∧ (store.worlds review.world).isLive

end

inductive Refusal
  | unknownProposal
  | notOpen (status : Status)
  | noParty
  | notAuthorized
  | roomNotLive
  | worldUnavailable
  | worldChanged
  | mergeFailed
  | refused
  | storeFailed
  | labelNotRecorded
deriving DecidableEq

/-- The open proposal that a call has read, and who decides it. -/
structure Claim (R U W P T K : Type) where
  filing : Filing R U W P T K
  by_ : P

/-- How far a call of `decide!` has come. -/
inductive Stage (R U W P T K : Type)
  | called
  | checked (claim : Claim R U W P T K)
  | found (claim : Claim R U W P T K)
  | settled (claim : Claim R U W P T K)
  | recorded (claim : Claim R U W P T K)
  | labelled (claim : Claim R U W P T K)

inductive Ending
  | returned
  | raised (refusal : Refusal)
  | crashed
deriving DecidableEq

/-- A call of `decide!`. -/
structure Decider (R U W P T K : Type) where
  proposal : U
  verdict : Verdict
  party : Option P
  note : Option String
  stage : Stage R U W P T K
  ended : Option Ending

/-- The next step of a call, with what it meets; after one that takes effect but reports a failure
the call ends. -/
inductive Action
  | check (mayMerge : Bool)
  | look (roomLive : Bool)
  | settle (failure : Option Refusal)
  | record (fails : Bool)
  | label (fails : Bool)
  | crash

def Verdict.outcome (token : T) : Verdict → World T
  | .accept => .merged token
  | .reject => .discarded

/-- `room_merge` in the expected state, and `room_discard`. -/
def settle [DecidableEq T] (verdict : Verdict) (expected : T) (world : World T) :
    Except Refusal (World T) :=
  match verdict, world with
  | .accept, .live token => if token = expected then .ok (.merged token) else .error .worldChanged
  | .reject, .live _ => .ok .discarded
  | _, _ => .error .refused

variable (decider : Decider R U W P T K)

def labelOf (claim : Claim R U W P T K) (about : About) : Label R U P K where
  subject := claim.filing.id
  about
  review := claim.filing.review
  policy := claim.filing.reviewPolicy
  reviewerVerdict := claim.filing.reviewerVerdict
  workflow := claim.filing.workflow
  verdict := decider.verdict
  by_ := claim.by_
  reasons := cleaned decider.note

/-- The labels of a decision, also on the reviewer after a spot check. -/
def labelsOf (claim : Claim R U W P T K) : List (Label R U P K) :=
  labelOf decider claim .workflow ::
    if claim.filing.isSpotCheck then [labelOf decider claim .reviewer] else []

def Decider.raise (refusal : Refusal) : Decider R U W P T K :=
  { decider with ended := some (.raised refusal) }

def Decider.at (stage : Stage R U W P T K) : Decider R U W P T K :=
  { decider with stage }

section

variable [DecidableEq U] [DecidableEq W] [DecidableEq T] (store : Store R U W P T K)

/-- The checks at the start, on one read of the proposal. -/
def Decider.check (decider : Decider R U W P T K) (mayMerge : Bool) : Decider R U W P T K :=
  match store.get decider.proposal with
  | none => decider.raise .unknownProposal
  | some proposal =>
    if proposal.status ≠ .open then decider.raise (.notOpen proposal.status)
    else match decider.party with
      | none => decider.raise .noParty
      | some party =>
        if mayMerge then decider.at (.checked ⟨proposal.filing, party⟩)
        else decider.raise .notAuthorized

/-- The outcome of an operation on a world. -/
def Store.settled (world : W) (outcome : World T) : Store R U W P T K :=
  { store with worlds := Function.update store.worlds world outcome }

def Store.labelled (labels : List (Label R U P K)) : Store R U W P T K :=
  { store with labels := store.labels ++ labels }

/-- `record-decision!` -/
def Store.record (id : U) (resolution : Resolution P) : Store R U W P T K :=
  { store with
    proposals := store.proposals.map fun proposal ↦
      if proposal.filing.id = id then { proposal with resolution := some resolution }
      else proposal }

/-- One step of `decide!`. -/
def Decider.proceed (decider : Decider R U W P T K) (action : Action) :
    Store R U W P T K × Decider R U W P T K :=
  match action, decider.stage with
  | .crash, _ => (store, { decider with ended := some .crashed })
  | .check mayMerge, .called => (store, decider.check store mayMerge)
  | .look roomLive, .checked claim =>
    if ¬ roomLive then (store, decider.raise .roomNotLive)
    else if (store.worlds claim.filing.world).isLive then (store, decider.at (.found claim))
    else (store, decider.raise .worldUnavailable)
  | .settle (some refusal), .found _ => (store, decider.raise refusal)
  | .settle none, .found claim =>
    match settle decider.verdict claim.filing.reviewState (store.worlds claim.filing.world) with
    | .error refusal => (store, decider.raise refusal)
    | .ok world => (store.settled claim.filing.world world, decider.at (.settled claim))
  | .record true, .settled _ => (store, decider.raise .storeFailed)
  | .record false, .settled claim =>
    (store.record claim.filing.id ⟨decider.verdict, claim.by_, cleaned decider.note⟩,
      decider.at (.recorded claim))
  | .label true, .recorded _ => (store, decider.raise .labelNotRecorded)
  | .label false, .recorded claim =>
    (store.labelled (labelsOf decider claim),
      { decider.at (.labelled claim) with ended := some .returned })
  | _, _ => (store, decider)

end

structure State (R U W P T K : Type) where
  store : Store R U W P T K
  filers : List (Filer R W P T K)
  deciders : List (Decider R U W P T K)

/-- Nothing is reviewed, and every world is live. -/
def State.init (tokens : W → T) : State R U W P T K :=
  ⟨⟨fun world ↦ .live (tokens world), [], [], []⟩, [], []⟩

inductive Event (R U W P T K : Type)
  | review (review : Review R W T K)
  | change (world : W) (token : T)
  | sight (review : Review R W T K) (context : Context P)
  | sweep (context : W → Context P)
  | file (filer : ℕ)
  | stop (filer : ℕ)
  | decide (proposal : U) (verdict : Verdict) (party : Option P) (note : Option String)
  | act (decider : ℕ) (action : Action)

variable [DecidableEq R] [DecidableEq U] [DecidableEq W] [DecidableEq T] [DecidableEq K]

/-- Reviews are recorded once and seen any number of times; a world changes while it is live. -/
def step (s : State R U W P T K) : Event R U W P T K → State R U W P T K
  | .review review =>
    if review.id ∈ s.store.reviews.map Review.id then s
    else { s with store := { s.store with reviews := s.store.reviews ++ [review] } }
  | .change world token =>
    if (s.store.worlds world).isLive then
      { s with store := { s.store with
          worlds := Function.update s.store.worlds world (.live token) } }
    else s
  | .sight review context =>
    if review ∈ s.store.reviews then
      { s with filers := s.filers ++ [⟨review, context, .queued, false⟩] }
    else s
  | .sweep context =>
    { s with filers := s.filers ++ s.store.swept.map fun review ↦
        ⟨review, context review.world, .queued, false⟩ }
  | .file j =>
    match s.filers[j]? with
    | some filer =>
      if filer.ended then s
      else
        let next := filer.proceed proposalId s.store
        { s with store := next.1, filers := s.filers.set j next.2 }
    | none => s
  | .stop j =>
    match s.filers[j]? with
    | some filer => { s with filers := s.filers.set j { filer with ended := true } }
    | none => s
  | .decide proposal verdict party note =>
    { s with deciders := s.deciders ++ [⟨proposal, verdict, party, note, .called, none⟩] }
  | .act i action =>
    match s.deciders[i]? with
    | some decider =>
      if decider.ended.isSome then s
      else
        let next := decider.proceed s.store action
        { s with store := next.1, deciders := s.deciders.set i next.2 }
    | none => s

end Simmis.Reviews
