import Simmis.Library.Runs
import Mathlib.Data.List.Basic

/-!
# Decisions on a proposal

A proposal carries forks, each a branch that is to be merged into the trunk of its scope. A decision
verb reads what is open, calls the backend for each fork, records the outcome in later transactions,
and closes the proposal when it finds no fork open. Verbs interleave between any two of these, and
each call may fail before or after it took effect.
-/

namespace Simmis.Proposals

/-- The row of a fork; scope and branch are unique in a proposal. -/
structure Fork (σ β : Type) where
  scope : σ
  branch : β
deriving DecidableEq, Repr

/-- A terminal status; its absence is the open state. -/
inductive Status where
  | accepted | dismissed
deriving DecidableEq, Repr

/-- How a call of the backend ends; an unknown scope is `:not-registered`. -/
inductive Answer where
  | returned | notRegistered | threwBefore | threwAfter
deriving DecidableEq, Repr

/-- How a transaction ends; a `lost` one is committed, and throws. -/
inductive Commit where
  | committed | refused | lost
deriving DecidableEq, Repr

/-- Where a decision verb stands. -/
inductive At (σ β : Type) where
  | land (fork : Fork σ β) (rest : List (Fork σ β))
  | drop (fork : Fork σ β) (rest : List (Fork σ β))
  | record (fork : Fork σ β) (rest : List (Fork σ β))
  | discard (todo forks : List (Fork σ β))
  | settle
  | close (status : Status)
  | done
deriving DecidableEq, Repr

/-- A running verb, on the whole proposal or on one fork. -/
structure Verb (σ β : Type) where
  whole : Bool
  at_ : At σ β
deriving DecidableEq, Repr

/-- The proposal's rows, the trunks, the branches that exist, and the verbs. -/
structure World (σ β : Type) where
  forks : List (Fork σ β)
  status : Fork σ β → Option Status
  proposal : Option Status
  trunks : σ → List (Fork σ β)
  branches : List (Fork σ β)
  verbs : List (Verb σ β)

/-- A proposal as it was filed. -/
def World.filed {σ β : Type} (forks : List (Fork σ β)) : World σ β where
  forks := forks
  status := fun _ ↦ none
  proposal := none
  trunks := fun _ ↦ []
  branches := forks
  verbs := []

/-- The accepting verbs come with what authorization finds for each fork, and the conflicts of the
backend. -/
inductive Event (σ β : Type) where
  | acceptProposal (force : Bool) (authorized : Fork σ β → Bool) (conflicts : Fork σ β → List Bool)
  | acceptFork (fork : Fork σ β) (force : Bool) (authorized : Fork σ β → Bool)
      (conflicts : Fork σ β → List Bool)
  | dismissProposal
  | dismissFork (fork : Fork σ β)
  | call (i : ℕ) (answer : Answer)
  | commit (i : ℕ) (ack : Commit)
  | read (i : ℕ)
  | die (i : ℕ)

namespace World

section Steps

variable {σ β : Type} [DecidableEq σ] [DecidableEq β] (w : World σ β)

/-- `open-forks` -/
def openForks : List (Fork σ β) := w.forks.filter fun fork ↦ w.status fork = none

variable (fork : Fork σ β)

/-- The contribution of the fork is in its trunk. -/
def Merged : Prop := fork ∈ w.trunks fork.scope

instance (fork : Fork σ β) : Decidable (w.Merged fork) :=
  inferInstanceAs (Decidable (fork ∈ w.trunks fork.scope))

/-- The effect of `land!` on a branch that exists. -/
def landed : World σ β :=
  { w with trunks := Function.update w.trunks fork.scope (fork :: w.trunks fork.scope) }

/-- The effect of `drop-branch!`. -/
def dropped : World σ β :=
  { w with branches := w.branches.filter fun other ↦ other ≠ fork }

/-- `fork-resolution-tx` of several forks -/
def resolved (forks : List (Fork σ β)) (status : Status) : World σ β :=
  { w with status := fun fork ↦ if fork ∈ forks then some status else w.status fork }

def begin (verb : Verb σ β) : World σ β := { w with verbs := w.verbs ++ [verb] }

def move (i : ℕ) (verb : Verb σ β) : World σ β := { w with verbs := w.verbs.set i verb }

/-- The next fork of an accepting verb, or `settle-proposal!`. -/
def forward : List (Fork σ β) → At σ β
  | [] => .settle
  | fork :: rest => .land fork rest

/-- A fork that did not land: `accept-proposal!` goes on, `accept-fork!` throws. -/
def failed (whole : Bool) (rest : List (Fork σ β)) : At σ β :=
  if whole then forward rest else .done

/-- The gates of the accepting verbs before their first call. -/
def admits (forks : List (Fork σ β)) (force : Bool) (authorized : Fork σ β → Bool)
    (conflicts : Fork σ β → List Bool) : Bool :=
  forks.all authorized &&
    !((forks.flatMap conflicts).any id || (!(forks.flatMap conflicts).isEmpty && !force))

def acceptProposal (force : Bool) (authorized : Fork σ β → Bool)
    (conflicts : Fork σ β → List Bool) : World σ β :=
  if w.proposal = none ∧ admits w.openForks force authorized conflicts = true then
    w.begin ⟨true, forward w.openForks⟩
  else w

def acceptFork (force : Bool) (authorized : Fork σ β → Bool) (conflicts : Fork σ β → List Bool) :
    World σ β :=
  if (w.proposal = none ∧ fork ∈ w.forks ∧ w.status fork = none) ∧
      admits [fork] force authorized conflicts = true then
    w.begin ⟨false, .land fork []⟩
  else w

def dismissProposal : World σ β :=
  if w.proposal = none then w.begin ⟨true, .discard w.openForks w.openForks⟩ else w

def dismissFork : World σ β :=
  if w.proposal = none ∧ fork ∈ w.forks ∧ w.status fork = none then
    w.begin ⟨false, .discard [fork] [fork]⟩
  else w

/-- A call of the backend: a missing branch does not merge, and what a discarded branch throws is
swallowed. -/
def call (whole : Bool) (answer : Answer) : At σ β → World σ β × At σ β
  | .land fork rest =>
    match answer with
    | .returned =>
      if fork ∈ w.branches then (w.landed fork, .drop fork rest) else (w, failed whole rest)
    | .notRegistered => (w, .drop fork rest)
    | .threwBefore => (w, failed whole rest)
    | .threwAfter => (if fork ∈ w.branches then w.landed fork else w, failed whole rest)
  | .drop fork rest =>
    match answer with
    | .returned => (w.dropped fork, .record fork rest)
    | .notRegistered => (w, .record fork rest)
    | .threwBefore => (w, failed whole rest)
    | .threwAfter => (w.dropped fork, failed whole rest)
  | .discard (fork :: todo) forks =>
    match answer with
    | .returned | .threwAfter => (w.dropped fork, .discard todo forks)
    | .notRegistered | .threwBefore => (w, .discard todo forks)
  | at_ => (w, at_)

/-- A transaction of a verb, and where the verb goes on. -/
def commit (whole : Bool) (ack : Commit) : At σ β → World σ β × At σ β
  | .record fork rest =>
    match ack with
    | .committed => (w.resolved [fork] .accepted, forward rest)
    | .refused => (w, failed whole rest)
    | .lost => (w.resolved [fork] .accepted, failed whole rest)
  | .discard [] forks =>
    let after := if whole then { w.resolved forks .dismissed with proposal := some .dismissed }
      else w.resolved forks .dismissed
    match ack with
    | .committed => (after, if whole then .done else .settle)
    | .refused => (w, .done)
    | .lost => (after, .done)
  | .close status =>
    match ack with
    | .committed | .lost => ({ w with proposal := some status }, .done)
    | .refused => (w, .done)
  | at_ => (w, at_)

/-- The read of `settle-proposal!` -/
def read : At σ β → At σ β
  | .settle =>
    if w.forks.any fun fork ↦ w.status fork = none then .done
    else if w.forks.any fun fork ↦ w.status fork = some .accepted then .close .accepted
    else .close .dismissed
  | at_ => at_

def step : Event σ β → World σ β
  | .acceptProposal force authorized conflicts => w.acceptProposal force authorized conflicts
  | .acceptFork fork force authorized conflicts => w.acceptFork fork force authorized conflicts
  | .dismissProposal => w.dismissProposal
  | .dismissFork fork => w.dismissFork fork
  | .call i answer =>
    match w.verbs[i]? with
    | some verb =>
      (w.call verb.whole answer verb.at_).1.move i
        ⟨verb.whole, (w.call verb.whole answer verb.at_).2⟩
    | none => w
  | .commit i ack =>
    match w.verbs[i]? with
    | some verb =>
      (w.commit verb.whole ack verb.at_).1.move i
        ⟨verb.whole, (w.commit verb.whole ack verb.at_).2⟩
    | none => w
  | .read i =>
    match w.verbs[i]? with
    | some verb => w.move i ⟨verb.whole, w.read verb.at_⟩
    | none => w
  | .die i =>
    match w.verbs[i]? with
    | some verb => w.move i ⟨verb.whole, .done⟩
    | none => w

end Steps

end World

end Simmis.Proposals
