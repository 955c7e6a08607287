import Simmis.Library.Runs
import Mathlib.Data.Int.Notation
import Mathlib.Data.Nat.Notation

/-!
# The model catalog

The catalog of the providers' models is cached with the endpoint configuration that it was fetched
for, a generation that every reset advances, and the ticket of the refresh under way. What a reader
fetched is installed only while its ticket still stands in the same generation.
-/

namespace Simmis.Models

inductive Reachability where
  | reachable | credentialRejected | temporarilyUnreachable
deriving DecidableEq, Repr

/-- The answer of `fetch-endpoint!` -/
inductive Fetched (M : Type) where
  | reachable (modelIds : List M)
  | credentialRejected
  | unreachable
deriving DecidableEq, Repr

/-- `model-record` -/
structure Record (E M : Type) where
  endpoint : E
  modelId : M
  reachable : Bool
deriving DecidableEq, Repr

structure EndpointState (E M : Type) where
  endpoint : E
  reachability : Reachability
  lastSuccessAt : Option ℤ
  models : List (Record E M)
deriving DecidableEq, Repr

/-- `refresh-endpoint`, after the fetch; a failure keeps the last known models. -/
def refreshEndpoint {E M : Type} (endpoint : E) (previous : Option (EndpointState E M))
    (fetched : Fetched M) (now : ℤ) : EndpointState E M :=
  match fetched with
  | .reachable modelIds =>
    ⟨endpoint, .reachable, some now, modelIds.map fun modelId ↦ ⟨endpoint, modelId, true⟩⟩
  | fetched =>
    { endpoint
      reachability := match fetched with
        | .credentialRejected => .credentialRejected
        | _ => .temporarilyUnreachable
      lastSuccessAt := previous.bind EndpointState.lastSuccessAt
      models := (previous.elim [] EndpointState.models).map fun r ↦ { r with reachable := false } }

/-- `catalog-ttl-ms` -/
def catalogTtlMs : ℤ := 10 * 60 * 1000

/-- The claim of a refresh; the token is the identity of its promise. -/
structure Ticket (κ : Type) where
  configuration : List κ
  generation : ℕ
  token : ℕ
deriving DecidableEq, Repr

/-- A value of `catalog-cache`; every replacement changes `version`. -/
structure Cache (E κ M : Type) where
  generation : ℕ
  at_ : ℤ
  configuration : List κ
  endpoints : List (κ × EndpointState E M)
  refresh : Option (Ticket κ)
  version : ℕ
deriving DecidableEq, Repr

/-- `catalog-records` -/
def Cache.records {E κ M : Type} (cache : Cache E κ M) : List (Record E M) :=
  cache.endpoints.flatMap fun state ↦ state.2.models

/-- What a refresh comes to: the records, or the exception. -/
abbrev Outcome (E M : Type) := Option (List (Record E M))

/-- Where a call of `catalog` stands. -/
inductive At (E κ M : Type) where
  | capture
  | configure (generation : ℕ)
  | loop (generation : ℕ) (endpoints : List E)
  | claim (generation : ℕ) (endpoints : List E) (cached : Cache E κ M)
  | fetch (ticket : Ticket κ) (endpoints : List E) (previous : List (κ × EndpointState E M))
  | publish (ticket : Ticket κ) (refreshed : Cache E κ M)
  | fail (ticket : Ticket κ)
  | deliver (ticket : Ticket κ) (outcome : Outcome E M)
  | wait (ticket : Ticket κ)
  | done (outcome : Outcome E M)
deriving DecidableEq

structure Reader (E κ M : Type) where
  force : Bool
  at_ : At E κ M
deriving DecidableEq

/-- The process: the atom, the endpoints, what was delivered, and every call of `catalog`. -/
structure World (E κ M : Type) where
  cache : Cache E κ M
  environment : List E
  deliveries : List (ℕ × Outcome E M)
  next : ℕ
  readers : List (Reader E κ M)

def World.initial (E κ M : Type) : World E κ M where
  cache := ⟨0, 0, [], [], none, 0⟩
  environment := []
  deliveries := []
  next := 0
  readers := []

section Steps

variable {E κ M : Type} [DecidableEq κ] (key : E → κ)

namespace World

variable (w : World E κ M)

/-- The cache is replaced by another map. -/
def replace (cache : Cache E κ M) : World E κ M :=
  { w with cache := { cache with version := w.cache.version + 1 } }

/-- The ticket stands in the cache, in its own generation. -/
def Holds (ticket : Ticket κ) : Prop :=
  w.cache.generation = ticket.generation ∧ w.cache.refresh.map Ticket.token = some ticket.token

instance (ticket : Ticket κ) : Decidable (w.Holds ticket) := inferInstanceAs (Decidable (_ ∧ _))

/-- The value of a promise is what was delivered to it first. -/
def promise (token : ℕ) : Option (Outcome E M) :=
  (w.deliveries.find? fun delivery ↦ delivery.1 = token).map Prod.snd

/-- `reset-catalog!` -/
def reset : World E κ M := w.replace ⟨w.cache.generation + 1, 0, [], [], none, 0⟩

/-- The choice of `catalog-at-generation` on the value of the atom that it read. -/
def choose (force : Bool) (generation : ℕ) (endpoints : List E) (now : ℤ) : At E κ M :=
  let cached := w.cache
  let configuration := endpoints.map key
  if generation ≠ cached.generation then .capture
  else if (configuration = cached.configuration ∧ now - cached.at_ < catalogTtlMs) ∧ force = false
  then .done (some cached.records)
  else
    match cached.refresh with
    | some ticket =>
      if configuration = ticket.configuration then .wait ticket
      else .claim generation endpoints cached
    | none => .claim generation endpoints cached

/-- The next step of a call; the fetch itself ends by an event of its own. -/
def stepAt (force : Bool) (now : ℤ) : At E κ M → World E κ M × At E κ M
  | .capture => (w, .configure w.cache.generation)
  | .configure generation => (w, .loop generation w.environment)
  | .loop generation endpoints => (w, w.choose key force generation endpoints now)
  | .claim generation endpoints cached =>
    if w.cache.version = cached.version then
      let ticket := ⟨endpoints.map key, generation, w.next⟩
      ({ w.replace { cached with refresh := some ticket } with next := w.next + 1 },
        .fetch ticket endpoints cached.endpoints)
    else (w, .loop generation endpoints)
  | .fetch ticket endpoints previous => (w, .fetch ticket endpoints previous)
  | .publish ticket refreshed =>
    (if w.Holds ticket then w.replace refreshed else w, .deliver ticket (some refreshed.records))
  | .fail ticket =>
    (if w.Holds ticket then w.replace { w.cache with refresh := none } else w, .deliver ticket none)
  | .deliver ticket outcome =>
    ({ w with deliveries := w.deliveries ++ [(ticket.token, outcome)] }, .done outcome)
  | .wait ticket =>
    match w.promise ticket.token with
    | some outcome => (w, .done outcome)
    | none => (w, .wait ticket)
  | .done outcome => (w, .done outcome)

/-- The end of a fetch: what every endpoint answered, and the map to install. -/
def refreshed (ticket : Ticket κ) (endpoints : List E) (previous : List (κ × EndpointState E M))
    (fetched : E → Fetched M × ℤ) (now : ℤ) : Cache E κ M where
  generation := ticket.generation
  at_ := now
  configuration := ticket.configuration
  endpoints := endpoints.map fun endpoint ↦ (key endpoint,
    refreshEndpoint endpoint (previous.lookup (key endpoint)) (fetched endpoint).1
      (fetched endpoint).2)
  refresh := none
  version := 0

end World

/-- The call moves on, a fetch ends, or something else happens. -/
inductive Event (E M : Type) where
  | read (force : Bool)
  | advance (i : ℕ) (now : ℤ)
  | fetched (i : ℕ) (answers : E → Fetched M × ℤ) (now : ℤ)
  | threw (i : ℕ)
  | configure (endpoints : List E)
  | reset

namespace World

variable (w : World E κ M)

/-- The reader at a position goes on elsewhere. -/
def move (i : ℕ) (force : Bool) (at_ : At E κ M) : World E κ M :=
  { w with readers := w.readers.set i ⟨force, at_⟩ }

def step : Event E M → World E κ M
  | .read force => { w with readers := w.readers ++ [⟨force, .capture⟩] }
  | .advance i now =>
    match w.readers[i]? with
    | some reader =>
      (w.stepAt key reader.force now reader.at_).1.move i reader.force
        (w.stepAt key reader.force now reader.at_).2
    | none => w
  | .fetched i answers now =>
    match w.readers[i]? with
    | some ⟨force, .fetch ticket endpoints previous⟩ =>
      w.move i force
        (.publish ticket (refreshed key ticket endpoints previous answers now))
    | _ => w
  | .threw i =>
    match w.readers[i]? with
    | some ⟨force, .fetch ticket _ _⟩ => w.move i force (.fail ticket)
    | _ => w
  | .configure endpoints => { w with environment := endpoints }
  | .reset => w.reset

end World

end Steps

end Simmis.Models
