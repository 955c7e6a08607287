import Simmis.Library.Runs
import Mathlib.Data.Nat.Notation
import Mathlib.Logic.Function.Basic

/-!
# Operation lifetimes

An owner admits synchronous operations on its threads. Each admitted body holds a ticket until it
has exited; a worker may transfer it to a cleanup that is retained after the body. Once the owner is
fenced, joining waits for every ticket and runs every retained cleanup. Every locked section is one
step.
-/

namespace Simmis.Lifetimes

inductive Phase where
  | installing | ready | stopping
deriving DecidableEq, Repr

def Phase.rank : Phase → ℕ
  | .installing => 0
  | .ready => 1
  | .stopping => 2

/-- `capacity` -/
def capacity : ℕ := 64

/-- A ticket; a transferred one has its cleanup's completion, too. -/
structure Ticket (τ : Type) where
  id : ℕ
  thread : τ
  recovery : Bool
deriving DecidableEq, Repr

/-- The ticket that takes the slot of the original. -/
def Ticket.transferred {τ : Type} (t : Ticket τ) : Ticket τ := { t with recovery := true }

/-- Where a `join!` stands: at its snapshot's tickets, or in `join-ticket!`. -/
inductive Join (τ : Type) where
  | each (rest : List (Ticket τ))
  | origin (ticket : Ticket τ) (rest : List (Ticket τ))
  | monitor (ticket : Ticket τ) (rest : List (Ticket τ))
  | cleanup (ticket : Ticket τ) (rest : List (Ticket τ))
  | completion (ticket : Ticket τ) (rest : List (Ticket τ))
deriving DecidableEq

/-- A call that a thread is in. -/
inductive Frame (τ : Type) where
  | body (ticket : Ticket τ) (nested : Bool)
  | join (at_ : Join τ)
deriving DecidableEq

/-- An owner and its threads, each with its calls, innermost first. A thread that runs a cleanup
holds its monitor. The last three fields record what happened. -/
structure Owner (τ : Type) where
  phase : Phase
  tickets : List (Ticket τ)
  next : ℕ
  exited : List ℕ
  released : List ℕ
  cleanupThread : ℕ → Option τ
  frames : τ → List (Frame τ)
  retained : List ℕ
  runs : List (ℕ × Bool)
  joined : List τ

/-- `create` -/
def Owner.create (τ : Type) : Owner τ where
  phase := .installing
  tickets := []
  next := 0
  exited := []
  released := []
  cleanupThread := fun _ ↦ none
  frames := fun _ ↦ []
  retained := []
  runs := []
  joined := []

/-- How a body ends; every way runs the same `finally`. -/
inductive Exit where
  | returned | threw | interrupted
deriving DecidableEq, Repr

inductive Event (τ : Type) where
  | open_
  | enter (thread : τ)
  | leave (thread : τ) (exit : Exit)
  | retain (thread : τ)
  | fence (thread : τ)
  | join (thread : τ)
  /-- `join!` goes to a ticket of its snapshot; the registry has no order. -/
  | pick (thread : τ) (k : ℕ)
  /-- `join!` passes a wait, or reads the registry again. -/
  | advance (thread : τ)
  /-- A wait of `join-ticket!` times out or is interrupted. -/
  | giveUp (thread : τ)
  /-- The cleanup that a join runs returns or throws. -/
  | cleaned (thread : τ) (ok : Bool)
deriving DecidableEq

namespace Owner

section Steps

variable {τ : Type} [DecidableEq τ] (w : Owner τ) (T : τ)

def put (stack : List (Frame τ)) : Owner τ :=
  { w with frames := Function.update w.frames T stack }

/-- `*tickets*` of a thread, the innermost first; this one is its `*ticket*`. -/
def bound : List (Ticket τ) :=
  (w.frames T).filterMap fun frame ↦ match frame with
    | .body ticket _ => some ticket
    | .join _ => none

/-- The thread is in the code of a caller, a body or a cleanup. -/
def free : Bool :=
  match w.frames T with
  | [] | .body .. :: _ | .join (.cleanup ..) :: _ => true
  | .join _ :: _ => false

/-- `assert-not-owner-in!` refuses. -/
def selfDrain : Bool :=
  w.tickets.any fun t ↦
    (t.thread = T ∧ (t.recovery = false ∨ t.id ∉ w.exited)) ∨
      (t.recovery = true ∧ w.cleanupThread t.id = some T)

/-- `dissoc` of a ticket, when it is the one in the registry -/
def drop (ticket : Ticket τ) : List (Ticket τ) :=
  if ticket ∈ w.tickets then w.tickets.filter fun t ↦ t.id ≠ ticket.id else w.tickets

/-- `assoc-in` of the ticket that takes the slot of this one -/
def transfer (ticket : Ticket τ) : List (Ticket τ) :=
  w.tickets.map fun t ↦ if t.id = ticket.id then ticket.transferred else t

/-- The acquisition of `with-operation!`, and the entry of its body. -/
def enter : Owner τ :=
  match (w.bound T).find? fun ticket ↦ ticket.thread = T ∧ ticket ∈ w.tickets with
  | some ticket => w.put T (.body ticket true :: w.frames T)
  | none =>
    if w.phase ≠ .ready then w
    else if capacity ≤ w.tickets.length then w
    else
      let ticket : Ticket τ := ⟨w.next, T, false⟩
      { w with
        tickets := w.tickets ++ [ticket]
        next := w.next + 1 }.put T (.body ticket false :: w.frames T)

/-- The end of a body, the `finally` of `with-operation!` included. -/
def leave : Owner τ :=
  match w.frames T with
  | .body _ true :: below => w.put T below
  | .body ticket false :: below =>
    { w with
      tickets := w.drop ticket
      exited := w.exited ++ [ticket.id] }.put T below
  | _ => w

/-- `retain-operation-cleanup!` -/
def retain : Owner τ :=
  match w.bound T with
  | [] => w
  | ticket :: _ =>
    if (ticket.thread = T ∧ ticket ∈ w.tickets) ∧ ticket.recovery = false then
      { w with
        phase := .stopping
        tickets := w.transfer ticket
        retained := w.retained ++ [ticket.id] }
    else w

/-- `fence!` -/
def fence : Owner τ := if w.selfDrain T then w else { w with phase := .stopping }

/-- The locked section of `join!`: it refuses, returns, or goes on. -/
def snapshot (below : List (Frame τ)) : Owner τ :=
  if w.selfDrain T ∨ w.phase ≠ .stopping then w.put T below
  else if w.tickets = [] then { w with joined := w.joined ++ [T] }.put T below
  else w.put T (.join (.each w.tickets) :: below)

/-- The completion of a ticket is delivered. -/
def Realized (ticket : Ticket τ) : Prop :=
  if ticket.recovery then ticket.id ∈ w.released else ticket.id ∈ w.exited

instance (ticket : Ticket τ) : Decidable (w.Realized ticket) :=
  inferInstanceAs (Decidable (if ticket.recovery then ticket.id ∈ w.released
    else ticket.id ∈ w.exited))

/-- The entry of `join-ticket!` -/
def pick (k : ℕ) : Owner τ :=
  match w.frames T with
  | .join (.each rest) :: below =>
    match rest[k]? with
    | some ticket =>
      if ticket.recovery then w.put T (.join (.origin ticket (rest.eraseIdx k)) :: below)
      else w.put T (.join (.completion ticket (rest.eraseIdx k)) :: below)
    | none => w
  | _ => w

/-- The waits of `join-ticket!`, and the turn of the loop of `join!`. -/
def advance : Owner τ :=
  match w.frames T with
  | .join (.each []) :: below => w.snapshot T below
  | .join (.origin ticket rest) :: below =>
    if ticket.id ∈ w.exited then w.put T (.join (.monitor ticket rest) :: below) else w
  | .join (.monitor ticket rest) :: below =>
    if w.cleanupThread ticket.id = none ∨ w.cleanupThread ticket.id = some T then
      if w.Realized ticket then w.put T (.join (.completion ticket rest) :: below)
      else
        { w with cleanupThread := Function.update w.cleanupThread ticket.id (some T) }.put T
          (.join (.cleanup ticket rest) :: below)
    else w
  | .join (.completion ticket rest) :: below =>
    if w.Realized ticket then w.put T (.join (.each rest) :: below) else w
  | _ => w

/-- `:physical-exit-unconfirmed`, or the interruption of the waiting thread -/
def giveUp : Owner τ :=
  match w.frames T with
  | .join (.origin _ _) :: below | .join (.completion _ _) :: below => w.put T below
  | _ => w

/-- The end of a cleanup, in its monitor. -/
def cleaned (ok : Bool) : Owner τ :=
  match w.frames T with
  | .join (.cleanup ticket rest) :: below =>
    if ok then
      { w with
        tickets := w.drop ticket
        released := w.released ++ [ticket.id]
        cleanupThread := Function.update w.cleanupThread ticket.id none
        runs := w.runs ++ [(ticket.id, true)] }.put T (.join (.completion ticket rest) :: below)
    else
      { w with
        cleanupThread := Function.update w.cleanupThread ticket.id none
        runs := w.runs ++ [(ticket.id, false)] }.put T below
  | _ => w

def step : Event τ → Owner τ
  | .open_ => if w.phase = .installing then { w with phase := .ready } else w
  | .enter T => if w.free T then w.enter T else w
  | .leave T _ => w.leave T
  | .retain T => if w.free T then w.retain T else w
  | .fence T => if w.free T then w.fence T else w
  | .join T => if w.free T then w.snapshot T (w.frames T) else w
  | .pick T k => w.pick T k
  | .advance T => w.advance T
  | .giveUp T => w.giveUp T
  | .cleaned T ok => w.cleaned T ok

/-- The owner after a run of its threads. -/
def after (events : List (Event τ)) : Owner τ := Runs.run step (create τ) events

end Steps

end Owner

end Simmis.Lifetimes
