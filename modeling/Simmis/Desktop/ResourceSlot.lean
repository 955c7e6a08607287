import Simmis.Library.Runs
import Mathlib.Data.List.Basic

/-!
# The native resource slot

One slot serializes construction, publication and disposal of the native resource of one store. Its
worker plans from the slot's atom alone, and parks in the host's callbacks. Every callback is a call
and a later return here, so that anything may happen in between.
-/

namespace Simmis.Desktop.ResourceSlot

inductive Phase
  | idle
  | opening
  | ready
  | retiring
  | recovering
  | held
deriving DecidableEq, Repr

/-- An error of the host, or one that the slot makes. -/
inductive Failure (E : Type)
  | host (error : E)
  | superseded
  | malformed
  | cleanup
  | constructorCleanup
  | constructorClosed
  | notHeld
  | reloadRequired
  | uncallable
deriving DecidableEq, Repr

/-- What a result channel gets. -/
inductive Result (G V E : Type)
  | ready (value : V) (generation : G)
  | done
  | failed (error : Option (Failure E))
deriving DecidableEq, Repr

/-- The callbacks of a request belong to the host; only whether they are there matters. -/
structure Request (G : Type) where
  generation : Option G
  callable : Bool
  recovers : Bool
  cleans : Bool

structure Op (G : Type) where
  id : ℕ
  generation : G
  recovers : Bool
  cleans : Bool
deriving DecidableEq, Repr

structure Resource (G V : Type) where
  value : V
  owner : Op G
  published : Bool
deriving DecidableEq, Repr

/-- `recover` is the request whose `recover-open!` would be called with the error. -/
structure FailedOpen (E : Type) where
  error : Failure E
  recover : Option ℕ
deriving DecidableEq, Repr

structure Slot (G V E : Type) where
  phase : Phase := .idle
  running : Bool := false
  drains : List ℕ := []
  desired : Option (Op G) := none
  last : Option (Op G) := none
  resource : Option (Resource G V) := none
  failedOpen : Option (FailedOpen E) := none
  error : Option (Failure E) := none

/-- Where a worker is: about to plan, or in a callback of the host. -/
inductive Worker (G V E : Type)
  | planning
  | publishing (op : Op G) (value : V)
  | unpublishing (resource : Resource G V)
  | disposing (resource : Resource G V)
  | recovering (failedOpen : Option (FailedOpen E))
  | opening (op : Op G)
deriving DecidableEq, Repr

/-- What a channel was made for; `answered` if its request is refused at once. -/
inductive Purpose
  | op
  | answered
  | retire
  | retry
deriving DecidableEq, Repr

/-- A call of the host, with the request whose callback it is. -/
inductive Call (V : Type)
  | open (op : ℕ)
  | publish (op : ℕ) (value : V)
  | unpublish (op : ℕ) (value : V)
  | dispose (op : ℕ) (value : V)
  | recover (op : ℕ)
deriving DecidableEq, Repr

/-- The answer of a predicate of the host. -/
inductive Check (E : Type)
  | yes
  | no
  | thrown (error : E)

/-- What `dispose!` or `recover!` comes to. -/
inductive Cleanup (E : Type)
  | confirmed
  | unconfirmed
  | error (error : E)
  | thrown (error : E)

/-- What `open!` comes to; an error goes with what `clean-error?` says of it. -/
inductive Opening (V E : Type)
  | value (value : V)
  | nothing
  | error (error : E) (clean : Check E)
  | thrown (error : E)

/-- The slot with its workers and channels, the calls of the host, newest first, and the resources
that are open or published. -/
structure World (G V E : Type) where
  slot : Slot G V E := {}
  workers : List (Worker G V E) := []
  chans : List Purpose := []
  settled : List ℕ := []
  puts : List (ℕ × Result G V E) := []
  calls : List (Call V) := []
  live : List (ℕ × V) := []
  shown : List (ℕ × V) := []
  stale : List ℕ := []

inductive Event (G V E : Type)
  | request (request : Request G)
  | retire
  | retryCleanup
  | plan (worker : ℕ) (valid : Check E)
  | published (worker : ℕ) (thrown : Option E)
  | unpublished (worker : ℕ) (thrown : Option E)
  | disposed (worker : ℕ) (cleanup : Cleanup E)
  | recovered (worker : ℕ) (cleanup : Cleanup E)
  | opened (worker : ℕ) (opening : Opening V E)

section

variable {G V E : Type} (w : World G V E)

@[simps]
def World.swap (f : Slot G V E → Slot G V E) : World G V E := { w with slot := f w.slot }

@[simps]
def World.call (call : Call V) : World G V E := { w with calls := call :: w.calls }

@[simps]
def World.put (ch : ℕ) (value : Result G V E) : World G V E :=
  { w with puts := (ch, value) :: w.puts }

def World.putAll (chs : List ℕ) (value : Result G V E) : World G V E :=
  chs.foldl (fun w ch ↦ w.put ch value) w

/-- A new channel. -/
@[simps]
def World.chan (purpose : Purpose) : World G V E := { w with chans := w.chans ++ [purpose] }

/-- A new channel with its value. -/
def World.answer (purpose : Purpose) (value : Result G V E) : World G V E :=
  (w.chan purpose).put w.chans.length value

def World.complete (op : Option (Op G)) (value : Result G V E) : World G V E :=
  match op with
  | some op =>
    if op.id ∈ w.settled then w else { w with settled := op.id :: w.settled }.put op.id value
  | none => w

@[simps]
def World.resume (k : ℕ) (worker : Worker G V E) : World G V E :=
  { w with workers := w.workers.set k worker }

@[simps]
def World.exit (k : ℕ) : World G V E := { w with workers := w.workers.eraseIdx k }

def World.hold (error : Failure E) (failedOpen : Option (FailedOpen E)) : World G V E :=
  ((w.swap fun s ↦
    { s with
      phase := .held, running := false, error := some error, failedOpen, desired := none
      drains := [], last := none }).complete w.slot.desired (.failed (some error))).putAll
    w.slot.drains (.failed (some error))

/-- The worker starts `dispose!`. -/
def World.dispose (k : ℕ) (r : Resource G V) : World G V E :=
  ((w.swap fun s ↦ { s with phase := .retiring }).call (.dispose r.owner.id r.value)).resume k
    (.disposing r)

/-- The worker withdraws a resource: `unpublish!` comes before `dispose!`. -/
def World.withdraw (k : ℕ) (r : Resource G V) : World G V E :=
  if r.published then (w.call (.unpublish r.owner.id r.value)).resume k (.unpublishing r)
  else w.dispose k r

/-- The worker starts `recover!`, if the request had a `recover-open!`. -/
def World.recover (k : ℕ) : World G V E :=
  match w.slot.failedOpen.bind FailedOpen.recover with
  | some op => (w.call (.recover op)).resume k (.recovering w.slot.failedOpen)
  | none => (w.hold .uncallable w.slot.failedOpen).exit k

/-- `plan!`, and the step that it names up to its first callback. -/
def World.plan [DecidableEq G] (k : ℕ) (valid : Check E) : World G V E :=
  if w.slot.phase = .held then (w.swap fun s ↦ { s with running := false }).exit k
  else if w.slot.phase = .recovering then w.recover k
  else match w.slot.resource, w.slot.desired with
  | some r, some op =>
    if op.id = r.owner.id then
      match valid with
      | .thrown e => (w.hold (.host e) none).exit k
      | .no => { w with stale := op.id :: w.stale }.withdraw k r
      | .yes =>
        if r.published then
          ((w.swap fun s ↦ { s with phase := .ready, running := false }).complete (some op)
            (.ready r.value op.generation)).exit k
        else
          (({ w with shown := (op.id, r.value) :: w.shown }.swap fun s ↦
            { s with resource := some { r with published := true } }).call
              (.publish op.id r.value)).resume k (.publishing op r.value)
    else w.withdraw k r
  | some r, none => w.withdraw k r
  | none, desired =>
    if w.slot.drains ≠ [] then
      (w.swap fun s ↦ { s with drains := [] }).putAll w.slot.drains .done
    else match desired with
    | some op =>
      match valid with
      | .thrown e => (w.hold (.host e) none).exit k
      | .yes =>
        ((w.swap fun s ↦ { s with phase := .opening }).call (.open op.id)).resume k (.opening op)
      | .no =>
        ({ w with stale := op.id :: w.stale }.swap fun s ↦ { s with desired := none }).complete
          (some op) (.failed (some .superseded))
    | none =>
      ((w.swap fun s ↦ { s with phase := .idle, running := false, drains := [] }).putAll
        w.slot.drains .done).exit k

def World.published (k : ℕ) : Option E → World G V E
  | none => w.resume k .planning
  | some e => (w.hold (.host e) none).exit k

def World.unpublished [DecidableEq V] (k : ℕ) (r : Resource G V) : Option E → World G V E
  | none => { w with shown := w.shown.erase (r.owner.id, r.value) }.dispose k r
  | some e => (w.hold (.host e) none).exit k

def World.disposed [DecidableEq V] (k : ℕ) (r : Resource G V) : Cleanup E → World G V E
  | .confirmed =>
    ({ w with live := w.live.erase (r.owner.id, r.value) }.swap fun s ↦
      { s with resource := none, error := none }).resume k .planning
  | .unconfirmed => (w.hold .cleanup none).exit k
  | .error e => (w.hold (.host e) none).exit k
  | .thrown e => (w.hold (.host e) none).exit k

def World.recovered (k : ℕ) (failedOpen : Option (FailedOpen E)) : Cleanup E → World G V E
  | .confirmed =>
    (w.swap fun s ↦ { s with failedOpen := none, error := none, phase := .idle }).resume k .planning
  | .unconfirmed => (w.hold .constructorCleanup failedOpen).exit k
  | .error e => (w.hold (.host e) failedOpen).exit k
  | .thrown e => (w.hold (.host e) failedOpen).exit k

def Op.failedOpen (op : Op G) (error : Failure E) : FailedOpen E :=
  ⟨error, if op.recovers then some op.id else none⟩

/-- The constructor has failed, and nothing says that it cleaned up. -/
def World.uncertain (k : ℕ) (op : Op G) (e : E) : World G V E :=
  (w.hold (.host e) (some (op.failedOpen (.host e)))).exit k

def World.opened (k : ℕ) (op : Op G) : Opening V E → World G V E
  | .value v =>
    ({ w with live := (op.id, v) :: w.live }.swap fun s ↦
      { s with resource := some ⟨v, op, false⟩ }).resume k .planning
  | .nothing => (w.hold .constructorClosed none).exit k
  | .error e clean =>
    if op.cleans then
      match clean with
      | .yes =>
        ((w.swap fun s ↦
          if s.desired.map Op.id = some op.id then { s with desired := none } else s).complete
            (some op) (.failed (some (.host e)))).resume k .planning
      | .no => w.uncertain k op e
      | .thrown e' => w.uncertain k op e'
    else w.uncertain k op e
  | .thrown e => w.uncertain k op e

def World.pump : World G V E :=
  if w.slot.running then w
  else { w.swap fun s ↦ { s with running := true } with workers := w.workers ++ [.planning] }

/-- The part of `request!` under the lock. -/
def World.enter [DecidableEq G] (r : Request G) : World G V E :=
  match r.generation, r.callable with
  | some generation, true =>
    if w.slot.phase = .held then w.answer .answered (.failed w.slot.error)
    else if w.slot.last.map Op.generation = some generation then w
    else
      let op : Op G := ⟨w.chans.length, generation, r.recovers, r.cleans⟩
      ((w.complete w.slot.desired (.failed (some .superseded))).chan .op).swap fun s ↦
        { s with desired := some op, last := some op }
  | _, _ => w.answer .answered (.failed (some .malformed))

def World.withdrawAll : World G V E :=
  let ch := w.chans.length
  let cancelled := ((w.complete w.slot.desired (.failed (some .superseded))).chan .retire).swap
    fun s ↦ { s with desired := none, last := none }
  if w.slot.phase = .held then cancelled.put ch (.failed w.slot.error)
  else cancelled.swap fun s ↦ { s with drains := s.drains ++ [ch] }

def World.retry : World G V E :=
  let ch := w.chans.length
  if w.slot.phase ≠ .held then w.answer .retry (.failed (some .notHeld))
  else if w.slot.resource.isSome || (w.slot.failedOpen.bind FailedOpen.recover).isSome then
    (w.chan .retry).swap fun s ↦
      { s with
        phase := if s.resource.isSome then .retiring else .recovering
        drains := s.drains ++ [ch] }
  else w.answer .retry (.failed (some .reloadRequired))

end

def World.step {G V E : Type} [DecidableEq G] [DecidableEq V] (w : World G V E) :
    Event G V E → World G V E
  | .request r => (w.enter r).pump
  | .retire => w.withdrawAll.pump
  | .retryCleanup => w.retry.pump
  | .plan k valid =>
    match w.workers[k]? with
    | some .planning => w.plan k valid
    | _ => w
  | .published k thrown =>
    match w.workers[k]? with
    | some (.publishing _ _) => w.published k thrown
    | _ => w
  | .unpublished k thrown =>
    match w.workers[k]? with
    | some (.unpublishing r) => w.unpublished k r thrown
    | _ => w
  | .disposed k cleanup =>
    match w.workers[k]? with
    | some (.disposing r) => w.disposed k r cleanup
    | _ => w
  | .recovered k cleanup =>
    match w.workers[k]? with
    | some (.recovering failedOpen) => w.recovered k failedOpen cleanup
    | _ => w
  | .opened k opening =>
    match w.workers[k]? with
    | some (.opening op) => w.opened k op opening
    | _ => w

/-- What a step can come to. -/
theorem World.step_cases {G V E : Type} [DecidableEq G] [DecidableEq V] {w : World G V E}
    {motive : World G V E → Prop} (event : Event G V E) (skip : motive w)
    (enter : ∀ r, motive (w.enter r).pump) (withdrawAll : motive w.withdrawAll.pump)
    (retry : motive w.retry.pump)
    (plan : ∀ (k : ℕ) valid, w.workers[k]? = some .planning → motive (w.plan k valid))
    (hold : ∀ (k : ℕ) worker, w.workers[k]? = some worker →
      ∀ error failedOpen, motive ((w.hold error failedOpen).exit k))
    (published : ∀ (k : ℕ) op value, w.workers[k]? = some (.publishing op value) →
      motive (w.published k none))
    (unpublished : ∀ (k : ℕ) r, w.workers[k]? = some (.unpublishing r) →
      motive (w.unpublished k r none))
    (disposed : ∀ (k : ℕ) r, w.workers[k]? = some (.disposing r) →
      motive (w.disposed k r .confirmed))
    (recovered : ∀ (k : ℕ) failedOpen, w.workers[k]? = some (.recovering failedOpen) →
      motive (w.recovered k failedOpen .confirmed))
    (opened : ∀ (k : ℕ) op, w.workers[k]? = some (.opening op) →
      ∀ value, motive (w.opened k op (.value value)))
    (cleaned : ∀ (k : ℕ) op, w.workers[k]? = some (.opening op) → ∀ error,
      motive (((w.swap fun s ↦
        if s.desired.map Op.id = some op.id then { s with desired := none } else s).complete
          (some op) (.failed (some (.host error)))).resume k .planning)) :
    motive (w.step event) := by
  cases event with
  | request r => exact enter r
  | retire => exact withdrawAll
  | retryCleanup => exact retry
  | plan k valid =>
    simp only [step]
    split
    · next hk => exact plan k valid hk
    · exact skip
  | published k thrown =>
    simp only [step]
    split
    · next op value hk =>
      cases thrown with
      | none => exact published k op value hk
      | some e => exact hold k _ hk _ _
    · exact skip
  | unpublished k thrown =>
    simp only [step]
    split
    · next r hk =>
      cases thrown with
      | none => exact unpublished k r hk
      | some e => exact hold k _ hk _ _
    · exact skip
  | disposed k cleanup =>
    simp only [step]
    split
    · next r hk =>
      cases cleanup with
      | confirmed => exact disposed k r hk
      | _ => exact hold k _ hk _ _
    · exact skip
  | recovered k cleanup =>
    simp only [step]
    split
    · next failedOpen hk =>
      cases cleanup with
      | confirmed => exact recovered k failedOpen hk
      | _ => exact hold k _ hk _ _
    · exact skip
  | opened k opening =>
    simp only [step]
    split
    · next op hk =>
      cases opening with
      | value v => exact opened k op hk v
      | error e clean =>
        simp only [World.opened]
        split
        · cases clean with
          | yes => exact cleaned k op hk e
          | _ => exact hold k _ hk _ _
        · exact hold k _ hk _ _
      | _ => exact hold k _ hk _ _
    · exact skip

end Simmis.Desktop.ResourceSlot
