import Simmis.Library.Runs
import Simmis.Workers.Assignments

/-!
# Waiting for a worker

The host waits for the physical stop of an external worker. Its loop reads the assignment, may
request the cancellation, and blocks on a queue of one token. Other threads commit, signal and
interrupt between any two steps.
-/

namespace Simmis.Workers.Wait

open Runs Bool Nat

/-- The map that `attempt` returns. -/
inductive Attempt (α : Type) where
  | value (a : α)
  | interrupted
  | unavailable

def Attempt.value? {α : Type} : Attempt α → Option α
  | .value a => some a
  | _ => none

def Attempt.isUnavailable {α : Type} : Attempt α → Bool
  | .unavailable => true
  | _ => false

def Attempt.isInterrupted {α : Type} : Attempt α → Bool
  | .interrupted => true
  | _ => false

variable {U : Type} [DecidableEq U]

/-- The loop up to its next attempt. What follows depends on what the attempt returns and on
`@interrupted?` after it. -/
inductive Loop (U : Type) where
  | read (next : Attempt (Option (Assignment U)) → Bool → Loop U)
  | cancelled (next : Attempt Bool → Bool → Loop U)
  | clock (next : Attempt (Option Time) → Bool → Loop U)
  | cancel (next : Attempt (Option (Assignment U)) → Bool → Loop U)
  | awaitEvent (remaining : Option ℤ) (next : Attempt Unit → Bool → Loop U)
  | recur (cancel : Bool)
  | done (assignment : Assignment U) (cancelled : Bool)

/-- The time, if the clock was asked and returned a date. -/
def date (now : Option (Attempt (Option Time))) : Option Time := (now.bind Attempt.value?).join

def remaining (row : Option (Assignment U)) (now : Option (Attempt (Option Time))) : Option ℤ :=
  match row.bind Assignment.expiresAt, row.bind Assignment.stopAckAt, date now with
  | some expiry, none, some time => some (expiry - time)
  | _, _, _ => none

/-- `cancel?` of an iteration. -/
def cancels (cancel interrupted : Bool) (observation : Attempt (Option (Assignment U)))
    (control : Attempt Bool) (now : Option (Attempt (Option Time))) : Bool :=
  let row := observation.value?.join
  cancel || interrupted || control.value? == some true || observation.isUnavailable ||
    control.isUnavailable || now.any Attempt.isUnavailable || (row.isSome && (date now).isNone) ||
    (remaining row now).any fun ms ↦ ms ≤ 0

/-- Block, with a deadline only while nothing has to be cancelled. -/
def wait (cancel : Bool) (observation : Attempt (Option (Assignment U)))
    (row : Option (Assignment U)) (remaining : Option ℤ) : Loop U :=
  let claimed := row.any fun r ↦ r.cancelAt.isNone && r.state = .claimed
  let deadline := if !cancel && !observation.isUnavailable && claimed then
    remaining.filter fun ms ↦ 0 < ms else none
  .awaitEvent deadline fun event _ ↦ .recur (cancel || event.isInterrupted)

variable (id : U)

/-- Return an acknowledged row, or look once more after a cancellation. -/
def settle (cancel : Bool) (observation : Attempt (Option (Assignment U))) (remaining : Option ℤ)
    (cancellation : Option (Attempt (Option (Assignment U)))) (interrupted : Bool) :
    Loop U :=
  let closed := (cancellation.bind Attempt.value?).join
  let row := if closed.map Assignment.id = some id then closed else observation.value?.join
  match row.filter fun r ↦ r.stopAckAt.isSome with
  | some r => .done r (cancel || interrupted || r.cancelAt.isSome)
  | none =>
    if cancellation.isSome then
      .read fun reread _ ↦
        match reread.value?.join.filter fun r ↦ r.stopAckAt.isSome with
        | some acknowledged => .done acknowledged true
        | none => wait cancel observation row remaining
    else wait cancel observation row remaining

/-- Request the cancellation, unless it is recorded already. -/
def decide (cancel : Bool) (observation : Attempt (Option (Assignment U))) (control : Attempt Bool)
    (now : Option (Attempt (Option Time))) (interrupted : Bool) : Loop U :=
  let row := observation.value?.join
  let cancel := cancels cancel interrupted observation control now
  if cancel && (row.bind Assignment.cancelAt).isNone then
    .cancel fun cancellation interrupted ↦
      settle id cancel observation (remaining row now) (some cancellation) interrupted
  else settle id cancel observation (remaining row now) none interrupted

/-- One iteration of `await-stop!`. -/
def iteration (cancel : Bool) : Loop U :=
  .read fun observation _ ↦ .cancelled fun control interrupted ↦
    match observation.value?.join with
    | some _ => .clock fun now interrupted ↦
      decide id cancel observation control (some now) interrupted
    | none => decide id cancel observation control none interrupted

/-- Where an attempt is: at the interrupt status, in its call, or in the handler of an exception. -/
inductive Phase where
  | entering
  | running
  | failed (interruption : Bool)

inductive Failure where
  | interrupted
  | exception (interruption : Bool)

/-- How a call ends, as far as other code decides it. -/
structure Outcome (U : Type) where
  failure : Option Failure := none
  control : Bool := false
  time : Option Time := none
  closed : Option (Assignment U) := none
  elapsed : Bool := false

inductive Event (U : Type)
  | commit (row : Option (Assignment U))
  | signal (commit : ℕ)
  | hook
  | interrupt
  | owner (outcome : Outcome U)

/-- A read of the row, with the number of commits before it. -/
structure Reading (U : Type) where
  commits : ℕ
  result : Attempt (Option (Assignment U))

/-- The row, the queue, the interrupt status and the place in the loop; then the commits, the last
one signalled, the last read, and whether a stop has been observed. -/
structure State (U : Type) where
  row : Option (Assignment U)
  wake : Bool
  interruptStatus : Bool
  interrupted : Bool
  loop : Loop U
  phase : Phase
  commits : ℕ
  signalled : ℕ
  reading : Option (Reading U)
  observed : Bool

/-- The owner enters the loop. -/
def enter (row : Option (Assignment U)) (wake interruptStatus interrupted : Bool) : State U where
  row := row
  wake := wake
  interruptStatus := interruptStatus
  interrupted := interrupted
  loop := .recur interrupted
  phase := .entering
  commits := 0
  signalled := 0
  reading := none
  observed := false

/-- The next step of an attempt whose call returns `value`, or blocks without one. -/
def attempt {α : Type} (s : State U) (outcome : Outcome U) (value : Option α)
    (note : Attempt α → State U → State U) (next : Attempt α → Bool → Loop U) : State U :=
  let answer (s : State U) (result : Attempt α) : State U :=
    { note result s with loop := next result s.interrupted, phase := .entering }
  match s.phase with
  | .entering =>
    { s with
      interrupted := s.interrupted || s.interruptStatus
      interruptStatus := false
      phase := .running }
  | .running =>
    match outcome.failure with
    | some .interrupted => answer { s with interrupted := true, interruptStatus := false } .interrupted
    | some (.exception interruption) => { s with phase := .failed interruption }
    | none =>
      match value with
      | some a => answer s (.value a)
      | none => s
  | .failed interruption =>
    answer { s with
      interrupted := s.interrupted || s.interruptStatus || interruption
      interruptStatus := false } .unavailable

/-- The row of the last read, unless it failed. -/
def State.lastRow (s : State U) : Option (Assignment U) := s.reading.bind (·.result.value?.join)

def expired (row : Option (Assignment U)) (now : Attempt (Option Time)) : Bool :=
  (remaining row (some now)).any fun ms ↦ ms ≤ 0

/-! What is noted of the result of an attempt. -/

def noteRead (result : Attempt (Option (Assignment U))) (s : State U) : State U :=
  { s with reading := some ⟨s.commits, result⟩ }

def noteControl (result : Attempt Bool) (s : State U) : State U :=
  { s with observed := s.observed || result.value? == some true }

def noteTime (result : Attempt (Option Time)) (s : State U) : State U :=
  { s with observed := s.observed || expired s.lastRow result }

/-- A token that is there is taken, also when the time has elapsed. -/
def noteEvent (result : Attempt Unit) (s : State U) : State U :=
  { s with wake := s.wake && result.value?.isNone }

def stepOwner (s : State U) (outcome : Outcome U) : State U :=
  match s.loop with
  | .read next => attempt s outcome (some s.row) noteRead next
  | .cancelled next => attempt s outcome (some outcome.control) noteControl next
  | .clock next => attempt s outcome (some outcome.time) noteTime next
  | .cancel next => attempt s outcome (some outcome.closed) (fun _ s ↦ s) next
  | .awaitEvent remaining next =>
    attempt s outcome (if s.wake || (remaining.isSome && outcome.elapsed) then some () else none)
      noteEvent next
  | .recur cancel => { s with loop := iteration id cancel, phase := .entering }
  | .done _ _ => s

def step (s : State U) : Event U → State U
  | .commit row => { s with row := row, commits := s.commits + 1 }
  | .signal commit =>
    if commit ≤ s.commits then { s with signalled := max s.signalled commit, wake := true } else s
  | .hook => { s with wake := true }
  | .interrupt => { s with interruptStatus := true }
  | .owner outcome => stepOwner id s outcome

/-- Wherever the loop returns, the row is acknowledged, and a cancellation, an expiry, an interrupt
or the row's own cancellation is reported. -/
def Reports : (observed interrupted : Bool) → (row : Option (Assignment U)) → Loop U → Prop
  | observed, _, _, .read next => ∀ result i, Reports observed i result.value?.join (next result i)
  | observed, _, row, .cancelled next => ∀ result i,
    Reports (observed || result.value? == some true) i row (next result i)
  | observed, _, row, .clock next => ∀ result i,
    Reports (observed || expired row result) i row (next result i)
  | observed, _, row, .cancel next => ∀ result i, Reports observed i row (next result i)
  | observed, _, row, .awaitEvent _ next => ∀ result i, Reports observed i row (next result i)
  | observed, _, _, .recur cancel => observed = true → cancel = true
  | observed, interrupted, _, .done row cancelled => row.stopAckAt.isSome = true ∧
    (observed = true ∨ interrupted = true ∨ row.cancelAt.isSome = true → cancelled = true)

variable {cancel interrupted observed : Bool} {last : Option (Assignment U)}

omit [DecidableEq U] in
theorem reports_wait (hobserved : observed → cancel) (observation : Attempt (Option (Assignment U)))
    (row : Option (Assignment U)) (ms : Option ℤ) :
    Reports observed interrupted last (wait cancel observation row ms) := by
  intro event i hseen
  rw [hobserved hseen, Bool.true_or]

theorem reports_settle (hobserved : observed → cancel) (observation : Attempt (Option (Assignment U)))
    (ms : Option ℤ) (cancellation : Option (Attempt (Option (Assignment U)))) :
    Reports observed interrupted last
      (settle id cancel observation ms cancellation interrupted) := by
  unfold settle
  dsimp only
  split
  · next r hr =>
    refine ⟨(Option.filter_eq_some_iff.mp hr).2, ?_⟩
    rintro (hseen | hinterrupted | hcancelled)
    · rw [hobserved hseen]
      rfl
    · rw [hinterrupted, Bool.or_true, Bool.true_or]
    · rw [hcancelled, Bool.or_true]
  · split
    · intro reread i
      dsimp only
      split
      · next acknowledged hack =>
        exact ⟨(Option.filter_eq_some_iff.mp hack).2, fun _ ↦ rfl⟩
      · exact reports_wait hobserved observation _ ms
    · exact reports_wait hobserved observation _ ms

theorem reports_decide {observation : Attempt (Option (Assignment U))} {control : Attempt Bool}
    {now : Option (Attempt (Option Time))}
    (hobserved : observed → cancels cancel interrupted observation control now) :
    Reports observed interrupted last (decide id cancel observation control now interrupted) := by
  unfold decide
  dsimp only
  split
  · intro cancellation i
    exact reports_settle id hobserved observation _ _
  · exact reports_settle id hobserved observation _ _

theorem reports_iteration (hobserved : observed → cancel) :
    Reports observed interrupted last (iteration id cancel) := by
  intro observation i control i'
  have hcontrol (now : Option (Attempt (Option Time))) (i : Bool)
      (hseen : (observed || control.value? == some true)) :
      cancels cancel i observation control now := by
    obtain hold | hnew := (or_eq_true _ _).mp hseen
    · simp [cancels, hobserved hold]
    · simp [cancels, hnew]
  split
  · next row hrow =>
    intro now i''
    refine reports_decide id fun hseen ↦ ?_
    obtain hold | hexpired := (or_eq_true _ _).mp hseen
    · exact hcontrol _ _ hold
    · unfold expired at hexpired
      simp [cancels, hexpired]
  · exact reports_decide id (hcontrol none i')

/-- Since it blocked or started, the loop has read before it blocks. -/
def ReadsFirst : (read : Bool) → Loop U → Prop
  | _, .read next => ∀ result i, ReadsFirst true (next result i)
  | read, .cancelled next => ∀ result i, ReadsFirst read (next result i)
  | read, .clock next => ∀ result i, ReadsFirst read (next result i)
  | read, .cancel next => ∀ result i, ReadsFirst read (next result i)
  | read, .awaitEvent _ next => read = true ∧ ∀ result i, ReadsFirst false (next result i)
  | _, .recur _ => True
  | _, .done _ _ => True

theorem readsFirst_settle (cancel : Bool) (observation : Attempt (Option (Assignment U)))
    (ms : Option ℤ) (cancellation : Option (Attempt (Option (Assignment U)))) (interrupted : Bool) :
    ReadsFirst true (settle id cancel observation ms cancellation interrupted) := by
  have hwait (row : Option (Assignment U)) : ReadsFirst true (wait cancel observation row ms) :=
    ⟨rfl, fun _ _ ↦ trivial⟩
  unfold settle
  dsimp only
  split
  · trivial
  · split
    · intro reread i
      dsimp only
      split
      · trivial
      · exact hwait _
    · exact hwait _

theorem readsFirst_decide (cancel : Bool) (observation : Attempt (Option (Assignment U)))
    (control : Attempt Bool) (now : Option (Attempt (Option Time))) (interrupted : Bool) :
    ReadsFirst true (decide id cancel observation control now interrupted) := by
  unfold decide
  dsimp only
  split
  · intro cancellation i
    exact readsFirst_settle id _ _ _ _ _
  · exact readsFirst_settle id _ _ _ _ _

theorem readsFirst_iteration (cancel read : Bool) : ReadsFirst read (iteration id cancel) := by
  intro observation i control i'
  split
  · intro now i''
    exact readsFirst_decide id _ _ _ _ _
  · exact readsFirst_decide id _ _ _ _ _

/-- After `n` steps the loop has read again or returned, unless it blocks. -/
def Within : ℕ → Loop U → Prop
  | n, .read _ => 3 ≤ n
  | n, .cancelled next => 3 ≤ n ∧ ∀ result i, Within (n - 3) (next result i)
  | n, .clock next => 3 ≤ n ∧ ∀ result i, Within (n - 3) (next result i)
  | n, .cancel next => 3 ≤ n ∧ ∀ result i, Within (n - 3) (next result i)
  | n, .awaitEvent _ next => 3 ≤ n ∧ ∀ result i, Within (n - 3) (next result i)
  | n, .recur _ => 6 ≤ n
  | _, .done _ _ => True

variable {n : ℕ}

omit [DecidableEq U] in
theorem Within.mono {m : ℕ} {loop : Loop U} (h : Within m loop) (hle : m ≤ n) : Within n loop := by
  induction loop generalizing m n with
  | read next ih => exact le_trans (show 3 ≤ m from h) hle
  | cancelled next ih | clock next ih | cancel next ih | awaitEvent ms next ih =>
    exact ⟨le_trans h.1 hle, fun result i ↦ ih result i (h.2 result i) (Nat.sub_le_sub_right hle 3)⟩
  | recur cancel => exact le_trans (show 6 ≤ m from h) hle
  | done row cancelled => trivial

/-- After each read the next one is close. -/
def Paced : Loop U → Prop
  | .read next => ∀ result i, Within 18 (next result i) ∧ Paced (next result i)
  | .cancelled next => ∀ result i, Paced (next result i)
  | .clock next => ∀ result i, Paced (next result i)
  | .cancel next => ∀ result i, Paced (next result i)
  | .awaitEvent _ next => ∀ result i, Paced (next result i)
  | .recur _ => True
  | .done _ _ => True

omit [DecidableEq U] in
theorem within_wait (cancel : Bool) (observation : Attempt (Option (Assignment U)))
    (row : Option (Assignment U)) (ms : Option ℤ) :
    Within 9 (wait cancel observation row ms) ∧ Paced (wait cancel observation row ms) := by
  refine ⟨⟨by omega, fun _ _ ↦ ?_⟩, fun _ _ ↦ trivial⟩
  exact le_refl 6

theorem within_settle (cancel : Bool) (observation : Attempt (Option (Assignment U)))
    (ms : Option ℤ) (cancellation : Option (Attempt (Option (Assignment U)))) (interrupted : Bool) :
    Within 9 (settle id cancel observation ms cancellation interrupted) ∧
      Paced (settle id cancel observation ms cancellation interrupted) := by
  unfold settle
  dsimp only
  split
  · exact ⟨trivial, trivial⟩
  · split
    · refine ⟨show 3 ≤ 9 by omega, fun reread i ↦ ?_⟩
      dsimp only
      split
      · exact ⟨trivial, trivial⟩
      · exact ⟨(within_wait _ _ _ _).1.mono (by omega), (within_wait _ _ _ _).2⟩
    · exact within_wait _ _ _ _

theorem within_decide (cancel : Bool) (observation : Attempt (Option (Assignment U)))
    (control : Attempt Bool) (now : Option (Attempt (Option Time))) (interrupted : Bool) :
    Within 12 (decide id cancel observation control now interrupted) ∧
      Paced (decide id cancel observation control now interrupted) := by
  unfold decide
  dsimp only
  split
  · exact ⟨⟨by omega, fun _ _ ↦ (within_settle id _ _ _ _ _).1⟩,
      fun _ _ ↦ (within_settle id _ _ _ _ _).2⟩
  · exact ⟨(within_settle id _ _ _ _ _).1.mono (by omega), (within_settle id _ _ _ _ _).2⟩

theorem paced_iteration (cancel : Bool) : Paced (iteration id cancel) := by
  intro observation i
  refine ⟨⟨by omega, fun control i' ↦ ?_⟩, fun control i' ↦ ?_⟩
  · split
    · exact ⟨by omega, fun now i'' ↦ (within_decide id _ _ _ _ _).1⟩
    · exact (within_decide id _ _ _ _ _).1.mono (by omega)
  · split
    · exact fun now i'' ↦ (within_decide id _ _ _ _ _).2
    · exact (within_decide id _ _ _ _ _).2

/-- The steps of an attempt that are behind. -/
def Phase.spent : Phase → ℕ
  | .entering => 0
  | .running => 1
  | .failed _ => 2

/-- What the owner's threads agree on: only the parts that an attempt touches change. -/
structure State.Same (s t : State U) : Prop where
  row : t.row = s.row
  wake : t.wake = s.wake
  commits : t.commits = s.commits
  signalled : t.signalled = s.signalled
  reading : t.reading = s.reading
  observed : t.observed = s.observed

omit [DecidableEq U] in
/-- A step of an attempt answers, stays in the loop, or is blocked. -/
theorem attempt_cases {α : Type} (s : State U) (outcome : Outcome U) (value : Option α)
    (note : Attempt α → State U → State U) (next : Attempt α → Bool → Loop U) :
    (∃ result t, attempt s outcome value note next =
        { note result t with loop := next result t.interrupted, phase := .entering } ∧
      s.Same t ∧ ∀ a, result = .value a → value = some a) ∨
    (∃ t, attempt s outcome value note next = t ∧ s.Same t ∧ t.loop = s.loop ∧
      t.phase.spent = s.phase.spent + 1) ∨
    (attempt s outcome value note next = s ∧ value = none) := by
  unfold attempt
  split
  · next hphase =>
    refine .inr (.inl ⟨_, rfl, ⟨rfl, rfl, rfl, rfl, rfl, rfl⟩, rfl, ?_⟩)
    rw [hphase]
    rfl
  · next hphase =>
    split
    · exact .inl ⟨.interrupted, { s with interrupted := true, interruptStatus := false }, rfl,
        ⟨rfl, rfl, rfl, rfl, rfl, rfl⟩, nofun⟩
    · refine .inr (.inl ⟨_, rfl, ⟨rfl, rfl, rfl, rfl, rfl, rfl⟩, rfl, ?_⟩)
      rw [hphase]
      rfl
    · split
      · next a =>
        refine .inl ⟨.value a, s, rfl, ⟨rfl, rfl, rfl, rfl, rfl, rfl⟩, fun b hb ↦ ?_⟩
        cases hb
        rfl
      · exact .inr (.inr ⟨rfl, rfl⟩)
  · next interruption hphase =>
    exact .inl ⟨.unavailable, { s with
      interrupted := s.interrupted || s.interruptStatus || interruption
      interruptStatus := false }, rfl, ⟨rfl, rfl, rfl, rfl, rfl, rfl⟩, nofun⟩

/-- The steps of the owner that leave a place of the loop. -/
inductive Answers (id : U) (s : State U) : State U → Prop
  | read {next : Attempt (Option (Assignment U)) → Bool → Loop U} (hloop : s.loop = .read next)
    (result : Attempt (Option (Assignment U))) (t : State U) (hsame : s.Same t) :
    Answers id s { noteRead result t with loop := next result t.interrupted, phase := .entering }
  | cancelled {next : Attempt Bool → Bool → Loop U} (hloop : s.loop = .cancelled next)
    (result : Attempt Bool) (t : State U) (hsame : s.Same t) :
    Answers id s { noteControl result t with loop := next result t.interrupted, phase := .entering }
  | clock {next : Attempt (Option Time) → Bool → Loop U} (hloop : s.loop = .clock next)
    (result : Attempt (Option Time)) (t : State U) (hsame : s.Same t) :
    Answers id s { noteTime result t with loop := next result t.interrupted, phase := .entering }
  | cancel {next : Attempt (Option (Assignment U)) → Bool → Loop U} (hloop : s.loop = .cancel next)
    (result : Attempt (Option (Assignment U))) (t : State U) (hsame : s.Same t) :
    Answers id s { t with loop := next result t.interrupted, phase := .entering }
  | awaitEvent {ms : Option ℤ} {next : Attempt Unit → Bool → Loop U}
    (hloop : s.loop = .awaitEvent ms next) (result : Attempt Unit) (t : State U) (hsame : s.Same t) :
    Answers id s { noteEvent result t with loop := next result t.interrupted, phase := .entering }
  | recur {cancel : Bool} (hloop : s.loop = .recur cancel) :
    Answers id s { s with loop := iteration id cancel, phase := .entering }

/-- An attempt in its place: it answers, goes on, or is blocked. -/
inductive Attempts (s : State U) (answers : State U → Prop) (u : State U) : Prop
  | answers (h : answers u)
  | goesOn (hsame : s.Same u) (hloop : u.loop = s.loop) (hspent : u.phase.spent = s.phase.spent + 1)
    (hdone : ∀ r c, s.loop ≠ .done r c)
  | blocked (hsame : u = s) (hend : (∃ r c, s.loop = .done r c) ∨
      ∃ ms next, s.loop = .awaitEvent ms next ∧ s.wake = false)

variable {s : State U}

omit [DecidableEq U] in
theorem attempts {α : Type} {outcome : Outcome U} {value : Option α}
    {note : Attempt α → State U → State U} {next : Attempt α → Bool → Loop U}
    {answers : State U → Prop} (hanswers : ∀ result t, s.Same t →
      answers { note result t with loop := next result t.interrupted, phase := .entering })
    (hdone : ∀ r c, s.loop ≠ .done r c)
    (hblocked : value = none → ∃ ms next, s.loop = .awaitEvent ms next ∧ s.wake = false) :
    Attempts s answers (attempt s outcome value note next) := by
  obtain ⟨result, t, heq, h, -⟩ | ⟨t, heq, h, hloop, hspent⟩ | ⟨heq, hnone⟩ :=
    attempt_cases s outcome value note next
  · rw [heq]
    exact .answers (hanswers result t h)
  · rw [heq]
    exact .goesOn h hloop hspent hdone
  · rw [heq]
    exact .blocked rfl (.inr (hblocked hnone))

/-- What a step of the owner does. -/
theorem stepOwner_cases (s : State U) (outcome : Outcome U) :
    Attempts s (Answers id s) (stepOwner id s outcome) := by
  unfold stepOwner
  split
  · next hloop =>
    refine attempts ?_ ?_ ?_
    · exact fun result t h ↦ .read hloop result t h
    · intro r c hdone
      rw [hloop] at hdone
      cases hdone
    · intro hnone
      cases hnone
  · next hloop =>
    refine attempts ?_ ?_ ?_
    · exact fun result t h ↦ .cancelled hloop result t h
    · intro r c hdone
      rw [hloop] at hdone
      cases hdone
    · intro hnone
      cases hnone
  · next hloop =>
    refine attempts ?_ ?_ ?_
    · exact fun result t h ↦ .clock hloop result t h
    · intro r c hdone
      rw [hloop] at hdone
      cases hdone
    · intro hnone
      cases hnone
  · next hloop =>
    refine attempts ?_ ?_ ?_
    · exact fun result t h ↦ .cancel hloop result t h
    · intro r c hdone
      rw [hloop] at hdone
      cases hdone
    · intro hnone
      cases hnone
  · next ms next hloop =>
    refine attempts ?_ ?_ fun hnone ↦ ⟨ms, next, hloop, ?_⟩
    · exact fun result t h ↦ .awaitEvent hloop result t h
    · intro r c hdone
      rw [hloop] at hdone
      cases hdone
    · cases hwake : s.wake with
      | false => rfl
      | true =>
        rw [hwake, Bool.true_or, if_pos rfl] at hnone
        cases hnone
  · next hloop => exact .answers (.recur hloop)
  · next r c hloop => exact .blocked rfl (.inl ⟨r, c, hloop⟩)

/-- `fresh` says that the row has been read since the loop blocked last. -/
structure State.Sound (s : State U) : Prop where
  reports : Reports s.observed s.interrupted s.lastRow s.loop
  current : ∃ fresh, ReadsFirst fresh s.loop ∧ (fresh = true → s.wake = false →
    ∃ reading, s.reading = some reading ∧ s.signalled ≤ reading.commits)
  within : Within 18 s.loop
  paced : Paced s.loop
  signalled : s.signalled ≤ s.commits
  reading : ∀ reading, s.reading = some reading → reading.commits ≤ s.commits

section

omit [DecidableEq U]

/-- Where the loop is at an attempt, only the attempt decides what is reported. -/
theorem Reports.of_attempt {i i' : Bool} {row : Option (Assignment U)} {loop : Loop U}
    (h : Reports observed i row loop) (hdone : ∀ r c, loop ≠ .done r c) :
    Reports observed i' row loop := by
  cases loop with
  | done r c => exact absurd rfl (hdone r c)
  | read | cancelled | clock | cancel | awaitEvent | recur => exact h

theorem State.Same.lastRow {s t : State U} (h : s.Same t) : t.lastRow = s.lastRow := by
  rw [State.lastRow, h.reading, State.lastRow]

/-- An attempt that goes on keeps everything. -/
theorem State.Sound.same {s t : State U} (hs : s.Sound) (h : s.Same t) (hloop : t.loop = s.loop)
    (hdone : ∀ r c, s.loop ≠ .done r c) : t.Sound where
  reports := by
    rw [h.observed, h.lastRow, hloop]
    exact hs.reports.of_attempt hdone
  current := by
    rw [hloop, h.wake, h.reading, h.signalled]
    exact hs.current
  within := hloop ▸ hs.within
  paced := hloop ▸ hs.paced
  signalled := by
    rw [h.signalled, h.commits]
    exact hs.signalled
  reading := by
    rw [h.reading, h.commits]
    exact hs.reading

end

theorem State.Sound.answers {id : U} {u : State U} (hs : s.Sound) (h : Answers id s u) :
    u.Sound := by
  obtain ⟨hreports, ⟨fresh, hfirst, hcurrent⟩, hwithin, hpaced, hsignalled, hreading⟩ := hs
  cases h with
  | read hloop result t h =>
    rw [hloop] at hreports hfirst hpaced
    rw [← h.signalled, ← h.commits] at hsignalled
    refine ⟨h.observed ▸ hreports result t.interrupted,
      ⟨true, hfirst _ _, fun _ _ ↦ ⟨_, rfl, hsignalled⟩⟩, (hpaced _ _).1, (hpaced _ _).2,
      hsignalled, ?_⟩
    rintro reading ⟨⟩
    exact le_refl _
  | cancelled hloop result t h | clock hloop result t h | cancel hloop result t h =>
    rw [hloop] at hreports hfirst hwithin hpaced
    rw [← h.observed, ← h.lastRow] at hreports
    rw [← h.wake, ← h.reading, ← h.signalled] at hcurrent
    rw [← h.signalled, ← h.commits] at hsignalled
    rw [← h.reading, ← h.commits] at hreading
    exact ⟨hreports result _, ⟨fresh, hfirst _ _, hcurrent⟩, (hwithin.2 _ _).mono (by omega),
      hpaced _ _, hsignalled, hreading⟩
  | awaitEvent hloop result t h =>
    rw [hloop] at hreports hfirst hwithin hpaced
    rw [← h.observed, ← h.lastRow] at hreports
    rw [← h.signalled, ← h.commits] at hsignalled
    rw [← h.reading, ← h.commits] at hreading
    exact ⟨hreports result _, ⟨false, hfirst.2 _ _, nofun⟩, (hwithin.2 _ _).mono (by omega),
      hpaced _ _, hsignalled, hreading⟩
  | recur hloop =>
    rw [hloop] at hreports
    exact ⟨reports_iteration id hreports, ⟨false, readsFirst_iteration id _ false, nofun⟩,
      show 3 ≤ 18 by omega, paced_iteration id _, hsignalled, hreading⟩

theorem State.Sound.step (hs : s.Sound) (id : U) (e : Event U) : (step id s e).Sound := by
  cases e with
  | commit row =>
    exact { hs with
      signalled := hs.signalled.trans (le_succ _)
      reading := fun reading h ↦ (hs.reading reading h).trans (le_succ _) }
  | signal commit =>
    unfold Wait.step
    dsimp only
    split
    · next hle =>
      obtain ⟨fresh, hfirst, -⟩ := hs.current
      exact { hs with current := ⟨fresh, hfirst, nofun⟩, signalled := max_le hs.signalled hle }
    · exact hs
  | hook =>
    obtain ⟨fresh, hfirst, -⟩ := hs.current
    exact { hs with current := ⟨fresh, hfirst, nofun⟩ }
  | interrupt => exact { hs with }
  | owner outcome =>
    change (stepOwner id s outcome).Sound
    cases stepOwner_cases id s outcome with
    | answers h => exact hs.answers h
    | goesOn hsame hloop _ hdone => exact hs.same hsame hloop hdone
    | blocked hsame _ => rwa [hsame]

omit [DecidableEq U] in
theorem sound_enter (row : Option (Assignment U)) (wake interruptStatus interrupted : Bool) :
    (enter row wake interruptStatus interrupted).Sound :=
  { reports := fun hobserved ↦ absurd hobserved false_ne_true
    current := ⟨false, trivial, fun hfresh ↦ absurd hfresh false_ne_true⟩
    within := show 6 ≤ 18 by omega
    paced := trivial
    signalled := le_refl 0
    reading := fun _ hreading ↦ absurd hreading.symm (Option.some_ne_none _) }

theorem State.Sound.run (hs : s.Sound) (id : U) (events : List (Event U)) :
    (run (Wait.step id) s events).Sound :=
  run_preserves State.Sound (fun _ e hs ↦ hs.step id e) hs events

/-- The wait is over, or the row has been read after the first `n` commits. -/
def Reread (n : ℕ) (s : State U) : Prop :=
  (∃ r c, s.loop = .done r c) ∨ ∃ reading, s.reading = some reading ∧ n ≤ reading.commits

def Due (n : ℕ) (s : State U) : Prop := Within (n + s.phase.spent) s.loop

/-- The steps of the owner among events. -/
def ownerSteps (events : List (Event U)) : ℕ :=
  events.countP fun e ↦
    match e with
    | .owner _ => true
    | _ => false

omit [DecidableEq U] in
theorem not_due_zero (hdone : ∀ r c, s.loop ≠ .done r c) (h : Due 0 s)
    (hphase : s.phase.spent ≤ 2) : False := by
  unfold Due at h
  cases hloop : s.loop with
  | read next | cancelled next | clock next | cancel next | awaitEvent ms next | recur c =>
    rw [hloop] at h
    simp only [Within] at h
    omega
  | done r c => exact hdone r c hloop

section

variable {id : U} {u : State U} (h : Answers id s u)
include h

/-- An answer of the owner has not returned before. -/
theorem Answers.not_done (r : Assignment U) (c : Bool) : s.loop ≠ .done r c := by
  intro hdone
  cases h with
  | read hloop | cancelled hloop | clock hloop | cancel hloop | awaitEvent hloop | recur hloop =>
    rw [hdone] at hloop
    cases hloop

/-- An answer keeps the last read or reads anew, and comes closer to the next read. -/
theorem Answers.reading : (∃ reading, u.reading = some reading ∧ reading.commits = s.commits) ∨
    (u.reading = s.reading ∧ u.phase = .entering ∧
      ∀ n, Within (n + 1 + s.phase.spent) s.loop → Within n u.loop) := by
  have hspent : s.phase.spent ≤ 2 := by
    cases s.phase <;> simp [Phase.spent]
  cases h with
  | read hloop result t hsame => exact .inl ⟨_, rfl, hsame.commits⟩
  | cancelled hloop result t hsame | clock hloop result t hsame | cancel hloop result t hsame
  | awaitEvent hloop result t hsame =>
    refine .inr ⟨hsame.reading, rfl, fun n hwithin ↦ ?_⟩
    rw [hloop] at hwithin
    exact (hwithin.2 _ _).mono (by omega)
  | recur hloop =>
    refine .inr ⟨rfl, rfl, fun n hwithin ↦ ?_⟩
    rw [hloop] at hwithin
    have hle : 6 ≤ n + 1 + s.phase.spent := hwithin
    exact show 3 ≤ n by omega

theorem Answers.signalled : u.signalled = s.signalled := by
  cases h with
  | read _ _ _ hsame | cancelled _ _ _ hsame | clock _ _ _ hsame | cancel _ _ _ hsame
  | awaitEvent _ _ _ hsame => exact hsame.signalled
  | recur _ => rfl

end

/-- Once read, a commit stays read. -/
theorem Reread.step (h : Reread n s) (hn : n ≤ s.commits) (id : U) (e : Event U) :
    Reread n (step id s e) := by
  cases e with
  | commit row => exact h
  | signal commit =>
    unfold Wait.step
    dsimp only
    split <;> exact h
  | hook => exact h
  | interrupt => exact h
  | owner outcome =>
    change Reread n (stepOwner id s outcome)
    cases stepOwner_cases id s outcome with
    | answers hanswers =>
      obtain ⟨r, c, hdone⟩ | ⟨reading, hreading, hle⟩ := h
      · exact absurd hdone (hanswers.not_done r c)
      · obtain ⟨new, hnew, hcommits⟩ | ⟨hsame, -⟩ := hanswers.reading
        · exact .inr ⟨new, hnew, hcommits.symm ▸ hn⟩
        · exact .inr ⟨reading, hsame.trans hreading, hle⟩
    | goesOn hsame hloop _ hdone =>
      obtain ⟨r, c, hreturned⟩ | ⟨reading, hreading, hle⟩ := h
      · exact absurd hreturned (hdone r c)
      · exact .inr ⟨reading, hsame.reading.trans hreading, hle⟩
    | blocked hsame _ => rwa [hsame]

/-- A step of the owner reads, has returned, or comes closer to it. -/
theorem State.Sound.due (hs : s.Sound) {k : ℕ} (hn : n ≤ s.signalled) (hdue : Due (k + 1) s)
    (id : U) (outcome : Outcome U) :
    Reread n (stepOwner id s outcome) ∨ Due k (stepOwner id s outcome) := by
  cases stepOwner_cases id s outcome with
  | answers h =>
    obtain ⟨new, hnew, hcommits⟩ | ⟨-, hphase, hwithin⟩ := h.reading
    · exact .inl (.inr ⟨new, hnew, hcommits.symm ▸ hn.trans hs.signalled⟩)
    · refine .inr ?_
      unfold Due
      rw [hphase]
      exact hwithin k hdue
  | goesOn hsame hloop hspent _ =>
    refine .inr ?_
    unfold Due at hdue ⊢
    rw [hloop, hspent]
    exact hdue.mono (by omega)
  | blocked hsame hend =>
    rw [hsame]
    obtain hdone | ⟨ms, next, hloop, hwake⟩ := hend
    · exact .inl (.inl hdone)
    · obtain ⟨fresh, hfirst, hcurrent⟩ := hs.current
      rw [hloop] at hfirst
      obtain ⟨reading, hreading, hle⟩ := hcurrent hfirst.1 hwake
      exact .inl (.inr ⟨reading, hreading, hn.trans hle⟩)

theorem signalled_step (s : State U) (e : Event U) : s.signalled ≤ (step id s e).signalled := by
  cases e with
  | commit row | hook | interrupt => exact le_refl _
  | signal commit =>
    unfold step
    dsimp only
    split
    · exact le_max_left _ _
    · exact le_refl _
  | owner outcome =>
    change s.signalled ≤ (stepOwner id s outcome).signalled
    cases stepOwner_cases id s outcome with
    | answers h => exact h.signalled.ge
    | goesOn hsame _ _ _ => exact hsame.signalled.ge
    | blocked hsame _ => rw [hsame]

/-- After enough steps of the owner a signalled commit has been read, or the wait is over. -/
theorem State.Sound.reread_run (hs : s.Sound) (id : U) (hn : n ≤ s.signalled) {k : ℕ}
    (hdue : Reread n s ∨ Due k s) (events : List (Event U)) (hmany : k ≤ ownerSteps events) :
    Reread n (Runs.run (Wait.step id) s events) := by
  have hzero (s : State U) (h : Due 0 s) : Reread n s := by
    by_contra hnot
    have hspent : s.phase.spent ≤ 2 := by
      cases s.phase <;> simp [Phase.spent]
    exact not_due_zero (fun r c h ↦ hnot (.inl ⟨r, c, h⟩)) h hspent
  induction events generalizing s k with
  | nil =>
    obtain rfl : k = 0 := le_zero.mp hmany
    exact hdue.elim (fun h ↦ h) (hzero s)
  | cons e events ih =>
    have hn' : n ≤ (Wait.step id s e).signalled := hn.trans (signalled_step id s e)
    obtain h | h := hdue
    · exact ih (hs.step id e) hn' (.inl (h.step (hn.trans hs.signalled) id e)) (zero_le _)
    · cases e with
      | commit row | hook | interrupt => exact ih (hs.step id _) hn' (.inr h) hmany
      | signal commit =>
        refine ih (hs.step id _) hn' (.inr ?_) hmany
        unfold Wait.step
        dsimp only
        split <;> exact h
      | owner outcome =>
        cases k with
        | zero =>
          have hread := (hzero s h).step (hn.trans hs.signalled) id (.owner outcome)
          exact ih (hs.step id _) hn' (.inl hread) (zero_le _)
        | succ k =>
          refine ih (hs.step id _) hn' (hs.due hn h id outcome) ?_
          rw [ownerSteps, List.countP_cons_of_pos rfl] at hmany
          exact le_of_succ_le_succ hmany

/-- In every interleaving the wait returns an acknowledged row and reports a cancellation that it or
the row observed; before it blocks, the last signalled commit was read or its read failed; and a
signalled commit is read within 18 steps. -/
theorem await_stop_is_exact (id : U) (row : Option (Assignment U))
    (wake interruptStatus interrupted : Bool) (events : List (Event U)) :
    let s := run (step id) (enter row wake interruptStatus interrupted) events
    (∀ r cancelled, s.loop = .done r cancelled → r.stopAckAt.isSome = true ∧
      (s.interrupted = true ∨ s.observed = true ∨ r.cancelAt.isSome = true → cancelled = true)) ∧
    (∀ ms next, s.loop = .awaitEvent ms next → s.wake = false → ∃ reading,
      s.reading = some reading ∧ (s.signalled ≤ reading.commits ∨ reading.result.value? = none)) ∧
    ∀ later, 18 ≤ ownerSteps later → let s' := run (step id) s later
      (∃ r cancelled, s'.loop = .done r cancelled) ∨
        ∃ reading, s'.reading = some reading ∧ s.signalled ≤ reading.commits := by
  intro s
  have hs : s.Sound := (sound_enter row wake interruptStatus interrupted).run id events
  refine ⟨fun r cancelled hdone ↦ ?_, fun ms next hloop hwake ↦ ?_, fun later hmany ↦ ?_⟩
  · have hreports := hs.reports
    rw [hdone] at hreports
    refine ⟨hreports.1, fun hor ↦ hreports.2 ?_⟩
    obtain hinterrupted | hobserved | hcancelled := hor
    · exact .inr (.inl hinterrupted)
    · exact .inl hobserved
    · exact .inr (.inr hcancelled)
  · obtain ⟨fresh, hfirst, hcurrent⟩ := hs.current
    rw [hloop] at hfirst
    obtain ⟨reading, hreading, hle⟩ := hcurrent hfirst.1 hwake
    exact ⟨reading, hreading, .inl hle⟩
  · refine hs.reread_run id (le_refl _) (.inr ?_) later hmany
    exact hs.within.mono (Nat.le_add_right _ _)

end Simmis.Workers.Wait
