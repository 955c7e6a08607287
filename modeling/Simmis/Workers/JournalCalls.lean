import Simmis.Workers.Journal
import Simmis.Library.Table
import Mathlib.Data.List.Sort

/-!
# Racing calls of a journal

Any number of callers work on the run directories of one worker. A caller reads the records of a
directory one after the other and publishes its own; it can crash between any two steps.
-/

namespace Simmis.Workers.Journal

open List Option Runs Function Op Nat Phase

/-- How far a call of `prepare`, `admission`, `stopped` or `acknowledge` is. -/
inductive Progress
  | reading (todo : List Phase) (seen : Records)
  | publishing (value : Json)
  /-- The staged file is written and synced. -/
  | linking (value : Json)
  | returned (value : Json)
  | raised
  | crashed

structure Call where
  run : String
  op : Op
  progress : Progress

/-- What `unresolved` reports of a run, with its last phase. -/
abbrev Pending := List (String × Option Phase)

/-- How far a call of `unresolved` is. -/
inductive Scanning
  | scanning (rest : List String) (pending : Pending)
  | inspecting (run : String) (todo : List Phase) (seen : Records) (rest : List String)
    (pending : Pending)
  | reported (pending : Pending)
  | raised
  | crashed

structure Scan where
  worker : String
  progress : Scanning

/-- A run directory, and its ticket if `claim.json` can be read and is valid. -/
structure Directory where
  run : String
  isPrivate : Bool
  ticket : Option Json

structure World where
  directories : Table Directory.run
  records : String → Records
  calls : List Call
  scans : List Scan

/-- Directories without records. -/
def World.init (directories : Table Directory.run) : World where
  directories
  records _ _ := none
  calls := []
  scans := []

inductive Event
  | begin (run : String) (op : Op)
  | step (call : ℕ)
  | crash (call : ℕ)
  /-- A call of `unresolved`; the system chooses the order of the directory entries. -/
  | beginScan (worker : String) (order : List String)
  | stepScan (scan : ℕ)
  | crashScan (scan : ℕ)

variable (checks : Checks)

/-- The next step of a call in its directory. -/
def Op.next (op : Op) (stored : Records) : Progress → Progress × Records
  | .reading (phase :: todo) seen =>
    let seen := Function.update seen phase (stored phase)
    match todo with
    | [] =>
      match op.proposal checks seen with
      | some value => (.publishing value, stored)
      | none => (.raised, stored)
    | _ :: _ => (.reading todo seen, stored)
  | .reading [] _ => (.raised, stored)
  | .publishing value =>
    match stored op.phase with
    | some existing => (if existing = value then .returned value else .raised, stored)
    | none => (.linking value, stored)
  | .linking value =>
    match stored op.phase with
    | some existing => (if existing = value then .returned value else .raised, stored)
    | none => (.returned value, Function.update stored op.phase (some value))
  | progress => (progress, stored)

/-- `claim.json` names this worker and this run. -/
def Directory.claimed (directory : Directory) (worker : String) : Bool :=
  directory.isPrivate && checks.canonicalUuid directory.run &&
    directory.ticket.any fun ticket ↦ checks.ticket ticket &&
      ticket.get? "worker" = some (.str worker) && ticket.get? "run" = some (.str directory.run)

/-- The launch record, if there is one, has the owner of the ticket. -/
def Directory.owns (directory : Directory) (seen : Records) : Bool :=
  (seen .launch).all fun launch ↦
    launch.get? "owner" = directory.ticket.bind (owner checks)

/-- The last phase that is there. -/
def lastPhase (seen : Records) : Option Phase :=
  Phase.all.reverse.find? fun phase ↦ (seen phase).isSome

/-- The next step of `unresolved`. -/
def World.nextScan (w : World) (scan : Scan) : Scanning :=
  match scan.progress with
  | .scanning [] pending =>
    .reported (pending.insertionSort fun a b ↦ a.1 ≤ b.1)
  | .scanning (run :: rest) pending =>
    if (w.directories.get run).any (·.claimed checks scan.worker) then
      .inspecting run Phase.all (fun _ ↦ none) rest pending
    else .raised
  | .inspecting run (phase :: todo) seen rest pending =>
    let seen := Function.update seen phase (w.records run phase)
    match todo with
    | [] =>
      if chain checks seen && (w.directories.get run).any (·.owns checks seen) then
        .scanning rest
          (if seen .acknowledged = none then pending ++ [(run, lastPhase seen)] else pending)
      else .raised
    | _ :: _ => .inspecting run todo seen rest pending
  | .inspecting _ [] _ _ _ => .raised
  | progress => progress

def Progress.isOpen : Progress → Bool
  | reading .. | publishing _ | linking _ => true
  | returned _ | raised | crashed => false

def Scanning.isOpen : Scanning → Bool
  | scanning .. | inspecting .. => true
  | reported _ | raised | crashed => false

def World.step (w : World) : Event → World
  | .begin run op =>
    let progress := if op.admissible checks && (w.directories.get run).any (·.isPrivate) then
      .reading Phase.all fun _ ↦ none else .raised
    { w with calls := w.calls ++ [⟨run, op, progress⟩] }
  | .step i =>
    match w.calls[i]? with
    | some call =>
      let (progress, stored) := call.op.next checks (w.records call.run) call.progress
      { w with
        records := Function.update w.records call.run stored
        calls := w.calls.set i { call with progress } }
    | none => w
  | .crash i =>
    match w.calls[i]? with
    | some call =>
      if call.progress.isOpen then
        { w with calls := w.calls.set i { call with progress := .crashed } }
      else w
    | none => w
  | .beginScan worker order =>
    if order.Perm (w.directories.rows.map Directory.run) then
      let progress := if checks.canonicalUuid worker then .scanning order [] else .raised
      { w with scans := w.scans ++ [⟨worker, progress⟩] }
    else w
  | .stepScan i =>
    match w.scans[i]? with
    | some scan =>
      { w with scans := w.scans.set i { scan with progress := w.nextScan checks scan } }
    | none => w
  | .crashScan i =>
    match w.scans[i]? with
    | some scan =>
      if scan.progress.isOpen then
        { w with scans := w.scans.set i { scan with progress := .crashed } }
      else w
    | none => w

def reached (directories : Table Directory.run) (events : List Event) : World :=
  run (World.step checks) (.init directories) events

variable {checks} {stored seen : Records} {op : Op} {progress : Progress}

/-- What a call knows of its directory. -/
def CallOk (checks : Checks) (op : Op) (stored : Records) : Progress → Prop
  | .reading _ seen => Extends seen stored
  | .publishing value | .linking value =>
    ∃ seen, Extends seen stored ∧ op.proposal checks seen = some value
  | .returned value => stored op.phase = some value ∧ op.record checks stored = some value
  | .raised | .crashed => True

variable {value : Json}

/-- A launch record has the unit name that its call takes again. -/
theorem record_stored (hrecord : op.record checks seen = some value)
    (hseen : Extends seen stored) (hstored : stored op.phase = some value) :
    op.record checks stored = some value := by
  cases op with
  | prepare ticket endpoint frozen config profile fresh =>
    cases hlaunch : seen .launch with
    | some launch =>
      rw [← hrecord]
      exact record_congr (fun _ ↦ (hseen _ _ hlaunch).trans hlaunch.symm) fun p hp ↦ nomatch hp
    | none =>
      have hfirst : stored .launch = some value := hstored
      obtain ⟨owner, howner, hvalue⟩ := map_eq_some_iff.mp hrecord
      rw [hlaunch] at hvalue
      refine map_eq_some_iff.mpr ⟨owner, howner, ?_⟩
      have hunit : value.get? "unit" = some fresh := by
        rw [← hvalue]
        cases profile <;> rfl
      rw [hfirst, bind_some, hunit]
      exact hvalue
  | admission | stopped | acknowledge =>
    rw [← hrecord]
    refine record_congr (fun h ↦ nomatch h) fun p hp ↦ ?_
    exact hseen.eq_of_isSome (record_prior hrecord hp)

theorem extends_read (h : Extends seen stored) (phase : Phase) :
    Extends (update seen phase (stored phase)) stored := by
  intro p value hvalue
  rw [update_apply] at hvalue
  split at hvalue
  · next heq => exact heq ▸ hvalue
  · exact h p value hvalue

variable {new : Records}

theorem CallOk.mono (hnew : Extends stored new)
    (h : CallOk checks op stored progress) : CallOk checks op new progress := by
  cases progress with
  | reading todo seen => exact Extends.trans h hnew
  | publishing value | linking value =>
    obtain ⟨seen, hseen, hvalue⟩ := h
    exact ⟨seen, hseen.trans hnew, hvalue⟩
  | returned value =>
    exact ⟨hnew _ _ h.1, record_stored h.2 hnew (hnew _ _ h.1)⟩
  | raised | crashed => trivial

/-- What a step of a call does to its directory. -/
inductive Effect (op : Op) (stored : Records) : Progress × Records → Prop
  | unchanged (progress : Progress) : Effect op stored (progress, stored)
  | published (value : Json) (hnone : stored op.phase = none) :
    Effect op stored (.returned value, Function.update stored op.phase (some value))

theorem next_effect (checks : Checks) (op : Op) (stored : Records) (progress : Progress) :
    Effect op stored (op.next checks stored progress) := by
  unfold Op.next
  split
  · dsimp only
    split
    · split
      · exact .unchanged _
      · exact .unchanged _
    · exact .unchanged _
  · exact .unchanged _
  · split <;> exact .unchanged _
  · split
    · exact .unchanged _
    · next hnone => exact .published _ hnone
  · exact .unchanged _

/-- A step keeps the chain sound and what the call knows of it. -/
theorem next_ok (hsound : Sound checks stored) (h : CallOk checks op stored progress) :
    Sound checks (op.next checks stored progress).2 ∧
      CallOk checks op (op.next checks stored progress).2 (op.next checks stored progress).1 := by
  have hread {value : Json} (hvalue : ∃ seen, Extends seen stored ∧
      op.proposal checks seen = some value) {existing : Json}
      (hexisting : stored op.phase = some existing) :
      CallOk checks op stored (if existing = value then .returned value else .raised) := by
    obtain ⟨seen, hseen, hproposal⟩ := hvalue
    split
    · next heq =>
      subst heq
      exact ⟨hexisting, record_stored (proposal_some hproposal).2.1 hseen hexisting⟩
    · trivial
  unfold Op.next
  split
  · next phase todo seen =>
    have hseen := extends_read h phase
    dsimp only
    split
    · split
      · next value hvalue => exact ⟨hsound, _, hseen, hvalue⟩
      · exact ⟨hsound, trivial⟩
    · exact ⟨hsound, hseen⟩
  · exact ⟨hsound, trivial⟩
  · next value =>
    split
    · next existing hexisting => exact ⟨hsound, hread h hexisting⟩
    · exact ⟨hsound, h⟩
  · next value =>
    split
    · next existing hexisting => exact ⟨hsound, hread h hexisting⟩
    · next hnone =>
      obtain ⟨seen, hseen, hvalue⟩ := h
      have hpublished : update stored op.phase (some value) op.phase = some value := by
        rw [phase_update, if_pos rfl]
      refine ⟨hsound.publish hseen hnone hvalue, hpublished, ?_⟩
      exact record_stored (proposal_some hvalue).2.1 (hseen.trans (extends_publish hnone))
        hpublished
  · exact ⟨hsound, h⟩

/-- A phase that was missing at the start was overtaken by a later one: two records or more have been
published since. -/
def Overtaken (start now : Records) : Prop :=
  ∃ p q, p.position < q.position ∧ start p = none ∧ (now q).isSome

variable {start : Records}

theorem Overtaken.mono (h : Overtaken start stored)
    (hnew : Extends stored new) : Overtaken start new := by
  obtain ⟨p, q, hpq, hp, hq⟩ := h
  exact ⟨p, q, hpq, hp, (hnew q).isSome hq⟩

/-- How far a call is whose record `value` was stored when it started. -/
def RepeatOk (start stored : Records) (value : Json) : Progress → Prop
  | .reading todo seen => todo ≠ [] ∧ ∀ p, p ∉ todo → Kept (start p) (seen p)
  | .publishing proposed => proposed = value
  | .linking _ => False
  | .raised => Overtaken start stored
  | .returned _ | .crashed => True

theorem RepeatOk.mono (hnew : Extends stored new)
    (h : RepeatOk start stored value progress) : RepeatOk start new value progress := by
  cases progress with
  | reading | publishing | linking | returned | crashed => exact h
  | raised => exact Overtaken.mono h hnew

/-- A refused chain was overtaken while it was read. -/
theorem overtaken_of_refused (hsound : Sound checks stored)
    (hstart : Extends start seen) (hseen : Extends seen stored) (h : ¬ chain checks seen) :
    Overtaken start stored := by
  by_contra hnot
  refine h (hsound.chain_seen hseen fun p q hpq hq ↦ ?_)
  by_contra hp
  rw [Bool.not_eq_true, isSome_eq_false_iff, isNone_iff_eq_none] at hp
  refine hnot ⟨p, q, hpq, ?_, (hseen q).isSome hq⟩
  cases hold : start p with
  | none => rfl
  | some value => exact nomatch hp.symm.trans (hstart p value hold)

theorem next_repeat (hsound : Sound checks stored)
    (hok : CallOk checks op stored progress) (hstart : Sound checks start)
    (hold : Extends start stored) (hvalue : start op.phase = some value)
    (hrecord : op.record checks start = some value) (h : RepeatOk start stored value progress) :
    RepeatOk start stored value (op.next checks stored progress).1 := by
  have hstored := hold _ _ hvalue
  unfold Op.next
  split
  · next phase todo seen =>
    obtain ⟨-, hread⟩ := h
    have hkept : ∀ p, p ∉ todo → Kept (start p) (update seen phase (stored phase) p) := by
      intro p hp
      rw [update_apply]
      split
      · next heq => exact heq ▸ hold p
      · next hne => exact hread p fun hin ↦ (mem_cons.mp hin).elim hne hp
    dsimp only
    split
    · have hall : Extends start (update seen phase (stored phase)) :=
        fun p ↦ hkept p not_mem_nil
      by_cases hchain : chain checks (update seen phase (stored phase))
      · rw [proposal_stored hstart hall hvalue hrecord hchain]
        rfl
      · rw [proposal, if_neg hchain]
        exact overtaken_of_refused hsound hall (extends_read hok phase) hchain
    · exact ⟨cons_ne_nil _ _, hkept⟩
  · exact absurd rfl h.1
  · rw [hstored]
    dsimp only
    rw [if_pos (Eq.symm h)]
    trivial
  · exact h.elim
  · exact h

/-- The steps that a call takes at most. -/
def Progress.remaining : Progress → ℕ
  | reading todo _ => todo.length + 2
  | publishing _ => 2
  | linking _ => 1
  | returned _ | raised | crashed => 0

theorem next_remaining (checks : Checks) (op : Op) (stored : Records) (progress : Progress) :
    (op.next checks stored progress).1.remaining ≤ progress.remaining - 1 := by
  have hread {value existing : Json} :
      (if existing = value then Progress.returned value else .raised).remaining = 0 := by
    split <;> rfl
  cases progress with
  | reading todo seen =>
    cases todo with
    | nil => simp [Op.next, Progress.remaining]
    | cons phase todo =>
      cases todo with
      | nil =>
        simp only [Op.next]
        split <;> simp [Progress.remaining]
      | cons => simp [Op.next, Progress.remaining]
  | publishing value | linking value =>
    simp only [Op.next]
    split
    · rw [hread]
      exact zero_le _
    · simp [Progress.remaining]
  | returned | raised | crashed => exact le_refl 0

/-- Every chain is sound, and every call knows what is stored. -/
structure WorldOk (checks : Checks) (w : World) : Prop where
  sound : ∀ run, Sound checks (w.records run)
  calls : ∀ call ∈ w.calls, CallOk checks call.op (w.records call.run) call.progress

/-- What an event does to the records: a call that returns may have published its own. -/
def StepEffect (w w' : World) : Prop :=
  w'.records = w.records ∨ ∃ (i : ℕ) (call : Call) (value : Json), w.calls[i]? = some call ∧
    w.records call.run call.op.phase = none ∧
    w'.calls[i]? = some { call with progress := .returned value } ∧
    w'.records = Function.update w.records call.run
      (Function.update (w.records call.run) call.op.phase (some value))

variable {w : World}

variable {i : ℕ}

theorem step_call {call : Call} (h : w.calls[i]? = some call) : w.step checks (.step i) = { w with
        records := update w.records call.run
          (call.op.next checks (w.records call.run) call.progress).2
        calls := w.calls.set i { call with
          progress := (call.op.next checks (w.records call.run) call.progress).1 } } := by
  simp only [World.step, h]

theorem step_effect (checks : Checks) (w : World) (event : Event) :
    StepEffect w (w.step checks event) := by
  cases event with
  | begin | beginScan | stepScan | crashScan | crash =>
    left
    simp only [World.step]
    repeat' split
    all_goals rfl
  | step i =>
    cases h : w.calls[i]? with
    | none =>
      left
      simp only [World.step, h]
    | some call =>
      rw [step_call h]
      have heffect := next_effect checks call.op (w.records call.run) call.progress
      generalize call.op.next checks (w.records call.run) call.progress = result at heffect
      cases heffect with
      | unchanged progress =>
        left
        exact update_eq_self _ _
      | published value hnone =>
        right
        refine ⟨i, call, value, h, hnone, ?_, rfl⟩
        obtain ⟨hlt, -⟩ := List.getElem?_eq_some_iff.mp h
        exact getElem?_set_self hlt

theorem step_extends (checks : Checks) (w : World) (event : Event) (run : String) :
    Extends (w.records run) ((w.step checks event).records run) := by
  rcases step_effect checks w event with h | ⟨i, call, value, -, hnone, -, h⟩
  · rw [h]
    exact .refl _
  · rw [h, update_apply]
    split
    · next heq =>
      subst heq
      exact extends_publish hnone
    · exact .refl _

theorem step_ok (h : WorldOk checks w) (event : Event) : WorldOk checks (w.step checks event) := by
  have hsame {calls : List Call} (hcalls : ∀ call ∈ calls, CallOk checks call.op
      (w.records call.run) call.progress) (directories : Table Directory.run)
      (scans : List Scan) : WorldOk checks ⟨directories, w.records, calls, scans⟩ :=
    ⟨h.sound, hcalls⟩
  have hset (i : ℕ) (call : Call) (hcall : CallOk checks call.op (w.records call.run)
      call.progress) : ∀ c ∈ w.calls.set i call, CallOk checks c.op (w.records c.run)
      c.progress := by
    intro c hc
    rcases mem_or_eq_of_mem_set hc with hc | rfl
    · exact h.calls c hc
    · exact hcall
  cases event with
  | begin run op =>
    refine hsame (fun call hcall ↦ ?_) _ _
    rcases mem_append.mp hcall with hcall | hcall
    · exact h.calls call hcall
    · obtain rfl := mem_singleton.mp hcall
      split
      · rintro _ _ ⟨⟩
      · trivial
  | step i =>
    cases hi : w.calls[i]? with
    | none =>
      simp only [World.step, hi]
      exact h
    | some call =>
      have hmem := mem_of_getElem? hi
      obtain ⟨hsound, hcall⟩ := next_ok (h.sound call.run) (h.calls call hmem)
      have hextends := step_extends checks w (.step i)
      rw [step_call hi] at hextends ⊢
      constructor
      · intro run
        dsimp only
        rw [update_apply]
        split
        · exact hsound
        · exact h.sound run
      · intro c hc
        rcases mem_or_eq_of_mem_set hc with hc | rfl
        · exact (h.calls c hc).mono (hextends c.run)
        · dsimp only
          rw [update_self]
          exact hcall
  | crash i =>
    simp only [World.step]
    split
    · next call hi =>
      split
      · exact hsame (hset i { call with progress := .crashed } trivial) _ _
      · exact h
    · exact h
  | beginScan | stepScan | crashScan =>
    simp only [World.step]
    repeat' split
    all_goals exact hsame h.calls _ _

theorem reached_ok (checks : Checks) (directories : Table Directory.run) (events : List Event) :
    WorldOk checks (reached checks directories events) :=
  run_preserves (WorldOk checks) (fun _ event h ↦ step_ok h event)
    ⟨fun _ ↦ sound_empty, fun _ h ↦ absurd h not_mem_nil⟩ events

def Event.isStep (i : ℕ) : Event → Bool
  | .step j => j = i
  | _ => false

variable {u : String}

/-- A call stays at its index and is moved by its own steps. -/
theorem call_step (h : w.calls[i]? = some ⟨u, op, progress⟩)
    (event : Event) : ∃ p, (w.step checks event).calls[i]? = some ⟨u, op, p⟩ ∧
      if event.isStep i then p = (op.next checks (w.records u) progress).1
      else p = progress ∨ p = .crashed := by
  obtain ⟨hlt, -⟩ := List.getElem?_eq_some_iff.mp h
  cases event with
  | begin run op' =>
    refine ⟨progress, ?_, .inl rfl⟩
    exact (getElem?_append_left hlt).trans h
  | step j =>
    by_cases hj : j = i
    · subst hj
      refine ⟨(op.next checks (w.records u) progress).1, ?_, ?_⟩
      · rw [step_call h]
        exact getElem?_set_self hlt
      · simp [Event.isStep]
    · refine ⟨progress, ?_, ?_⟩
      · cases hc : w.calls[j]? with
        | none => simpa only [World.step, hc] using h
        | some call =>
          rw [step_call hc]
          exact (getElem?_set_ne hj).trans h
      · simp [Event.isStep, hj]
  | crash j =>
    by_cases hj : j = i
    · subst hj
      simp only [World.step, h]
      split
      · exact ⟨.crashed, getElem?_set_self hlt, .inr rfl⟩
      · exact ⟨progress, h, .inl rfl⟩
    · refine ⟨progress, ?_, .inl rfl⟩
      simp only [World.step]
      split
      · split
        · exact (getElem?_set_ne hj).trans h
        · exact h
      · exact h
  | beginScan | stepScan | crashScan =>
    refine ⟨progress, ?_, .inl rfl⟩
    simp only [World.step]
    repeat' split
    all_goals exact h

/-- A call and what it may still do, since it found its directory as `start`. -/
structure Tracked (checks : Checks) (start : Records) (accepted : Prop) (u : String) (op : Op)
    (i bound : ℕ) (w : World) : Prop where
  ok : WorldOk checks w
  kept : Extends start (w.records u)
  call : ∃ p, w.calls[i]? = some ⟨u, op, p⟩ ∧ p.remaining ≤ bound ∧
    ∀ value, accepted → start op.phase = some value → op.record checks start = some value →
      RepeatOk start (w.records u) value p

theorem Tracked.step {accepted : Prop} {bound : ℕ}
    (hstart : Sound checks start) (h : Tracked checks start accepted u op i bound w)
    (event : Event) : Tracked checks start accepted u op i
      (if event.isStep i then bound - 1 else bound) (w.step checks event) := by
  have hextends := step_extends checks w event u
  obtain ⟨p, hp, hbound, hrepeat⟩ := h.call
  have hcall := h.ok.calls _ (mem_of_getElem? hp)
  obtain ⟨p', hp', hmove⟩ := @call_step checks _ _ _ _ _ hp event
  refine ⟨step_ok h.ok event, h.kept.trans hextends, p', hp', ?_, ?_⟩
  · split at hmove
    · next hstep =>
      rw [if_pos hstep, hmove]
      exact (next_remaining checks op _ p).trans (Nat.sub_le_sub_right hbound 1)
    · next hstep =>
      rw [if_neg hstep]
      rcases hmove with rfl | rfl
      · exact hbound
      · exact zero_le _
  · intro value haccepted hvalue hrecord
    have hold := hrepeat value haccepted hvalue hrecord
    refine RepeatOk.mono hextends ?_
    split at hmove
    · rw [hmove]
      exact next_repeat (h.ok.sound u) hcall hstart h.kept hvalue hrecord hold
    · rcases hmove with rfl | rfl
      · exact hold
      · trivial

theorem Tracked.run {accepted : Prop} {bound : ℕ}
    (hstart : Sound checks start) (h : Tracked checks start accepted u op i bound w)
    (events : List Event) : Tracked checks start accepted u op i
      (bound - events.countP (Event.isStep i)) (run (World.step checks) w events) := by
  induction events generalizing w bound with
  | nil => exact h
  | cons event events ih =>
    have hnext := ih (h.step hstart event)
    rw [countP_cons]
    split at hnext
    · next hstep =>
      rw [if_pos hstep, Nat.add_comm, ← Nat.sub_sub]
      exact hnext
    · next hstep =>
      rw [if_neg hstep]
      exact hnext

/-- The checks of a call before it opens the directory, and those of the directory. -/
def Accepts (checks : Checks) (w : World) (u : String) (op : Op) : Prop :=
  op.admissible checks ∧ (w.directories.get u).any (·.isPrivate)

/-- A call that began as call `i` in `start`, now. -/
structure CallContract (checks : Checks) (start : World) (u : String) (op : Op) (i steps : ℕ)
    (now : World) : Prop where
  /-- It returns its own record, which is stored on the one before. -/
  returned : ∀ value, now.calls[i]? = some ⟨u, op, .returned value⟩ →
    now.records u op.phase = some value ∧ op.record checks (now.records u) = some value
  /-- If its record was stored at the start, it raises only if overtaken. -/
  raised : now.calls[i]? = some ⟨u, op, .raised⟩ → Accepts checks start u op →
    ∀ value, start.records u op.phase = some value →
      op.record checks (start.records u) = some value →
      Overtaken (start.records u) (now.records u)
  /-- With other content than what was stored at the start it does not return. -/
  other : ∀ stored, start.records u op.phase = some stored →
    op.record checks (start.records u) ≠ some stored →
    ∀ value, now.calls[i]? ≠ some ⟨u, op, .returned value⟩
  /-- Out of order it does not return. -/
  early : ∀ p, op.phase.prior = some p → now.records u p = none →
    ∀ value, now.calls[i]? ≠ some ⟨u, op, .returned value⟩
  /-- It ends. -/
  ends : 6 ≤ steps → (∃ value, now.calls[i]? = some ⟨u, op, .returned value⟩) ∨
    now.calls[i]? = some ⟨u, op, .raised⟩ ∨ now.calls[i]? = some ⟨u, op, .crashed⟩

theorem begin_tracked {start : World} (hok : WorldOk checks start) (u : String) (op : Op) :
    Tracked checks (start.records u) (Accepts checks start u op) u op start.calls.length 6
      (start.step checks (.begin u op)) := by
  refine ⟨step_ok hok _, step_extends checks start (.begin u op) u, _,
    getElem?_concat_length, ?_, ?_⟩
  · split
    · simp [Progress.remaining, Phase.all]
    · simp [Progress.remaining]
  · intro value haccepted _ _
    have hopen : (op.admissible checks && (start.directories.get u).any (·.isPrivate)) := by
      rw [Bool.and_eq_true]
      exact haccepted
    rw [if_pos hopen]
    refine ⟨cons_ne_nil _ _, fun p hp ↦ ?_⟩
    exact absurd (by cases p <;> simp [Phase.all]) hp

theorem call_contract {start : World} (hok : WorldOk checks start) (u : String) (op : Op)
    (late : List Event) : CallContract checks start u op start.calls.length
      (late.countP (Event.isStep start.calls.length))
      (run (World.step checks) start (.begin u op :: late)) := by
  have htracked := (begin_tracked hok u op).run (hok.sound u) late
  rw [← run_cons (World.step checks) start (.begin u op) late] at htracked
  obtain ⟨p, hp, hbound, hrepeat⟩ := htracked.call
  have hcall := htracked.ok.calls _ (mem_of_getElem? hp)
  have hreturned : ∀ value, (run (World.step checks) start (.begin u op :: late)).calls[
      start.calls.length]? = some ⟨u, op, .returned value⟩ →
      CallOk checks op ((run (World.step checks) start (.begin u op :: late)).records u)
        (.returned value) := by
    intro value hvalue
    rw [hp] at hvalue
    obtain rfl := (Call.mk.inj (some.inj hvalue)).2.2
    exact hcall
  refine ⟨hreturned, ?_, ?_, ?_, ?_⟩
  · intro hraised haccepted value hvalue hrecord
    rw [hp] at hraised
    obtain rfl := (Call.mk.inj (some.inj hraised)).2.2
    exact hrepeat value haccepted hvalue hrecord
  · intro stored hstored hother value hvalue
    obtain ⟨hnow, hrecord⟩ := hreturned value hvalue
    have hkept := htracked.kept _ _ hstored
    obtain rfl := some.inj (hkept.symm.trans hnow)
    have hpriors {p : Phase} (hp : op.phase.prior = some p) : (start.records u p).isSome :=
      (hok.sound u).earlier _ _ (prior_position hp) (by rw [hstored]; rfl)
    refine hother (hrecord ▸ record_congr (fun hlaunch ↦ ?_) fun p hp ↦ ?_)
    · rw [← hlaunch, hstored, hnow]
    · exact (htracked.kept.eq_of_isSome (hpriors hp)).symm
  · intro p hprior hnone value hvalue
    have hsome := record_prior (hreturned value hvalue).2 hprior
    rw [hnone] at hsome
    exact nomatch hsome
  · intro hsteps
    have hnone : p.remaining = 0 := by omega
    rw [hp]
    cases p with
    | reading | publishing | linking => simp [Progress.remaining] at hnone
    | returned value => exact .inl ⟨value, rfl⟩
    | raised => exact .inr (.inl rfl)
    | crashed => exact .inr (.inr rfl)

/-- What a call comes to that nobody interrupts: whether it returns, and the records. -/
def Op.alone (checks : Checks) (op : Op) (stored : Records) : Progress × Records :=
  match op.proposal checks stored with
  | some value =>
    match stored op.phase with
    | some existing => (if existing = value then .returned value else .raised, stored)
    | none => (.returned value, Function.update stored op.phase (some value))
  | none => (.raised, stored)

def Op.steps (checks : Checks) (op : Op) : ℕ → Progress × Records → Progress × Records
  | 0, state => state
  | n + 1, state => steps checks op n (op.next checks state.2 state.1)

theorem steps_alone (checks : Checks) (op : Op) (stored : Records) :
    op.steps checks 6 (.reading all fun _ ↦ none, stored) = op.alone checks stored := by
  have hall : update (update (update (update
      (fun _ ↦ none) launch (stored .launch)) .admitted (stored .admitted)) .stopped
      (stored .stopped)) .acknowledged (stored .acknowledged) = stored := by
    funext p
    cases p <;> rfl
  simp only [Op.steps, Phase.all, Op.next, Op.alone, hall]
  cases op.proposal checks stored with
  | none => rfl
  | some value =>
    cases hp : stored op.phase with
    | none => simp only [hp]
    | some existing =>
      by_cases heq : existing = value
      · simp only [hp, if_pos heq]
      · simp only [hp, if_neg heq]

theorem run_steps (checks : Checks) (n : ℕ) {call : Call} (h : w.calls[i]? = some call) :
    run (World.step checks) w (List.replicate n (.step i)) = { w with
        records := update w.records call.run
          (call.op.steps checks n (call.progress, w.records call.run)).2
        calls := w.calls.set i { call with
          progress := (call.op.steps checks n (call.progress, w.records call.run)).1 } } := by
  obtain ⟨hlt, hget⟩ := List.getElem?_eq_some_iff.mp h
  induction n generalizing w call with
  | zero =>
    have hset : w.calls.set i call = w.calls := by
      rw [← hget]
      exact set_getElem_self hlt
    simp only [replicate_zero, run_nil, steps, update_eq_self]
    rw [hset]
  | succ n ih =>
    rw [replicate_succ, run_cons, step_call h]
    rw [ih (getElem?_set_self hlt) (by simpa using hlt) (by simp)]
    simp only [steps, update_self, update_idem, set_set]

/-- Six steps of a call in a row are one step of its directory. -/
theorem run_alone (w : World) {op : Op} (haccepts : Accepts checks w u op) :
    run (World.step checks) w (.begin u op :: List.replicate 6 (.step w.calls.length)) = { w with
        records := update w.records u (op.alone checks (w.records u)).2
        calls := w.calls ++ [⟨u, op, (op.alone checks (w.records u)).1⟩] } := by
  have hopen : (op.admissible checks && (w.directories.get u).any (·.isPrivate)) := by
    rw [Bool.and_eq_true]
    exact haccepts
  have hbegin : w.step checks (.begin u op) =
      { w with calls := w.calls ++ [⟨u, op, .reading all fun _ ↦ none⟩] } := by
    simp only [World.step, if_pos hopen]
  rw [run_cons, hbegin, run_steps checks 6 (getElem?_concat_length)]
  simp only [steps_alone]
  rw [set_append_right _ _ (Nat.le_refl _), Nat.sub_self]
  rfl

end Simmis.Workers.Journal
