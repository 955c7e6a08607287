import Simmis.Library.Checks
import Simmis.Library.Runs
import Simmis.Workers.Assignments

/-!
# Exclusive and irrevocable ownership of a worker

Over every run, a worker holds at most one assignment that has a lease and no shutdown receipt; the
fields that record an ownership are never changed, a withdrawn assignment is never leased, and an
output is recorded only while the lease is live.
-/

namespace Simmis.Workers

open List Option Runs Except Db Table

variable {U : Type} [DecidableEq U]

/-- The ownership fields that each state allows. -/
def Assignment.Consistent (row : Assignment U) : Prop :=
  match row.state with
  | .prepared | .queued =>
    row.lease = none ∧ row.nonce = none ∧ row.secretHash = none ∧ row.cancelAt = none ∧
      row.stopAckAt = none ∧ row.outputId = none ∧ row.outputRef = none
  | .claimed =>
    row.lease.isSome ∧ row.cancelAt = none ∧ row.stopAckAt = none ∧ row.outputId = none ∧
      row.outputRef = none
  | .quarantined =>
    row.lease.isSome ∧ row.cancelAt.isSome ∧ row.stopAckAt = none ∧ row.outputId = none ∧
      row.outputRef = none
  | .withdrawn =>
    row.lease = none ∧ row.secretHash = none ∧ row.cancelAt.isSome ∧ row.stopAckAt.isSome ∧
      row.outputId = none ∧ row.outputRef = none
  | .stopped =>
    row.lease.isSome ∧ row.stopAckAt.isSome ∧ row.outputId = none ∧ row.outputRef = none
  | .completed =>
    row.lease.isSome ∧ row.stopAckAt.isSome ∧ row.outputId.isSome ∧ row.outputRef.isSome

def Db.Consistent (db : Db U) : Prop := ∀ id row, db.assignments.get id = some row → row.Consistent

omit [DecidableEq U] in
theorem Assignment.Consistent.state_of_lease {row : Assignment U} (h : row.Consistent)
    (hlease : row.lease.isSome) : row.state ≠ .prepared ∧ row.state ≠ .queued := by
  constructor <;> intro hstate <;> simp [Assignment.Consistent, hstate] at h <;>
    simp [h.1] at hlease

/-- How a transaction moves an existing assignment, with the guards it has checked. -/
inductive Move (db : Db U) (row : Assignment U) : Step U → Assignment U → Prop
  | queue {id digest now permitted} (hstate : row.state = .prepared) :
    Move db row (.queuePrepared id digest now permitted)
      { row with state := .queued, queuedAt := some now }
  | claim {worker generation nonce hash lease now ttl permitted} (hstate : row.state = .queued)
    (hworker : row.worker = worker) (hfree : unresolved db worker = false) :
    Move db row (.claim row.id worker generation nonce hash lease now ttl permitted)
      { row with
        state := .claimed, nonce := some nonce, secretHash := some hash, lease := some lease,
        heartbeatAt := some now, expiresAt := some (now + ttl) }
  | quarantine {step now} (hprepared : row.state ≠ .prepared) (hqueued : row.state ≠ .queued)
    (hrunning : row.stopAckAt = none ∨ row.state = .claimed) :
    Move db row step
      { row with state := .quarantined, cancelAt := some (row.cancelAt.getD now) }
  | withdraw {step now} (hcancel : row.cancelAt = none)
    (hstate : row.state = .prepared ∨ row.state = .queued) :
    Move db row step
      { row with state := .withdrawn, cancelAt := some now, stopAckAt := some now }
  | cancelStopped {step now} (hcancel : row.cancelAt = none) (hstopped : row.stopAckAt.isSome) :
    Move db row step { row with cancelAt := some now }
  | renew {id lease hash now ttl permitted} (hlease : row.lease.isSome)
    (hcancel : row.cancelAt = none) (hrunning : row.stopAckAt = none) :
    Move db row (.heartbeat id lease hash now ttl permitted)
      { row with heartbeatAt := some now, expiresAt := some (now + ttl) }
  | stop {id lease hash now} (hlease : row.lease.isSome) (hrunning : row.stopAckAt = none) :
    Move db row (.stopped id lease hash now)
      { row with state := .stopped, stopAckAt := some now }
  | complete {id lease hash digest ref now permitted worker} (houtput : row.outputId = none)
    (hstate : row.state = .claimed) (hcancel : row.cancelAt = none)
    (hexpired : row.expired now = false) (hworker : db.workers.get row.worker = some worker)
    (hrevoked : worker.revokedAt = none) :
    Move db row (.complete id lease hash digest ref now permitted)
      { row with
        state := .completed, outputId := some digest, outputRef := some ref,
        stopAckAt := some now }

/-- What a transaction returns: nothing, an enrollment, a new assignment, or one move of one. -/
inductive Outcome (db : Db U) (step : Step U) : Tx U → Prop
  | nothing : Outcome db step []
  | worker (row : Enrollment U) : Outcome db step [.worker row]
  | revoke (id : U) (now : Time) : Outcome db step [.revoke id now]
  | insert (intent : Intent U) (state : State) (queuedAt : Option Time) (ref : U)
    (hnew : db.assignments.get intent.id = none)
    (hstate : state = .prepared ∨ state = .queued) :
    Outcome db step [.insert (intent.row state queuedAt ref)]
  | tombstone (intent : Intent U) (ref : U) (now queuedAt : Time)
    (hnew : db.assignments.get intent.id = none) :
    Outcome db step [.insert { intent.row .withdrawn (some queuedAt) ref with
      cancelAt := some now, stopAckAt := some now }]
  | update (id : U) (row : Assignment U) (fields : Assignment U → Assignment U)
    (hrow : db.assignments.get id = some row) (hid : ∀ r, (fields r).id = r.id)
    (hmove : Move db row step (fields row)) : Outcome db step [.update id fields]

variable {db : Db U} {permitted : Permitted U}

theorem activeEnrollment_ok {id room : U} {generation : ℕ} {worker : Enrollment U}
    (h : activeEnrollment db id generation room permitted = .ok worker) :
    db.workers.get id = some worker ∧ worker.revokedAt = none := by
  unfold activeEnrollment at h
  split at h
  · simp at h
  · next hget =>
    split at h
    · next hactive =>
      obtain rfl := ok.inj h
      exact ⟨hget, hactive.1⟩
    · simp at h

variable {hash : String}

theorem owned_ok {id lease : U} {row : Assignment U} (h : owned db id lease hash = .ok row) :
    db.assignments.get id = some row ∧ row.lease = some lease ∧ row.secretHash = some hash := by
  unfold owned at h
  split at h
  · simp at h
  · next hget =>
    split at h
    · next hproof =>
      obtain rfl := ok.inj h
      exact ⟨hget, hproof⟩
    · simp at h

theorem insertAssignmentTx_ok {intent : Intent U} {state : State} {queuedAt : Option Time} {ref : U}
    {writes : Tx U} (step : Step U) (hstate : state = .prepared ∨ state = .queued)
    (h : insertAssignmentTx db (intent.row state queuedAt ref) permitted = .ok writes) :
    Outcome db step writes := by
  unfold insertAssignmentTx at h
  split at h
  · split at h
    · obtain rfl := ok.inj h
      exact .nothing
    · simp at h
  · next hnew =>
    obtain ⟨worker, -, h⟩ := bind_eq_ok.mp h
    obtain rfl := ok.inj h
    exact .insert intent state queuedAt ref hnew hstate

variable {now : Time}

theorem queuePreparedTx_ok {id digest : U} {writes : Tx U}
    (h : queuePreparedTx db id digest now permitted = .ok writes) :
    Outcome db (.queuePrepared id digest now permitted) writes := by
  unfold queuePreparedTx at h
  split at h
  · simp at h
  · next row hrow =>
    split at h
    · simp at h
    split at h
    · next hstate =>
      obtain ⟨worker, -, h⟩ := bind_eq_ok.mp h
      obtain rfl := ok.inj h
      exact .update id row _ hrow (fun _ ↦ rfl) (.queue hstate)
    · obtain rfl := ok.inj h
      exact .nothing

theorem claimTx_ok {id worker : U} {generation : ℕ} {nonce : U} {lease : U} {ttl : Time}
    {writes : Tx U}
    (h : claimTx db id worker generation nonce hash lease now ttl permitted = .ok writes) :
    Outcome db (.claim id worker generation nonce hash lease now ttl permitted) writes := by
  unfold claimTx at h
  split at h
  · simp at h
  next row hrow =>
  obtain ⟨enrollment, -, h⟩ := bind_eq_ok.mp h
  split at h
  · simp at h
  next hsame =>
  split at h
  · next hstate =>
    split at h
    · simp at h
    · next hfree =>
      obtain rfl := ok.inj h
      obtain rfl := key_of_get hrow
      exact .update row.id row _ hrow (fun _ ↦ rfl)
        (.claim hstate (not_not.mp hsame).1.symm (Bool.eq_false_iff.mpr hfree))
  · split at h
    · split at h
      · next hclaimed =>
        obtain rfl := ok.inj h
        exact .update id row _ hrow (fun _ ↦ rfl)
          (.quarantine (by simp [hclaimed.1]) (by simp [hclaimed.1]) (.inr hclaimed.1))
      · obtain rfl := ok.inj h
        exact .nothing
    · simp at h

theorem heartbeatTx_ok (hdb : db.Consistent) {id lease : U} {ttl : Time} {writes : Tx U}
    (h : heartbeatTx db id lease hash now ttl permitted = .ok writes) :
    Outcome db (.heartbeat id lease hash now ttl permitted) writes := by
  obtain ⟨row, hrow, h⟩ := bind_eq_ok.mp h
  obtain ⟨hrow, hlease, -⟩ := owned_ok hrow
  have hlease : row.lease.isSome := by simp [hlease]
  obtain ⟨hprepared, hqueued⟩ := (hdb id row hrow).state_of_lease hlease
  split at h
  · obtain rfl := ok.inj h
    exact .nothing
  next hrunning =>
  have hrunning : row.stopAckAt = none := by simpa using hrunning
  dsimp only at h
  split at h
  · obtain rfl := ok.inj h
    exact .update id row _ hrow (fun _ ↦ rfl) (.quarantine hprepared hqueued (.inl hrunning))
  · next hlive =>
    have hcancel : row.cancelAt = none := by
      by_contra hne
      exact hlive (.inl (isSome_iff_ne_none.mpr hne))
    obtain rfl := ok.inj h
    exact .update id row _ hrow (fun _ ↦ rfl) (.renew hlease hcancel hrunning)

theorem stoppedTx_ok {id lease : U} {writes : Tx U}
    (h : stoppedTx db id lease hash now = .ok writes) :
    Outcome db (.stopped id lease hash now) writes := by
  obtain ⟨row, hrow, h⟩ := bind_eq_ok.mp h
  obtain ⟨hrow, hlease, -⟩ := owned_ok hrow
  split at h
  · obtain rfl := ok.inj h
    exact .nothing
  · next hrunning =>
    obtain rfl := ok.inj h
    exact .update id row _ hrow (fun _ ↦ rfl) (.stop (by simp [hlease]) (by simpa using hrunning))

theorem completeTx_ok {id lease : U} {digest ref : U} {writes : Tx U}
    (h : completeTx db id lease hash digest ref now permitted = .ok writes) :
    Outcome db (.complete id lease hash digest ref now permitted) writes := by
  obtain ⟨row, hrow, h⟩ := bind_eq_ok.mp h
  obtain ⟨hrow, -, -⟩ := owned_ok hrow
  split at h
  · split at h
    · obtain rfl := ok.inj h
      exact .nothing
    · simp at h
  · next houtput =>
    obtain ⟨worker, hworker, h⟩ := bind_eq_ok.mp h
    obtain ⟨hworker, hrevoked⟩ := activeEnrollment_ok hworker
    split at h
    · next hlive =>
      obtain rfl := ok.inj h
      exact .update id row _ hrow (fun _ ↦ rfl)
        (.complete houtput hlive.1 hlive.2.1 (by simpa using hlive.2.2) hworker hrevoked)
    · simp at h

/-- What one step does to the row under an identity. -/
inductive Change (db : Db U) (step : Step U) : Option (Assignment U) → Option (Assignment U) → Prop
  | same (row : Option (Assignment U)) : Change db step row row
  | insert (intent : Intent U) (state : State) (queuedAt : Option Time) (ref : U)
    (hstate : state = .prepared ∨ state = .queued) :
    Change db step none (some (intent.row state queuedAt ref))
  | tombstone (intent : Intent U) (ref : U) (now queuedAt : Time) :
    Change db step none (some { intent.row .withdrawn (some queuedAt) ref with
      cancelAt := some now, stopAckAt := some now })
  | move {row row' : Assignment U} (hmove : Move db row step row') :
    Change db step (some row) (some row')

section

variable {writes : Tx U} (step : Step U)

theorem cancelTx_ok {id : U} (h : cancelTx db id now = .ok writes) : Outcome db step writes := by
  unfold cancelTx at h
  split at h
  · simp at h
  next row hrow =>
  split at h
  · obtain rfl := ok.inj h
    exact .nothing
  next hcancel =>
  have hcancel : row.cancelAt = none := by simpa using hcancel
  split at h
  · next hstate =>
    obtain rfl := ok.inj h
    exact .update id row _ hrow (fun _ ↦ rfl) (.withdraw hcancel hstate)
  next hstate =>
  split at h
  · next hstopped =>
    obtain rfl := ok.inj h
    exact .update id row _ hrow (fun _ ↦ rfl) (.cancelStopped hcancel hstopped)
  · next hrunning =>
    obtain rfl := ok.inj h
    exact .update id row _ hrow (fun _ ↦ rfl)
      (.quarantine (fun h ↦ hstate (.inl h)) (fun h ↦ hstate (.inr h)) (.inl (by simpa using hrunning)))

theorem withdrawTx_ok {intent : Intent U} {ref : U} {queuedAt : Time}
    (h : withdrawTx db intent ref now queuedAt = .ok writes) : Outcome db step writes := by
  unfold withdrawTx at h
  split at h
  · split at h
    · simp at h
    · exact cancelTx_ok step h
  · next hnew =>
    obtain rfl := ok.inj h
    exact .tombstone intent ref now queuedAt hnew

theorem insertWorkerTx_ok {row : Enrollment U} (h : insertWorkerTx db row = .ok writes) :
    Outcome db step writes := by
  unfold insertWorkerTx at h
  split at h
  · split at h
    · obtain rfl := ok.inj h
      exact .nothing
    · simp at h
  · obtain rfl := ok.inj h
    exact .worker row

theorem revokeTx_ok {id : U} (h : revokeTx db id now = .ok writes) : Outcome db step writes := by
  unfold revokeTx at h
  split at h
  · simp at h
  · split at h
    · obtain rfl := ok.inj h
      exact .revoke id now
    · simp at h

end

/-- Every transaction of the writer has one of the outcomes. -/
theorem tx_ok (hdb : db.Consistent) {step : Step U} {writes : Tx U} (h : step.tx db = .ok writes) :
    Outcome db step writes := by
  cases step with
  | enroll row => exact insertWorkerTx_ok _ h
  | revoke id now => exact revokeTx_ok _ h
  | prepare intent ref permitted => exact insertAssignmentTx_ok _ (.inl rfl) h
  | enqueue intent ref now permitted => exact insertAssignmentTx_ok _ (.inr rfl) h
  | queuePrepared id digest now permitted => exact queuePreparedTx_ok h
  | claim id worker generation nonce hash lease now ttl permitted => exact claimTx_ok h
  | heartbeat id lease hash now ttl permitted => exact heartbeatTx_ok hdb h
  | cancel id now => exact cancelTx_ok _ h
  | withdraw intent ref now queuedAt => exact withdrawTx_ok _ h
  | stopped id lease hash now => exact stoppedTx_ok h
  | complete id lease hash digest ref now permitted => exact completeTx_ok h

theorem step_change (hdb : db.Consistent) (step : Step U) (id : U) :
    Change db step (db.assignments.get id) ((db.step step).assignments.get id) := by
  unfold Db.step
  split
  · next writes h =>
    cases tx_ok hdb h with
    | nothing => exact .same _
    | worker row => exact .same _
    | revoke id now => exact .same _
    | insert intent state queuedAt ref hnew hstate =>
      simp only [foldl_cons, foldl_nil, write, get_put]
      split
      · next hid =>
        rw [hid, show (intent.row state queuedAt ref).id = intent.id from rfl, hnew]
        exact .insert intent state queuedAt ref hstate
      · exact .same _
    | tombstone intent ref now queuedAt hnew =>
      simp only [foldl_cons, foldl_nil, write, get_put]
      split
      · next hid =>
        rw [hid, show Assignment.id _ = intent.id from rfl, hnew]
        exact .tombstone intent ref now queuedAt
      · exact .same _
    | update target row fields hrow hid hmove =>
      simp only [foldl_cons, foldl_nil, write, get_modify hid]
      split
      · next htarget =>
        rw [htarget, hrow]
        exact .move hmove
      · exact .same _
  · exact .same _

variable {row' : Assignment U}

theorem Move.consistent {row : Assignment U} {step : Step U} (hmove : Move db row step row')
    (h : row.Consistent) : row'.Consistent := by
  cases hmove <;> cases hstate : row.state <;> simp_all [Assignment.Consistent]

theorem step_consistent (db : Db U) (step : Step U) (hdb : db.Consistent) :
    (db.step step).Consistent := by
  intro id row' hrow'
  have hchange := step_change hdb step id
  rw [hrow'] at hchange
  generalize hrow : db.assignments.get id = row at hchange
  cases hchange with
  | same => exact hdb id row' hrow
  | insert intent state queuedAt ref hstate =>
    rcases hstate with rfl | rfl <;> simp [Assignment.Consistent, Intent.row]
  | tombstone intent ref now queuedAt => simp [Assignment.Consistent, Intent.row]
  | move hmove => exact hmove.consistent (hdb id _ hrow)

theorem init_consistent : (init : Db U).Consistent := by
  intro id row h
  simp [init] at h

/-- A leased assignment whose process is not known to have stopped. -/
def Assignment.Owning (row : Assignment U) : Prop := row.lease.isSome ∧ row.stopAckAt = none

theorem not_owning_of_unresolved {worker : U} (hfree : unresolved db worker = false) {id : U}
    {row : Assignment U} (hrow : db.assignments.get id = some row) (hworker : row.worker = worker) :
    ¬ row.Owning := by
  intro howning
  have hmem := (get_eq_some_iff.mp hrow).1
  have := any_eq_false.mp hfree row hmem
  simp [hworker, howning.1, howning.2] at this

/-- A worker owns at most one unresolved assignment. -/
def Db.Exclusive (db : Db U) : Prop :=
  ∀ id₁ id₂ row₁ row₂, db.assignments.get id₁ = some row₁ → db.assignments.get id₂ = some row₂ →
    row₁.worker = row₂.worker → row₁.Owning → row₂.Owning → id₁ = id₂

/-- Only a claim makes an assignment own its worker, and only while the worker is free. -/
theorem Move.owning {row : Assignment U} {step : Step U} (hmove : Move db row step row')
    (howning : row'.Owning) :
    row'.worker = row.worker ∧ (row.Owning ∨ unresolved db row.worker = false ∧
      ∃ generation nonce hash lease now ttl permitted,
        step = .claim row.id row.worker generation nonce hash lease now ttl permitted) := by
  cases hmove with
  | claim hstate hworker hfree =>
    subst hworker
    exact ⟨rfl, .inr ⟨hfree, _, _, _, _, _, _, _, rfl⟩⟩
  | queue hstate => exact ⟨rfl, .inl howning⟩
  | quarantine hprepared hqueued hrunning => exact ⟨rfl, .inl howning⟩
  | withdraw hcancel hstate => simp [Assignment.Owning] at howning
  | cancelStopped hcancel hstopped => exact ⟨rfl, .inl howning⟩
  | renew hlease hcancel hrunning => exact ⟨rfl, .inl howning⟩
  | stop hlease hrunning => simp [Assignment.Owning] at howning
  | complete houtput hstate hcancel hexpired hworker hrevoked =>
    simp [Assignment.Owning] at howning

theorem owning_before (hdb : db.Consistent) {step : Step U} {id : U}
    (hrow' : (db.step step).assignments.get id = some row') (howning : row'.Owning) :
    ∃ row, db.assignments.get id = some row ∧ row'.worker = row.worker ∧
      (row.Owning ∨ unresolved db row.worker = false ∧
        ∃ generation nonce hash lease now ttl permitted,
          step = .claim id row.worker generation nonce hash lease now ttl permitted) := by
  have hchange := step_change hdb step id
  rw [hrow'] at hchange
  generalize hrow : db.assignments.get id = row at hchange
  cases hchange with
  | same => exact ⟨row', rfl, rfl, .inl howning⟩
  | insert intent state queuedAt ref hstate => simp [Assignment.Owning, Intent.row] at howning
  | tombstone intent ref now queuedAt => simp [Assignment.Owning] at howning
  | move hmove =>
    obtain rfl := key_of_get hrow
    obtain ⟨hworker, howner⟩ := hmove.owning howning
    exact ⟨_, rfl, hworker, howner⟩

theorem step_exclusive (db : Db U) (step : Step U) (hdb : db.Consistent) (h : db.Exclusive) :
    (db.step step).Exclusive := by
  intro id₁ id₂ row₁' row₂' hrow₁' hrow₂' hsame howning₁ howning₂
  obtain ⟨row₁, hrow₁, hworker₁, hcase₁⟩ := owning_before hdb hrow₁' howning₁
  obtain ⟨row₂, hrow₂, hworker₂, hcase₂⟩ := owning_before hdb hrow₂' howning₂
  have hsame : row₁.worker = row₂.worker := by rw [← hworker₁, hsame, hworker₂]
  rcases hcase₁ with hcase₁ | ⟨hfree₁, _, _, _, _, _, _, _, hstep₁⟩
  · rcases hcase₂ with hcase₂ | ⟨hfree₂, -⟩
    · exact h id₁ id₂ row₁ row₂ hrow₁ hrow₂ hsame hcase₁ hcase₂
    · exact absurd hcase₁ (not_owning_of_unresolved hfree₂ hrow₁ hsame)
  · rcases hcase₂ with hcase₂ | ⟨-, _, _, _, _, _, _, _, hstep₂⟩
    · exact absurd hcase₂ (not_owning_of_unresolved hfree₁ hrow₂ hsame.symm)
    · rw [hstep₁] at hstep₂
      injection hstep₂

/-- What no later transaction takes back from an assignment. -/
structure Assignment.Keeps (old new : Assignment U) : Prop where
  worker : new.worker = old.worker
  lease : Kept old.lease new.lease
  nonce : Kept old.nonce new.nonce
  secretHash : Kept old.secretHash new.secretHash
  outputId : Kept old.outputId new.outputId
  outputRef : Kept old.outputRef new.outputRef
  cancelAt : Kept old.cancelAt new.cancelAt
  stopAckAt : Kept old.stopAckAt new.stopAckAt
  withdrawn : old.state = .withdrawn → new.state = .withdrawn

omit [DecidableEq U] in
theorem Assignment.Keeps.refl (row : Assignment U) : row.Keeps row :=
  ⟨rfl, .refl _, .refl _, .refl _, .refl _, .refl _, .refl _, .refl _, fun h ↦ h⟩

omit [DecidableEq U] in
theorem Assignment.Keeps.trans {a b c : Assignment U} (h₁ : a.Keeps b) (h₂ : b.Keeps c) :
    a.Keeps c where
  worker := h₂.worker.trans h₁.worker
  lease := h₁.lease.trans h₂.lease
  nonce := h₁.nonce.trans h₂.nonce
  secretHash := h₁.secretHash.trans h₂.secretHash
  outputId := h₁.outputId.trans h₂.outputId
  outputRef := h₁.outputRef.trans h₂.outputRef
  cancelAt := h₁.cancelAt.trans h₂.cancelAt
  stopAckAt := h₁.stopAckAt.trans h₂.stopAckAt
  withdrawn h := h₂.withdrawn (h₁.withdrawn h)

theorem Move.keeps {row : Assignment U} {step : Step U} (hmove : Move db row step row')
    (h : row.Consistent) : row.Keeps row' := by
  cases hmove <;> cases hstate : row.state <;>
    constructor <;> simp_all [Assignment.Consistent, Kept]

/-- Every assignment survives with everything it has recorded. -/
def Db.Keeps (old new : Db U) : Prop :=
  ∀ id row, old.assignments.get id = some row →
    ∃ row', new.assignments.get id = some row' ∧ row.Keeps row'

theorem step_keeps (db : Db U) (step : Step U) (hdb : db.Consistent) : db.Keeps (db.step step) := by
  intro id row hrow
  have hchange := step_change hdb step id
  rw [hrow] at hchange
  generalize hrow' : (db.step step).assignments.get id = row' at hchange
  cases hchange with
  | same => exact ⟨row, rfl, .refl row⟩
  | move hmove => exact ⟨_, rfl, hmove.keeps (hdb id row hrow)⟩

theorem run_keeps (hdb : db.Consistent) (steps : List (Step U)) : db.Keeps (run step db steps) := by
  refine run_climbs Db.Keeps Db.Consistent (fun db id row h ↦ ⟨row, h, .refl row⟩) ?_
    step_consistent step_keeps hdb steps
  intro a b c hab hbc id row hrow
  obtain ⟨row', hrow', h₁⟩ := hab id row hrow
  obtain ⟨row'', hrow'', h₂⟩ := hbc id row' hrow'
  exact ⟨row'', hrow'', h₁.trans h₂⟩

/-- The step completes this row under a live lease of a current enrollment. -/
def Admits (db : Db U) (row : Assignment U) (step : Step U) : Prop :=
  ∃ id lease hash digest ref now permitted worker,
    step = .complete id lease hash digest ref now permitted ∧ row.state = .claimed ∧
      row.cancelAt = none ∧ row.expired now = false ∧
      db.workers.get row.worker = some worker ∧ worker.revokedAt = none

theorem Move.output {row : Assignment U} {step : Step U} (hmove : Move db row step row') :
    row'.outputId = row.outputId ∧ row'.outputRef = row.outputRef ∨ Admits db row step := by
  cases hmove with
  | complete houtput hstate hcancel hexpired hworker hrevoked =>
    exact .inr ⟨_, _, _, _, _, _, _, _, rfl, hstate, hcancel, hexpired, hworker, hrevoked⟩
  | _ => exact .inl ⟨rfl, rfl⟩

/-- Only a claim and a renewal move an expiry, of a live row. -/
theorem Move.expiresAt {row : Assignment U} {step : Step U} (hmove : Move db row step row')
    (h : row.Consistent) (hended : row.cancelAt.isSome ∨ row.stopAckAt.isSome) :
    row'.expiresAt = row.expiresAt := by
  cases hmove with
  | claim hstate hworker hfree => simp [Assignment.Consistent, hstate] at h; simp [h] at hended
  | renew hlease hcancel hrunning => simp [hcancel, hrunning] at hended
  | _ => rfl

theorem run_consistent (steps : List (Step U)) : (run step init steps : Db U).Consistent :=
  run_preserves Db.Consistent step_consistent init_consistent steps

theorem run_exclusive (steps : List (Step U)) : (run step init steps : Db U).Exclusive := by
  have hinit : (init : Db U).Consistent ∧ (init : Db U).Exclusive :=
    ⟨init_consistent, fun id₁ id₂ row₁ row₂ h ↦ by simp [init] at h⟩
  exact (run_preserves (fun db : Db U ↦ db.Consistent ∧ db.Exclusive)
    (fun db step h ↦ ⟨step_consistent db step h.1, step_exclusive db step h.1 h.2⟩) hinit steps).2

/-- A worker owns at most one unresolved assignment, ownership is irrevocable, outputs need a live
lease, and a cancelled or stopped assignment is not renewed. -/
theorem ownership_exclusive_irrevocable (steps : List (Step U)) :
    (run Db.step Db.init steps : Db U).Exclusive ∧
    (∀ later, (run Db.step Db.init steps : Db U).Keeps (run Db.step Db.init (steps ++ later))) ∧
    (∀ later id row row', (run Db.step Db.init steps : Db U).assignments.get id = some row →
      row.state = .withdrawn →
      (run Db.step Db.init (steps ++ later) : Db U).assignments.get id = some row' →
      row'.lease = none) ∧
    (∀ step id row', ((run Db.step Db.init steps : Db U).step step).assignments.get id = some row' →
      ((run Db.step Db.init steps : Db U).assignments.get id = none →
        row'.outputId = none ∧ row'.outputRef = none) ∧
      ∀ row, (run Db.step Db.init steps : Db U).assignments.get id = some row →
        (row'.outputId = row.outputId ∧ row'.outputRef = row.outputRef ∨
          Admits (run Db.step Db.init steps) row step) ∧
        (row.cancelAt.isSome ∨ row.stopAckAt.isSome → row'.expiresAt = row.expiresAt)) := by
  have hdb := run_consistent (U := U) steps
  have hkeeps (later : List (Step U)) :
      (run step init steps : Db U).Keeps (run step init (steps ++ later)) := by
    rw [run_append]
    exact run_keeps hdb later
  refine ⟨run_exclusive steps, hkeeps, ?_, ?_⟩
  · intro later id row row' hrow hstate hrow'
    obtain ⟨row'', hrow'', h⟩ := hkeeps later id row hrow
    obtain rfl := some.inj (hrow'.symm.trans hrow'')
    have hconsistent := run_consistent (steps ++ later) id row' hrow'
    simp only [Assignment.Consistent, h.withdrawn hstate] at hconsistent
    exact hconsistent.1
  · intro step id row' hrow'
    have hchange := step_change hdb step id
    rw [hrow'] at hchange
    generalize hrow : (run Db.step Db.init steps : Db U).assignments.get id = old at hchange
    constructor
    · rintro rfl
      cases hchange with
      | insert intent state queuedAt ref hstate => exact ⟨rfl, rfl⟩
      | tombstone intent ref now queuedAt => exact ⟨rfl, rfl⟩
    · rintro row rfl
      cases hchange with
      | same => exact ⟨.inl ⟨rfl, rfl⟩, fun _ ↦ rfl⟩
      | move hmove => exact ⟨hmove.output, hmove.expiresAt (hdb id row hrow)⟩

end Simmis.Workers
