import Simmis.Library.Checks
import Simmis.Library.Runs
import Mathlib.Data.List.Chain
import Mathlib.Data.List.Nodup
import Mathlib.Algebra.Ring.Int.Defs
import Mathlib.Algebra.Ring.Nat

/-!
# Remote policies

The policy of a room's Git connection says whether the remote is polled and whether incoming work is
reviewed. The configuration, the marker of a pending proposal and the observations of the poller
share its row. A token of the review mode is compared with the policy when the decision is carried
out.
-/

namespace Simmis.Git.Policies

open List Option Except

inductive ReviewMode where
  | fastForward | reviewAll
deriving DecidableEq

structure Settings where
  enabled : Bool
  intervalSeconds : ℤ
  reviewMode : ReviewMode
deriving DecidableEq

/-- `settings!` -/
def Settings.Valid (settings : Settings) : Prop :=
  60 ≤ settings.intervalSeconds ∧ settings.intervalSeconds ≤ 86400 ∧
    settings.intervalSeconds % 60 = 0

instance (settings : Settings) : Decidable settings.Valid := inferInstanceAs (Decidable (_ ∧ _ ∧ _))

inductive Status where
  | idle | unchanged | synced | proposal | busy | held | failed
deriving DecidableEq

/-- What `effective` answers; the instants are milliseconds. -/
structure Policy (U : Type) where
  connectionId : U
  revision : U
  reviewRevision : U
  settings : Settings
  nextCheck : Option ℤ := none
  pendingProposal : Option U := none
deriving DecidableEq

structure Row (U : Type) extends Policy U where
  by_ : U
  lastCheck : Option ℤ := none
  status : Status := .idle
  failures : ℕ := 0
deriving DecidableEq

inductive ProposalStatus where
  | open_ | accepted | dismissed | other
deriving DecidableEq

structure Proposal (U : Type) where
  room : U
  githubKey : Option U
  status : ProposalStatus
deriving DecidableEq

/-- The policy rows by room and the proposals by id. -/
structure Db (U : Type) where
  policies : U → Option (Row U)
  proposals : U → Option (Proposal U)

structure Token (U : Type) where
  room : U
  connectionId : U
  reviewMode : ReviewMode
  reviewRevision : U
deriving DecidableEq

inductive Refusal where
  | invalidSettings | connectionChanged | reviewPolicyChanged | policyChanged
  | pendingProposalUnavailable | incomingProposalPending | invalidObservation
deriving DecidableEq

/-- `(hasch/uuid [:simmis/git-policy-defaults 1 room connection-id])` -/
class Hasch (U : Type) where
  defaults : U → U → U

variable {U : Type} [DecidableEq U] [Hasch U]

section Program

variable (db : Db U) (room connectionId : U)

def defaults : Policy U where
  connectionId
  revision := Hasch.defaults room connectionId
  reviewRevision := Hasch.defaults room connectionId
  settings := ⟨false, 60, .fastForward⟩

/-- `effective` -/
def effective : Except Refusal (Policy U) :=
  match db.policies room with
  | some row =>
    if row.connectionId ≠ connectionId then .error .connectionChanged
    else if ¬row.settings.Valid then .error .invalidSettings
    else .ok row.toPolicy
  | none => .ok (defaults room connectionId)

/-- `review-token` -/
def reviewToken (policy : Policy U) : Token U :=
  ⟨room, policy.connectionId, policy.settings.reviewMode, policy.reviewRevision⟩

/-- `review-current!` -/
def reviewCurrent (expected : Token U) : Except Refusal (Token U) := do
  let policy ← effective db expected.room expected.connectionId
  require (expected = reviewToken expected.room policy) .reviewPolicyChanged
  return expected

structure Configure (U : Type) where
  expectedRevision : U
  revision : U
  by_ : U
  settings : Settings
  now : ℤ

/-- `configure-tx`: the row after the transaction. -/
def configureTx (call : Configure U) : Except Refusal (Row U) := do
  require call.settings.Valid .invalidSettings
  let current ← effective db room connectionId
  require (call.expectedRevision = current.revision ∧ call.revision ≠ call.expectedRevision)
    .policyChanged
  return {
    connectionId
    revision := call.revision
    reviewRevision := if call.settings.reviewMode = current.settings.reviewMode
      then current.reviewRevision else call.revision
    settings := call.settings
    nextCheck := if call.settings.enabled then some call.now else none
    pendingProposal := current.pendingProposal
    by_ := call.by_
    lastCheck := (db.policies room).bind Row.lastCheck }

/-- `pending-proposal` -/
def pendingProposal (policy : Policy U) : Except Refusal (Option U) :=
  match policy.pendingProposal with
  | none => .ok none
  | some id =>
    match db.proposals id with
    | none => .error .pendingProposalUnavailable
    | some proposal =>
      if proposal.room ≠ room ∨ proposal.githubKey = none then .error .pendingProposalUnavailable
      else match proposal.status with
        | .open_ => .ok (some id)
        | .accepted | .dismissed => .ok none
        | .other => .error .pendingProposalUnavailable

/-- `pending-tx`: the row after the transaction. -/
def pendingTx (by_ proposalId : U) : Except Refusal (Row U) := do
  let current ← effective db room connectionId
  let pending ← pendingProposal db room current
  require (pending = none ∨ pending = some proposalId) .incomingProposalPending
  return match db.policies room with
    | some row => { row with pendingProposal := some proposalId }
    | none => { current with pendingProposal := some proposalId, by_ }

/-- The failures after one observation. -/
def failuresAfter (row : Row U) (status : Status) : ℕ :=
  if status = .held ∨ status = .failed then min 6 (row.failures + 1) else 0

def delaySeconds (row : Row U) (status : Status) : ℤ :=
  max row.settings.intervalSeconds
    (min 3600 (row.settings.intervalSeconds * 2 ^ failuresAfter row status))

structure Observation (U : Type) where
  revision : U
  now : ℤ
  status : Status

/-- `checked-tx`: the row after the transaction, or none where it is empty. -/
def checkedTx (seen : Observation U) : Except Refusal (Option (Row U)) :=
  if seen.status = .idle then .error .invalidObservation
  else match db.policies room with
  | none => .ok none
  | some row =>
    if seen.revision ≠ row.revision ∨ connectionId ≠ row.connectionId ∨ row.settings.enabled = false
        ∨ ∃ previous ∈ row.lastCheck, seen.now ≤ previous then .ok none
    else do
      let _ ← effective db room connectionId
      return some { row with
        lastCheck := some seen.now
        status := seen.status
        failures := failuresAfter row seen.status
        nextCheck := some (seen.now + 1000 * delaySeconds row seen.status) }

inductive Event (U : Type) where
  | configure (call : Configure U)
  | pending (by_ proposalId : U)
  | checked (seen : Observation U)
  /-- The proposals change under the policy. -/
  | proposals (table : U → Option (Proposal U))

def Db.store (row : Row U) : Db U :=
  { db with policies := fun room' ↦ if room' = room then some row else db.policies room' }

/-- One call of a writer for the room and the connection; a refused one changes nothing. -/
def step : Event U → Db U
  | .configure call => match configureTx db room connectionId call with
    | .ok row => db.store room row
    | .error _ => db
  | .pending by_ proposalId => match pendingTx db room connectionId by_ proposalId with
    | .ok row => db.store room row
    | .error _ => db
  | .checked seen => match checkedTx db room connectionId seen with
    | .ok (some row) => db.store room row
    | _ => db
  | .proposals table => { db with proposals := table }

/-- The state after the events. -/
abbrev after (events : List (Event U)) : Db U :=
  Runs.run (fun db ↦ step db room connectionId) db events

/-- Two calls with one revision are replays of one call, and no call has the revision of the
defaults. -/
def Fresh (events : List (Event U)) : Prop :=
  ∀ call, .configure call ∈ events → call.revision ≠ Hasch.defaults room connectionId ∧
    ∀ call', .configure call' ∈ events → call'.revision = call.revision →
      call'.expectedRevision = call.expectedRevision

end Program

variable {db : Db U} {room c : U} {call : Configure U} {row : Row U} {events : List (Event U)}
  {past : List U}

/-- The policy in force. -/
def current (db : Db U) (room c : U) : Policy U :=
  ((db.policies room).map Row.toPolicy).getD (defaults room c)

/-- The time of the last observation. -/
def Db.lastCheck (db : Db U) (room : U) : Option ℤ := (db.policies room).bind Row.lastCheck

/-- What the writers keep true of a row. -/
def Row.Well (c : U) (row : Row U) : Prop :=
  row.connectionId = c ∧ row.settings.Valid ∧ row.nextCheck.isSome = row.settings.enabled

def Db.Well (db : Db U) (room c : U) : Prop := ∀ row, db.policies room = some row → row.Well c

/-- The other writers keep the settings and both revisions. -/
def Policy.Keeps (p q : Policy U) : Prop :=
  q.revision = p.revision ∧ q.reviewRevision = p.reviewRevision ∧ q.settings = p.settings

/-- What an accepted configuration does to the policy in force. -/
structure Configured (call : Configure U) (p q : Policy U) : Prop where
  expected : call.expectedRevision = p.revision
  revision : q.revision = call.revision
  fresh : call.revision ≠ p.revision
  settings : q.settings = call.settings
  kept : call.settings.reviewMode = p.settings.reviewMode → q.reviewRevision = p.reviewRevision
  moved : call.settings.reviewMode ≠ p.settings.reviewMode → q.reviewRevision = call.revision

theorem current_store (row : Row U) : current (db.store room row) room c = row.toPolicy := by
  simp [current, Db.store]

omit [Hasch U] in
theorem Db.Well.store (h : row.Well c) : (db.store room row).Well room c := fun row' hrow' ↦ by
  simp only [Db.store, if_true, some.injEq] at hrow'
  exact hrow' ▸ h

omit [Hasch U] in
theorem lastCheck_store (row : Row U) : (db.store room row).lastCheck room = row.lastCheck := by
  simp [Db.lastCheck, Db.store]

namespace Db.Well

theorem effective_eq (h : db.Well room c) : effective db room c = .ok (current db room c) := by
  cases hrow : db.policies room with
  | none => simp [effective, current, hrow]
  | some row =>
    obtain ⟨hconnection, hvalid, -⟩ := h row hrow
    simp [effective, current, hrow, hconnection, hvalid]

omit [DecidableEq U] in
theorem current_well (h : db.Well room c) : (current db room c).connectionId = c ∧
    (current db room c).nextCheck.isSome = (current db room c).settings.enabled := by
  cases hrow : db.policies room with
  | none => simp [current, hrow, defaults]
  | some row => simpa [current, hrow] using And.intro (h row hrow).1 (h row hrow).2.2

section

variable (h : db.Well room c)
include h

theorem reviewCurrent_iff {token : Token U} (hroom : token.room = room)
    (hconnection : token.connectionId = c) :
    reviewCurrent db token = .ok token ↔ token = reviewToken room (current db room c) := by
  rw [reviewCurrent, hroom, hconnection, h.effective_eq]
  exact require_bind_eq_ok.trans (by simp [pure, Except.pure])

theorem configureTx (hrow : configureTx db room c call = .ok row) :
    row.Well c ∧ Configured call (current db room c) row.toPolicy ∧
      row.lastCheck = db.lastCheck room := by
  obtain ⟨hvalid, hrow⟩ := require_bind_eq_ok.mp hrow
  rw [h.effective_eq] at hrow
  obtain ⟨⟨hexpected, hne⟩, hrow⟩ := require_bind_eq_ok.mp hrow
  obtain rfl := ok.inj hrow
  refine ⟨⟨rfl, hvalid, ?_⟩,
    ⟨hexpected, rfl, hexpected ▸ hne, rfl, fun h ↦ if_pos h, fun h ↦ if_neg h⟩, rfl⟩
  cases call.settings.enabled <;> simp

theorem pendingTx {by_ proposalId : U} (hrow : pendingTx db room c by_ proposalId = .ok row) :
    row.Well c ∧ (current db room c).Keeps row.toPolicy ∧ row.lastCheck = db.lastCheck room ∧
      row.pendingProposal = some proposalId ∧
      ∃ pending, pendingProposal db room (current db room c) = .ok pending ∧
        (pending = none ∨ pending = some proposalId) := by
  obtain ⟨p, hpolicy, hrow⟩ := bind_eq_ok.mp hrow
  obtain rfl := ok.inj (h.effective_eq.symm.trans hpolicy)
  obtain ⟨pending, hpending, hrow⟩ := bind_eq_ok.mp hrow
  obtain ⟨hfree, hrow⟩ := require_bind_eq_ok.mp hrow
  obtain rfl := ok.inj hrow
  cases hold : db.policies room with
  | none =>
    refine ⟨?_, ⟨rfl, rfl, rfl⟩, by simp [Db.lastCheck, hold], rfl, pending, hpending, hfree⟩
    simp [Row.Well, current, hold, defaults, Settings.Valid]
  | some old =>
    refine ⟨h old hold, ?_, by simp [Db.lastCheck, hold], rfl, pending, hpending, hfree⟩
    simp [Policy.Keeps, current, hold]

theorem checkedTx {seen : Observation U} (hrow : checkedTx db room c seen = .ok (some row)) :
    ∃ old, db.policies room = some old ∧ seen.revision = old.revision ∧ c = old.connectionId ∧
      old.settings.enabled ∧ (∀ previous ∈ old.lastCheck, previous < seen.now) ∧ row = { old with
        lastCheck := some seen.now
        status := seen.status
        failures := failuresAfter old seen.status
        nextCheck := some (seen.now + 1000 * delaySeconds old seen.status) } := by
  unfold Policies.checkedTx at hrow
  split at hrow
  · exact nomatch hrow
  · cases hold : db.policies room with
    | none => simp [hold] at hrow
    | some old =>
      simp only [hold] at hrow
      split at hrow
      · exact nomatch hrow
      · next hcurrent =>
        rw [h.effective_eq] at hrow
        obtain rfl := some.inj (ok.inj hrow)
        simp only [not_or, not_not, not_exists, not_and, Bool.not_eq_false] at hcurrent
        obtain ⟨hrevision, hconnection, henabled, hlater⟩ := hcurrent
        exact ⟨old, rfl, hrevision, hconnection, henabled,
          fun previous hprevious ↦ Int.not_le.mp (hlater previous hprevious), rfl⟩

/-- What one event can do. -/
theorem step (e : Event U) :
    let db' := step db room c e
    db'.Well room c ∧ (∀ t ∈ db.lastCheck room, ∃ t' ∈ db'.lastCheck room, t ≤ t') ∧
      ((current db room c).Keeps (current db' room c) ∨
        ∃ call, e = .configure call ∧ Configured call (current db room c) (current db' room c)) := by
  have hstill : ∀ t ∈ db.lastCheck room, ∃ t' ∈ db.lastCheck room, t ≤ t' :=
    fun t ht ↦ ⟨t, ht, Int.le_refl t⟩
  cases e with
  | configure call =>
    simp only [Policies.step]
    split
    · next row hrow =>
      obtain ⟨hwell, hconfigured, hlast⟩ := h.configureTx hrow
      rw [lastCheck_store, hlast, current_store]
      exact ⟨.store hwell, hstill, .inr ⟨call, rfl, hconfigured⟩⟩
    · exact ⟨h, hstill, .inl ⟨rfl, rfl, rfl⟩⟩
  | pending by_ proposalId =>
    simp only [Policies.step]
    split
    · next row hrow =>
      obtain ⟨hwell, hkeeps, hlast, -⟩ := h.pendingTx hrow
      rw [lastCheck_store, hlast, current_store]
      exact ⟨.store hwell, hstill, .inl hkeeps⟩
    · exact ⟨h, hstill, .inl ⟨rfl, rfl, rfl⟩⟩
  | checked seen =>
    simp only [Policies.step]
    split
    · next row hrow =>
      obtain ⟨old, hold, -, -, henabled, hlater, rfl⟩ := h.checkedTx hrow
      obtain ⟨hconnection, hvalid, -⟩ := h old hold
      rw [lastCheck_store, current_store]
      refine ⟨.store ⟨hconnection, hvalid, henabled.symm⟩, fun t ht ↦ ?_, .inl ?_⟩
      · rw [Db.lastCheck, hold] at ht
        exact ⟨seen.now, rfl, Int.le_of_lt (hlater t ht)⟩
      · simp [Policy.Keeps, current, hold]
    · exact ⟨h, hstill, .inl ⟨rfl, rfl, rfl⟩⟩
  | proposals table => exact ⟨h, hstill, .inl ⟨rfl, rfl, rfl⟩⟩

theorem lastCheck_run (late : List (Event U)) :
    ∀ t ∈ db.lastCheck room, ∃ t' ∈ (after db room c late).lastCheck room, t ≤ t' := by
  induction late generalizing db with
  | nil => exact fun t ht ↦ ⟨t, ht, Int.le_refl t⟩
  | cons e late ih =>
    intro t ht
    obtain ⟨hwell, hlast, -⟩ := h.step e
    obtain ⟨t', ht', hle⟩ := hlast t ht
    obtain ⟨t'', ht'', hle'⟩ := ih hwell t' ht'
    exact ⟨t'', ht'', Int.le_trans hle hle'⟩

/-- A configuration that keeps the review mode keeps the token. -/
theorem reviewToken_configure
    (hmode : call.settings.reviewMode = (current db room c).settings.reviewMode) :
    reviewToken room (current (Policies.step db room c (.configure call)) room c) =
      reviewToken room (current db room c) := by
  obtain ⟨hwell, -, hcases⟩ := h.step (.configure call)
  have hconnection := hwell.current_well.1.trans h.current_well.1.symm
  rcases hcases with ⟨-, hreview, hsettings⟩ | ⟨_, ⟨⟩, hcall⟩
  · simp only [reviewToken, hconnection, hreview, hsettings]
  · simp only [reviewToken, hconnection, hcall.kept hmode, hcall.settings, hmode]

end

end Db.Well

/-- The revisions so far, the newest first: each was configured over the one before it. -/
structure History (db : Db U) (room c : U) (events : List (Event U)) (past : List U) : Prop where
  well : db.Well room c
  links : past.IsChain fun new old ↦
    ∃ call, .configure call ∈ events ∧ call.revision = new ∧ call.expectedRevision = old
  nodup : past.Nodup
  first : past.getLast? = some (Hasch.defaults room c)
  newest : past.head? = some (current db room c).revision
  review : (current db room c).reviewRevision ∈ past

namespace History

omit [DecidableEq U] in
/-- A configuration that is accepted has a revision that the policy never had before. -/
theorem not_mem (h : History db room c events past) (hfresh : Fresh room c events)
    (hcall : .configure call ∈ events)
    (hexpected : call.expectedRevision = (current db room c).revision)
    (hne : call.revision ≠ (current db room c).revision) : call.revision ∉ past := by
  intro hmem
  obtain ⟨newer, older, rfl⟩ := append_of_mem hmem
  obtain ⟨hdefault, hreplay⟩ := hfresh call hcall
  cases older with
  | nil =>
    have hlast := h.first
    rw [getLast?_concat] at hlast
    exact hdefault (some.inj hlast)
  | cons old older =>
    obtain ⟨call', hcall', hrevision, hold⟩ := (isChain_append.mp h.links).2.1.rel
    have hreplayed : call.expectedRevision = old := (hreplay call' hcall' hrevision).symm.trans hold
    have hnewest := h.newest
    rw [← hexpected, hreplayed] at hnewest
    cases newer with
    | nil => exact hne ((some.inj hnewest).trans (hreplayed.symm.trans hexpected))
    | cons head newer =>
      obtain rfl := some.inj hnewest
      have hnodup := h.nodup
      simp at hnodup

theorem step (h : History db room c events past) (hfresh : Fresh room c events) {e : Event U}
    (he : e ∈ events) :
    let db' := step db room c e
    (∃ past', past ⊆ past' ∧ History db' room c events past') ∧
      ((current db' room c).reviewRevision = (current db room c).reviewRevision ∧
        (current db' room c).settings.reviewMode = (current db room c).settings.reviewMode ∨
        (current db' room c).reviewRevision ∉ past) := by
  obtain ⟨hwell, -, ⟨hrevision, hreview, hsettings⟩ | ⟨call, rfl, hcall⟩⟩ := h.well.step e
  · exact ⟨⟨past, List.Subset.refl past, hwell, h.links, h.nodup, h.first,
      hrevision ▸ h.newest, hreview ▸ h.review⟩, .inl ⟨hreview, by rw [hsettings]⟩⟩
  · have hnew := h.not_mem hfresh he hcall.expected hcall.fresh
    have hlinks := h.links.cons fun old hold ↦
      ⟨call, he, rfl, hcall.expected.trans (some.inj (h.newest.symm.trans hold))⟩
    have hlast : (call.revision :: past).getLast? = some (Hasch.defaults room c) := by
      rw [getLast?_cons, h.first]
      rfl
    have hnext : (call.revision :: past).head? = some _ := congrArg some hcall.revision.symm
    have hsub := subset_cons_self call.revision past
    have hnodup := nodup_cons.mpr ⟨hnew, h.nodup⟩
    by_cases hmode : call.settings.reviewMode = (current db room c).settings.reviewMode
    · refine ⟨⟨_, hsub, hwell, hlinks, hnodup, hlast, hnext, ?_⟩,
        .inl ⟨hcall.kept hmode, by rw [hcall.settings, hmode]⟩⟩
      rw [hcall.kept hmode]
      exact hsub h.review
    · refine ⟨⟨_, hsub, hwell, hlinks, hnodup, hlast, hnext, ?_⟩, .inr (hcall.moved hmode ▸ hnew)⟩
      rw [hcall.moved hmode]
      exact mem_cons_self

omit [DecidableEq U] in
theorem start (h : db.policies room = none) : History db room c events [Hasch.defaults room c] where
  well row hrow := nomatch h.symm.trans hrow
  links := .singleton _
  nodup := nodup_singleton _
  first := rfl
  newest := by simp [current, h, defaults]
  review := by simp [current, h, defaults]

section

variable (h : History db room c events past) (hfresh : Fresh room c events)
include h hfresh

theorem run {late : List (Event U)} (hlate : late ⊆ events) :
    ∃ past', History (after db room c late) room c events past' := by
  induction late generalizing db past with
  | nil => exact ⟨past, h⟩
  | cons e late ih =>
    obtain ⟨he, hlate⟩ := cons_subset.mp hlate
    obtain ⟨⟨past', -, h'⟩, -⟩ := h.step hfresh he
    exact ih h' hlate

/-- A review revision that has been left behind never comes back. -/
theorem left_behind {base : List U} (hbase : base ⊆ past)
    (hleft : (current db room c).reviewRevision ∉ base) {late : List (Event U)}
    (hlate : late ⊆ events) : (current (after db room c late) room c).reviewRevision ∉ base := by
  induction late generalizing db past with
  | nil => exact hleft
  | cons e late ih =>
    obtain ⟨he, hlate⟩ := cons_subset.mp hlate
    obtain ⟨⟨past', hpast, h'⟩, hsame | hnew⟩ := h.step hfresh he
    · exact ih h' (List.Subset.trans hbase hpast) (hsame.1 ▸ hleft) hlate
    · exact ih h' (List.Subset.trans hbase hpast) (fun hmem ↦ hnew (hbase hmem)) hlate

/-- While the review revision is the same, the review mode has not been touched. -/
theorem same_mode {mid late : List (Event U)} (hlate : mid ++ late ⊆ events)
    (hsame : (current (after db room c (mid ++ late)) room c).reviewRevision =
      (current db room c).reviewRevision) :
    (current (after db room c mid) room c).settings.reviewMode =
      (current db room c).settings.reviewMode := by
  induction mid generalizing db past with
  | nil => rfl
  | cons e mid ih =>
    obtain ⟨he, hlate⟩ := cons_subset.mp hlate
    obtain ⟨⟨past', hpast, h'⟩, ⟨hreview, hmode⟩ | hnew⟩ := h.step hfresh he
    · exact (ih h' hlate (hsame.trans hreview.symm)).trans hmode
    · exact absurd (hsame ▸ h.review) (h'.left_behind hfresh hpast hnew hlate)

end

end History

section Example

local instance : Hasch ℕ := ⟨fun _ _ ↦ 0⟩

/-- Polling is switched on and incoming work reviewed. -/
def polling : Configure ℕ := ⟨0, 1, 9, ⟨true, 120, .reviewAll⟩, 1000⟩

end Example

end Simmis.Git.Policies
