import Simmis.Schedules.Writer

/-!
# Consistent schedule rows

An occurrence belongs to an activation whose cursor has passed it, its identity is the hash of its
slot, and an active pointer names an occurrence of its own activation. Every change of every
transaction keeps it.
-/

namespace Simmis.Schedules

open Option Runs Db Occurrence

variable {U : Type} [DecidableEq U] {h : Hasch U} {cadence : U → Cadence} {step : Step U}
  {db db' : Db U}

variable {slot : Slot} {now : ℤ}

theorem dueSlotLoop_ok {nextFireTime : ℤ → ℤ} {fuel : ℕ} {at_ : ℤ} {skipped : ℤ} (hdue : at_ ≤ now)
    (hok : dueSlotLoop nextFireTime now fuel at_ skipped = .ok slot) :
    at_ ≤ slot.intended ∧ slot.intended ≤ now ∧ now < slot.next := by
  induction fuel generalizing at_ skipped with
  | zero => simp [dueSlotLoop] at hok
  | succ fuel ih =>
    simp only [dueSlotLoop] at hok
    split at hok
    · simp at hok
    next hadvances =>
    split at hok
    · next hlast =>
      obtain rfl := Except.ok.inj hok
      exact ⟨le_refl _, hdue, hlast⟩
    · next hmore =>
      obtain ⟨hle, hslot⟩ := ih (not_lt.mp hmore) hok
      exact ⟨(not_not.mp hadvances).le.trans hle, hslot⟩

/-- The interval slot: the whole intervals that have elapsed are counted as coalesced. -/
theorem dueSlot_interval {n : ℤ} {hn : 0 < n} {firstFire : ℤ}
    (hok : dueSlot (.interval n hn) firstFire now = .ok (some slot)) :
    firstFire ≤ now ∧ slot.coalesced = (now - firstFire) / n ∧
      slot.intended = firstFire + slot.coalesced * n ∧ slot.next = slot.intended + n := by
  unfold dueSlot at hok
  split at hok
  · simp at hok
  next hdue =>
  have hdue : firstFire ≤ now := not_lt.mp hdue
  obtain ⟨elapsed, helapsed, hok⟩ := bind_eq_ok.mp hok
  obtain ⟨offset, hoffset, hok⟩ := bind_eq_ok.mp hok
  obtain ⟨at_, hat, hok⟩ := bind_eq_ok.mp hok
  obtain ⟨next, hnext, hok⟩ := bind_eq_ok.mp hok
  obtain rfl := long_ok helapsed
  obtain rfl := long_ok hoffset
  obtain rfl := long_ok hat
  obtain rfl := long_ok hnext
  obtain rfl := some.inj (Except.ok.inj hok)
  exact ⟨hdue, Int.tdiv_eq_ediv_of_nonneg (by omega), rfl, rfl⟩

/-- A due slot lies between the cursor and now, and the new cursor after now. -/
theorem dueSlot_ok {spec : Cadence} {firstFire : ℤ}
    (hok : dueSlot spec firstFire now = .ok (some slot)) :
    firstFire ≤ slot.intended ∧ slot.intended ≤ now ∧ now < slot.next := by
  cases spec with
  | interval n hn =>
    obtain ⟨hdue, hcoalesced, hintended, hnext⟩ := dueSlot_interval hok
    have hnonneg : 0 ≤ slot.coalesced := hcoalesced ▸ Int.ediv_nonneg (by omega) hn.le
    have hle : slot.coalesced * n ≤ now - firstFire := hcoalesced ▸ Int.ediv_mul_le _ hn.ne'
    have hlt : now - firstFire < (slot.coalesced + 1) * n :=
      hcoalesced ▸ Int.lt_ediv_add_one_mul_self _ hn
    have hmul : 0 ≤ slot.coalesced * n := Int.mul_nonneg hnonneg hn.le
    rw [add_mul, one_mul] at hlt
    omega
  | calendar nextFireTime =>
    unfold dueSlot at hok
    split at hok
    · simp at hok
    next hdue =>
    obtain ⟨slot', hslot, hok⟩ := bind_eq_ok.mp hok
    obtain rfl := some.inj (Except.ok.inj hok)
    exact dueSlotLoop_ok (not_lt.mp hdue) hslot

structure Db.Consistent (h : Hasch U) (db : Db U) : Prop where
  home : ∀ oid o, db.occurrences.get oid = some o → ∃ a,
    db.activations.get o.activation = some a ∧ o.revision = a.revision ∧ o.intendedAt < a.nextFire
  identity : ∀ oid o, db.occurrences.get oid = some o →
    oid = h.occurrence o.activation o.revision o.intendedAt
  active : ∀ aid a oid, db.activations.get aid = some a → a.activeOccurrence = some oid →
    ∃ o, db.occurrences.get oid = some o ∧ o.activation = aid
  queued : ∀ oid o, db.occurrences.get oid = some o → o.state = .pending → o.claim = none
  owned : ∀ oid o, db.occurrences.get oid = some o → o.state = .admitting → o.claim.isSome
  uncoalesced : db.Uncoalesced
  paired : db.Paired

theorem init_consistent : (init : Db U).Consistent h := by
  constructor <;> intro <;> simp [init]

/-- A slot that is due is not the identity of any recorded occurrence. -/
theorem Db.Consistent.fresh (hdb : db.Consistent h) {a : Activation U}
    (ha : db.activations.get a.id = some a)
    (hslot : dueSlot (cadence a.revision) a.nextFire now = .ok (some slot)) :
    db.occurrences.get (h.occurrence a.id a.revision slot.intended) = none := by
  rw [eq_none_iff_forall_not_mem]
  intro o ho
  obtain ⟨a', ha', hrevision, hpassed⟩ := hdb.home _ o ho
  obtain ⟨hid, -, hintended⟩ := h.occurrence_injective (hdb.identity _ o ho)
  rw [← hid, ha] at ha'
  obtain rfl := some.inj ha'
  have := (dueSlot_ok hslot).1
  omega

/-- Recording a due slot leaves every recorded occurrence in place. -/
theorem Db.Consistent.record_prior (hdb : db.Consistent h) {a : Activation U}
    (ha : db.activations.get a.id = some a)
    (hslot : dueSlot (cadence a.revision) a.nextFire now = .ok (some slot)) {coalesced : ℤ}
    {busy : Bool} {prior : Occurrence U} {oid : U} (hprior : db.occurrences.get oid = some prior) :
    (db.record h a slot now coalesced busy).occurrences.get oid = some prior := by
  rw [record_occurrences, if_neg, hprior]
  rintro rfl
  simp [hdb.fresh ha hslot] at hprior

/-- A patch that still names one of its own occurrences keeps the invariant. -/
theorem Db.Consistent.write_activation (hdb : db.Consistent h) {a : Activation U}
    {fields : Activation U → Activation U} (ha : db.activations.get a.id = some a)
    (hfields : ∀ r, Activation.Tuned r (fields r))
    (hactive : (fields a).activeOccurrence = a.activeOccurrence ∨
      (fields a).activeOccurrence = none) : (db.write (.activation a.id fields)).Consistent h := by
  have hget (x : U) : (db.write (.activation a.id fields)).activations.get x =
      if x = a.id then some (fields a) else db.activations.get x := by
    rw [get_write_activation fun r ↦ (hfields r).id, ha]
    rfl
  constructor
  · intro oid o ho
    obtain ⟨b, hb, hrevision, hpassed⟩ := hdb.home oid o ho
    rw [hget]
    split
    · next hhome =>
      rw [hhome, ha] at hb
      obtain rfl := some.inj hb
      exact ⟨fields a, rfl, by rw [(hfields a).revision, hrevision],
        by rw [(hfields a).nextFire]; exact hpassed⟩
    · exact ⟨b, hb, hrevision, hpassed⟩
  · exact hdb.identity
  · intro aid b oid hb hpointer
    rw [hget] at hb
    split at hb
    · next hid =>
      obtain rfl := some.inj hb
      rcases hactive with hactive | hactive
      · exact hid ▸ hdb.active a.id a oid ha (hactive ▸ hpointer)
      · simp [hactive] at hpointer
    · exact hdb.active aid b oid hb hpointer
  · exact hdb.queued
  · exact hdb.owned
  · exact hdb.uncoalesced
  · exact hdb.paired

/-- A patch of an occurrence keeps the invariant when the row itself stays consistent. -/
theorem Db.Consistent.write_occurrence (hdb : db.Consistent h) {o : Occurrence U}
    {fields : Occurrence U → Occurrence U} (ho : db.occurrences.get o.id = some o)
    (hid : ∀ r, (fields r).id = r.id) (hactivation : (fields o).activation = o.activation)
    (hrevision : (fields o).revision = o.revision)
    (hintended : (fields o).intendedAt = o.intendedAt)
    (hqueued : (fields o).state = .pending → (fields o).claim = none)
    (howned : (fields o).state = .admitting → (fields o).claim.isSome)
    (huncoalesced : (fields o).reason = some .coalesced →
      (fields o).state = .skipped ∧ (fields o).claim = none)
    (hpaired : (fields o).inputRef.isSome = (fields o).inputRevision.isSome) :
    (db.write (.occurrence o.id fields)).Consistent h := by
  have hget (x : U) : (db.write (.occurrence o.id fields)).occurrences.get x =
      if x = o.id then some (fields o) else db.occurrences.get x := by
    rw [get_write_occurrence hid, ho]
    rfl
  -- every row is either an old one or the patched one
  have hrow {x : U} {q : Occurrence U}
      (hq : (db.write (.occurrence o.id fields)).occurrences.get x = some q) :
      db.occurrences.get x = some q ∨ x = o.id ∧ q = fields o := by
    rw [hget] at hq
    split at hq
    · next hx => exact .inr ⟨hx, (some.inj hq).symm⟩
    · exact .inl hq
  constructor
  · intro x q hq
    rcases hrow hq with hq | ⟨rfl, rfl⟩
    · exact hdb.home x q hq
    · rw [hactivation, hrevision, hintended]
      exact hdb.home o.id o ho
  · intro x q hq
    rcases hrow hq with hq | ⟨rfl, rfl⟩
    · exact hdb.identity x q hq
    · rw [hactivation, hrevision, hintended]
      exact hdb.identity o.id o ho
  · intro aid a x ha hpointer
    obtain ⟨q, hq, hhome⟩ := hdb.active aid a x ha hpointer
    rw [hget]
    split
    · next hx =>
      obtain rfl := some.inj ((hx ▸ hq).symm.trans ho)
      exact ⟨fields q, rfl, by rw [hactivation, hhome]⟩
    · exact ⟨q, hq, hhome⟩
  · intro x q hq
    rcases hrow hq with hq | ⟨rfl, rfl⟩
    · exact hdb.queued x q hq
    · exact hqueued
  · intro x q hq
    rcases hrow hq with hq | ⟨rfl, rfl⟩
    · exact hdb.owned x q hq
    · exact howned
  · intro x q hq
    rcases hrow hq with hq | ⟨rfl, rfl⟩
    · exact hdb.uncoalesced x q hq
    · exact huncoalesced
  · intro x q hq
    rcases hrow hq with hq | ⟨rfl, rfl⟩
    · exact hdb.paired x q hq
    · exact hpaired

/-- Recording a due slot and moving the cursor past it. -/
theorem Db.Consistent.record (hdb : db.Consistent h) {a : Activation U}
    (ha : db.activations.get a.id = some a)
    (hslot : dueSlot (cadence a.revision) a.nextFire now = .ok (some slot)) (coalesced : ℤ)
    (busy : Bool) : (db.record h a slot now coalesced busy).Consistent h := by
  have hfresh := hdb.fresh ha hslot
  obtain ⟨hpassed, hdue, hnext⟩ := dueSlot_ok hslot
  have hoccurrence := record_occurrences h db a slot now coalesced busy
  have hactivation := record_activations h ha slot now coalesced busy
  set oid := h.occurrence a.id a.revision slot.intended with hoid
  set row := fired oid a.id a.revision slot now coalesced busy with hrow
  set db' := db.record h a slot now coalesced busy
  have hcases {x : U} {q : Occurrence U} (hq : db'.occurrences.get x = some q) :
      db.occurrences.get x = some q ∨ x = oid ∧ q = row := by
    rw [hoccurrence] at hq
    split at hq
    · next hx => exact .inr ⟨hx, (some.inj hq).symm⟩
    · exact .inl hq
  constructor
  · intro x q hq
    rcases hcases hq with hq | ⟨rfl, rfl⟩
    · obtain ⟨b, hb, hrevision, hlt⟩ := hdb.home x q hq
      rw [hactivation]
      split
      · next hhome =>
        rw [hhome, ha] at hb
        obtain rfl := some.inj hb
        refine ⟨_, rfl, hrevision, ?_⟩
        change q.intendedAt < slot.next
        omega
      · exact ⟨b, hb, hrevision, hlt⟩
    · refine ⟨advance oid slot busy a, by rw [hactivation]; exact if_pos rfl, rfl, ?_⟩
      change slot.intended < slot.next
      omega
  · intro x q hq
    rcases hcases hq with hq | ⟨rfl, rfl⟩
    · exact hdb.identity x q hq
    · rfl
  · intro aid b x hb hpointer
    have hold {y : U} (hy : ∃ o, db.occurrences.get y = some o ∧ o.activation = aid) :
        ∃ o, db'.occurrences.get y = some o ∧ o.activation = aid := by
      obtain ⟨o, ho, hhome⟩ := hy
      rw [hoccurrence, if_neg (by rintro rfl; simp [hfresh] at ho)]
      exact ⟨o, ho, hhome⟩
    rw [hactivation] at hb
    split at hb
    · next hid =>
      obtain rfl := some.inj hb
      cases busy with
      | true => exact hold (hid ▸ hdb.active a.id a x ha hpointer)
      | false =>
        obtain rfl : oid = x := some.inj hpointer
        exact ⟨row, by rw [hoccurrence]; exact if_pos rfl, hid.symm⟩
    · exact hold (hdb.active aid b x hb hpointer)
  · intro x q hq
    rcases hcases hq with hq | ⟨rfl, rfl⟩
    · exact hdb.queued x q hq
    · exact fun _ ↦ rfl
  · intro x q hq
    rcases hcases hq with hq | ⟨rfl, rfl⟩
    · exact hdb.owned x q hq
    · cases busy <;> simp [hrow, fired]
  · intro x q hq
    rcases hcases hq with hq | ⟨rfl, rfl⟩
    · exact hdb.uncoalesced x q hq
    · cases busy <;> simp [hrow, fired]
  · intro x q hq
    rcases hcases hq with hq | ⟨rfl, rfl⟩
    · exact hdb.paired x q hq
    · rfl

theorem Change.consistent (hchange : Change h cadence step db db') (hdb : db.Consistent h) :
    db'.Consistent h := by
  cases hchange with
  | activate id room by_ revision targetRef now nextFire on hstep hnew =>
    have hget (x : U) := get_write_activate db
      (create id room by_ revision targetRef now nextFire on) x
    constructor
    · intro oid o ho
      obtain ⟨a, ha, hrest⟩ := hdb.home oid o ho
      refine ⟨a, ?_, hrest⟩
      rw [hget, if_neg]
      · exact ha
      · intro hid
        rw [hid, show (create id room by_ revision targetRef now nextFire on).id = id from rfl,
          hnew] at ha
        cases ha
    · exact hdb.identity
    · intro aid a oid ha hactive
      rw [hget] at ha
      split at ha
      · obtain rfl := some.inj ha
        cases hactive
      · exact hdb.active aid a oid ha hactive
    · exact hdb.queued
    · exact hdb.owned
    · exact hdb.uncoalesced
    · exact hdb.paired
  | tune a fields ha hfields hactive henabled => exact hdb.write_activation ha hfields (.inl hactive)
  | release a oid fields ha hfields hactive hnone hclosed =>
    exact hdb.write_activation ha hfields (.inr hnone)
  | note o fields ho hid hnoted =>
    refine hdb.write_occurrence ho hid hnoted.activation hnoted.revision hnoted.intendedAt ?_ ?_
      ?_ (hnoted.retained (hdb.paired o.id o ho))
    · rw [hnoted.state, hnoted.claim]
      exact hdb.queued o.id o ho
    · rw [hnoted.state, hnoted.claim]
      exact hdb.owned o.id o ho
    · rw [hnoted.reason, hnoted.state, hnoted.claim]
      exact hdb.uncoalesced o.id o ho
  | finish o fields ho hid hended hdecides =>
    exact hdb.write_occurrence ho hid hended.activation hended.revision hended.intendedAt
      (fun hstate ↦ absurd (.inl hstate) hended.closed)
      (fun hstate ↦ absurd (.inr hstate) hended.closed) (fun hreason ↦ absurd hreason hended.reason)
      (hended.retained (hdb.paired o.id o ho))
  | admitClaim o a claim hstep ho ha hstate henabled hactive =>
    refine hdb.write_occurrence ho (admitClaim_id claim) rfl rfl rfl
      (by simp [Occurrence.admitClaim]) (fun _ ↦ rfl) (fun hreason ↦ ?_)
      (hdb.paired o.id o ho)
    simp [(hdb.uncoalesced o.id o ho hreason).1] at hstate
  | fire a now slot busy hstep ha hslot hprior hbusy => exact hdb.record ha hslot _ busy
  | coalesce a prior now slot hstep ha hslot hactive hprior hstate =>
    have hfired := hdb.record ha hslot (slot.coalesced + 1) false
    exact hfired.write_occurrence (hdb.record_prior ha hslot hprior) supersede_id rfl rfl rfl
      (by simp [supersede]) (by simp [supersede]) (fun _ ↦ ⟨rfl, hdb.queued prior.id prior hprior hstate⟩)
      (hdb.paired prior.id prior hprior)
  | requests requests =>
    exact { hdb with }

theorem Changes.consistent (hchanges : Changes h cadence step db db') (hdb : db.Consistent h) :
    db'.Consistent h := by
  induction hchanges with
  | refl => exact hdb
  | tail _ hchange ih => exact hchange.consistent ih

theorem step_consistent (hdb : db.Consistent h) (step : Step U) (howned : step.Owned db) :
    (db.step h cadence step).Consistent h :=
  Changes.consistent (step_changes hdb.paired hdb.uncoalesced step howned) hdb

/-- Every run whose admissions are finished by their owners is consistent. -/
theorem run_consistent (steps : List (Step U))
    (howned : Along (Db.step h cadence) Step.Owned .init steps) :
    (run (Db.step h cadence) .init steps).Consistent h :=
  run_preserves_along Step.Owned (fun db ↦ db.Consistent h)
    (fun _ step hdb howned ↦ step_consistent hdb step howned) init_consistent howned

/-- Its identity, its slot and what it recorded are unchanged. -/
structure Occurrence.Advances (o o' : Occurrence U) : Prop extends Occurrence.Same o o' where
  claim : Kept o.claim o'.claim
  pending : o'.state = .pending → o.state = .pending
  admitting : o'.state = .admitting → o.Open

omit [DecidableEq U] in
theorem Occurrence.Advances.refl (o : Occurrence U) : o.Advances o :=
  { toSame := .refl o, claim := .refl _, pending := fun h ↦ h, admitting := .inr }

omit [DecidableEq U] in
theorem Occurrence.Advances.trans {a b c : Occurrence U} (h₁ : a.Advances b) (h₂ : b.Advances c) :
    a.Advances c where
  toSame := h₁.toSame.trans h₂.toSame
  claim := h₁.claim.trans h₂.claim
  pending h := h₁.pending (h₂.pending h)
  admitting h := (h₂.admitting h).elim (fun h ↦ .inl (h₁.pending h)) h₁.admitting

/-- Every occurrence is still recorded and has moved on. -/
def Db.Advances (db db' : Db U) : Prop :=
  ∀ oid o, db.occurrences.get oid = some o → ∃ o', db'.occurrences.get oid = some o' ∧ o.Advances o'

theorem Db.Advances.refl (db : Db U) : db.Advances db := fun _ o ho ↦ ⟨o, ho, .refl o⟩

theorem Db.Advances.trans {a b c : Db U} (h₁ : a.Advances b) (h₂ : b.Advances c) : a.Advances c := by
  intro oid o ho
  obtain ⟨o', ho', ho₁⟩ := h₁ oid o ho
  obtain ⟨o'', ho'', ho₂⟩ := h₂ oid o' ho'
  exact ⟨o'', ho'', ho₁.trans ho₂⟩

theorem Db.Advances.write_occurrence {o : Occurrence U} {fields : Occurrence U → Occurrence U}
    (ho : db.occurrences.get o.id = some o) (hid : ∀ r, (fields r).id = r.id)
    (hadvances : o.Advances (fields o)) : db.Advances (db.write (.occurrence o.id fields)) := by
  intro oid q hq
  rw [get_write_occurrence hid]
  split
  · next hoid =>
    obtain rfl := some.inj (ho.symm.trans (hoid ▸ hq))
    exact ⟨fields o, by rw [ho]; rfl, hadvances⟩
  · exact ⟨q, hq, .refl q⟩

theorem Change.advances (hchange : Change h cadence step db db') (hdb : db.Consistent h) :
    db.Advances db' := by
  cases hchange with
  | activate id room by_ revision targetRef now nextFire on hstep hnew => exact .refl db
  | tune a fields ha hfields hactive henabled => exact .refl db
  | release a oid fields ha hfields hactive hnone hclosed => exact .refl db
  | note o fields ho hid hnoted =>
    exact .write_occurrence ho hid
      { toSame := hnoted.toSame, claim := hnoted.claim ▸ .refl _,
        pending := fun hstate ↦ hnoted.state ▸ hstate,
        admitting := fun hstate ↦ .inr (hnoted.state ▸ hstate) }
  | finish o fields ho hid hended hdecides =>
    exact .write_occurrence ho hid
      { toSame := hended.toSame, claim := hended.claim ▸ .refl _,
        pending := fun hstate ↦ absurd (.inl hstate) hended.closed,
        admitting := fun hstate ↦ absurd (.inr hstate) hended.closed }
  | admitClaim o a claim hstep ho ha hstate henabled hactive =>
    refine .write_occurrence ho (admitClaim_id claim)
      { Occurrence.Same.refl o with
        claim := ?_, pending := by simp [Occurrence.admitClaim], admitting := fun _ ↦ .inl hstate }
    rw [hdb.queued o.id o ho hstate]
    exact .of_none _
  | fire a now slot busy hstep ha hslot hprior hbusy =>
    exact fun oid o ho ↦ ⟨o, hdb.record_prior ha hslot ho, .refl o⟩
  | coalesce a prior now slot hstep ha hslot hactive hprior hstate =>
    refine Db.Advances.trans (fun oid o ho ↦ ⟨o, hdb.record_prior ha hslot ho, .refl o⟩)
      (.write_occurrence (hdb.record_prior ha hslot hprior) supersede_id ?_)
    exact { Occurrence.Same.refl prior with
            claim := .refl _, pending := by simp [supersede], admitting := by simp [supersede] }
  | requests requests => exact .refl db

theorem Changes.advances (hchanges : Changes h cadence step db db') (hdb : db.Consistent h) :
    db.Advances db' := by
  induction hchanges with
  | refl => exact .refl db
  | tail hchanges hchange ih => exact ih.trans (hchange.advances (Changes.consistent hchanges hdb))

theorem step_advances (hdb : db.Consistent h) (step : Step U) (howned : step.Owned db) :
    db.Advances (db.step h cadence step) :=
  Changes.advances (step_changes hdb.paired hdb.uncoalesced step howned) hdb

end Simmis.Schedules
