import Simmis.Schedules.Consistency

/-!
# Every slot is counted once

The cursor of an interval schedule is its first fire time plus one interval for each slot that its
occurrences account for: an occurrence stands for itself, the slots that it coalesced and the queued
ones that it superseded.
-/

namespace Simmis.Schedules

open List Option Runs Occurrence Db Table Except

variable {U : Type} [DecidableEq U] {h : Hasch U} {cadence : U → Cadence} {step : Step U}
  {db db' : Db U}

/-- The recorded occurrences of an activation. -/
def Db.recorded (db : Db U) (aid : U) : List (Occurrence U) :=
  db.occurrences.select fun o ↦ o.activation = aid

/-- One for each occurrence and each slot coalesced, less the superseded. -/
def Db.slots (db : Db U) (aid : U) : ℤ :=
  ((db.recorded aid).map fun o ↦ 1 + o.coalesced).sum -
    ((db.recorded aid).filter fun o ↦ o.reason = some .coalesced).length

/-- The slots that one occurrence accounts for. -/
def Occurrence.weight (aid : U) (o : Occurrence U) : ℤ :=
  if o.activation = aid then 1 + o.coalesced - (if o.reason = some .coalesced then 1 else 0) else 0

theorem Db.slots_eq_total (db : Db U) (aid : U) :
    db.slots aid = db.occurrences.total (weight aid) := by
  unfold slots recorded select total
  induction db.occurrences.rows with
  | nil => rfl
  | cons o rows ih =>
    by_cases haid : o.activation = aid
    · by_cases hreason : o.reason = some .coalesced <;>
        simp [weight, haid, hreason, ← ih] <;> ring
    · simpa [weight, haid] using ih

variable {o : Occurrence U}

theorem slots_write_occurrence {fields : Occurrence U → Occurrence U}
    (ho : db.occurrences.get o.id = some o) (hid : ∀ r, (fields r).id = r.id) (aid : U) :
    (db.write (.occurrence o.id fields)).slots aid =
      db.slots aid + ((fields o).weight aid - o.weight aid) := by
  rw [slots_eq_total, slots_eq_total]
  exact total_modify hid ho _

omit [DecidableEq U] in
theorem Occurrence.weight_eq [DecidableEq U] {o' : Occurrence U} (hsame : o.Same o')
    (hreason : o'.reason = some .coalesced ↔ o.reason = some .coalesced) (aid : U) :
    o'.weight aid = o.weight aid := by
  simp only [weight, hsame.activation, hsame.coalesced, hreason]

theorem Occurrence.Ended.weight {o' : Occurrence U} (hended : o.Ended o')
    (huncoalesced : o.reason = some .coalesced → o.state = .skipped ∧ o.claim = none) (aid : U) :
    o'.weight aid = o.weight aid := by
  refine weight_eq hended.toSame ⟨fun hreason ↦ absurd hreason hended.reason, ?_⟩ aid
  intro hreason
  obtain ⟨hskipped, hclaim⟩ := huncoalesced hreason
  rcases hended.before with ⟨hpending, -⟩ | hclaimed
  · simp [hskipped] at hpending
  · simp [hclaim] at hclaimed

/-- A due slot adds its occurrence and the slots that it coalesced. -/
theorem slots_record (hdb : db.Consistent h) {a : Activation U} {now : ℤ} {slot : Slot}
    (ha : db.activations.get a.id = some a)
    (hslot : dueSlot (cadence a.revision) a.nextFire now = .ok (some slot)) (coalesced : ℤ)
    (busy : Bool) (aid : U) : (db.record h a slot now coalesced busy).slots aid =
      db.slots aid + if a.id = aid then 1 + coalesced else 0 := by
  have hfresh := hdb.fresh ha hslot
  rw [slots_eq_total, slots_eq_total]
  set row := fired (h.occurrence a.id a.revision slot.intended) a.id a.revision slot now coalesced
    busy with hrow
  change (db.occurrences.put row).total _ = _
  rw [total_put (show db.occurrences.get row.id = none from hfresh), add_comm]
  cases busy <;> simp [hrow, fired, weight]

/-- The activation, its cursor and its slots, for an interval of `n` from `f₀`. -/
structure Db.Counted (db : Db U) (aid revision : U) (f₀ n : ℤ) : Prop where
  cursor : ∃ a, db.activations.get aid = some a ∧ a.revision = revision ∧
    a.nextFire = f₀ + n * db.slots aid
  nonneg : 0 ≤ db.slots aid
  slot : ∀ oid o, db.occurrences.get oid = some o → o.activation = aid →
    ∃ i : ℕ, o.intendedAt = f₀ + n * i

variable {aid revision : U} {f₀ n : ℤ}

theorem Db.Counted.write_activation (hcounted : db.Counted aid revision f₀ n) {a : Activation U}
    {fields : Activation U → Activation U} (ha : db.activations.get a.id = some a)
    (hfields : ∀ r, Activation.Tuned r (fields r)) :
    (db.write (.activation a.id fields)).Counted aid revision f₀ n := by
  refine { hcounted with cursor := ?_ }
  obtain ⟨b, hb, hrevision, hnext⟩ := hcounted.cursor
  rw [get_write_activation fun r ↦ (hfields r).id]
  split
  · next hid =>
    rw [hid, ha] at hb
    obtain rfl := some.inj hb
    exact ⟨fields a, by simp [ha], by rw [(hfields a).revision, hrevision],
      by rw [(hfields a).nextFire]; exact hnext⟩
  · exact ⟨b, hb, hrevision, hnext⟩

theorem Db.Counted.write_occurrence (hcounted : db.Counted aid revision f₀ n)
    {fields : Occurrence U → Occurrence U} (ho : db.occurrences.get o.id = some o)
    (hid : ∀ r, (fields r).id = r.id) (hactivation : (fields o).activation = o.activation)
    (hintended : (fields o).intendedAt = o.intendedAt)
    (hweight : (fields o).weight aid = o.weight aid) :
    (db.write (.occurrence o.id fields)).Counted aid revision f₀ n := by
  have hslots : (db.write (.occurrence o.id fields)).slots aid = db.slots aid := by
    rw [slots_write_occurrence ho hid, hweight]
    ring
  refine ⟨?_, hslots ▸ hcounted.nonneg, fun x q hq hhome ↦ ?_⟩
  · rw [hslots]
    exact hcounted.cursor
  · rw [get_write_occurrence hid] at hq
    split at hq
    · obtain rfl : fields o = q := by simpa [ho] using hq
      rw [hintended]
      exact hcounted.slot o.id o ho (hactivation ▸ hhome)
    · exact hcounted.slot x q hq hhome

variable {hn : 0 < n}

/-- A due slot moves the cursor by one interval for each slot it accounts for. -/
theorem Db.Counted.fire (hcounted : db.Counted aid revision f₀ n)
    (hcadence : cadence revision = .interval n hn) {a : Activation U} {now : ℤ} {slot : Slot}
    (ha : db.activations.get a.id = some a)
    (hslot : dueSlot (cadence a.revision) a.nextFire now = .ok (some slot))
    (hslots : db'.slots aid = db.slots aid + if a.id = aid then 1 + slot.coalesced else 0)
    (hactivation : ∀ x, db'.activations.get x = if x = a.id then some { a with
        nextFire := slot.next, lastOccurrence := (db'.activations.get x).bind (·.lastOccurrence),
        activeOccurrence := (db'.activations.get x).bind (·.activeOccurrence) }
      else db.activations.get x)
    (hoccurrence : ∀ x q, db'.occurrences.get x = some q →
      (∃ o, db.occurrences.get x = some o ∧ q.activation = o.activation ∧
        q.intendedAt = o.intendedAt) ∨ q.activation = a.id ∧ q.intendedAt = slot.intended) :
    db'.Counted aid revision f₀ n := by
  obtain ⟨b, hb, hrevision, hnext⟩ := hcounted.cursor
  have hold {x : U} {q : Occurrence U} (hq : ∃ o, db.occurrences.get x = some o ∧
      q.activation = o.activation ∧ q.intendedAt = o.intendedAt) (hhome : q.activation = aid) :
      ∃ i : ℕ, q.intendedAt = f₀ + n * i := by
    obtain ⟨o, ho, hactivation, hintended⟩ := hq
    rw [hintended]
    exact hcounted.slot x o ho (hactivation ▸ hhome)
  by_cases haid : a.id = aid
  · rw [haid] at ha
    obtain rfl := some.inj (ha.symm.trans hb)
    rw [hrevision, hcadence] at hslot
    obtain ⟨hdue, hcoalesced, hintended, hafter⟩ := dueSlot_interval hslot
    have hnonneg : 0 ≤ slot.coalesced := hcoalesced ▸ Int.ediv_nonneg (by omega) hn.le
    have hslots_nonneg := hcounted.nonneg
    rw [if_pos haid] at hslots
    have hcursor := hactivation aid
    rw [if_pos haid.symm] at hcursor
    refine ⟨⟨_, hcursor, hrevision, ?_⟩, by omega, ?_⟩
    · rw [hafter, hintended, hnext, hslots]
      ring
    · intro x q hq hhome
      rcases hoccurrence x q hq with hq | ⟨-, hq⟩
      · exact hold hq hhome
      · refine ⟨(db.slots aid + slot.coalesced).toNat, ?_⟩
        rw [Int.toNat_of_nonneg (by omega), hq, hintended, hnext]
        ring
  · rw [if_neg haid, add_zero] at hslots
    refine ⟨⟨b, ?_, hrevision, by rw [hslots]; exact hnext⟩, hslots ▸ hcounted.nonneg, ?_⟩
    · rw [hactivation, if_neg fun hid ↦ haid hid.symm, hb]
    · intro x q hq hhome
      rcases hoccurrence x q hq with hq | ⟨hq, -⟩
      · exact hold hq hhome
      · exact absurd (hq.symm.trans hhome) haid

theorem Change.counted (hchange : Change h cadence step db db') (hdb : db.Consistent h)
    (hcadence : cadence revision = .interval n hn) (hcounted : db.Counted aid revision f₀ n) :
    db'.Counted aid revision f₀ n := by
  cases hchange with
  | activate id room by_ revision' targetRef now nextFire on hstep hnew =>
    refine { hcounted with cursor := ?_ }
    obtain ⟨b, hb, hrest⟩ := hcounted.cursor
    refine ⟨b, ?_, hrest⟩
    rw [get_write_activate, if_neg]
    · exact hb
    · intro haid
      rw [haid] at hb
      simp [create, hnew] at hb
  | tune a fields ha hfields hactive henabled => exact hcounted.write_activation ha hfields
  | release a oid fields ha hfields hactive hnone hclosed =>
    exact hcounted.write_activation ha hfields
  | note o fields ho hid hnoted =>
    exact hcounted.write_occurrence ho hid hnoted.activation hnoted.intendedAt
      (weight_eq hnoted.toSame (by rw [hnoted.reason]) aid)
  | finish o fields ho hid hended hdecides =>
    exact hcounted.write_occurrence ho hid hended.activation hended.intendedAt
      (hended.weight (hdb.uncoalesced o.id o ho) aid)
  | admitClaim o a claim hstep ho ha hstate henabled hactive =>
    exact hcounted.write_occurrence ho (admitClaim_id claim) rfl rfl rfl
  | fire a now slot busy hstep ha hslot hprior hbusy =>
    refine hcounted.fire hcadence ha hslot (slots_record hdb ha hslot _ busy aid) (fun x ↦ ?_) ?_
    · rw [record_activations h ha]
      split <;> rfl
    · intro x q hq
      rw [record_occurrences] at hq
      split at hq
      · exact .inr (some.inj hq ▸ ⟨rfl, rfl⟩)
      · exact .inl ⟨q, hq, rfl, rfl⟩
  | coalesce a prior now slot hstep ha hslot hactive hprior hstate =>
    have hhome : prior.activation = a.id := by
      obtain ⟨o, ho, hhome⟩ := hdb.active a.id a prior.id ha hactive
      exact some.inj (hprior.symm.trans ho) ▸ hhome
    refine hcounted.fire hcadence ha hslot ?_ (fun x ↦ ?_) ?_
    · have hreason : prior.reason ≠ some .coalesced := fun hreason ↦ by
        simp [(hdb.uncoalesced _ _ hprior hreason).1] at hstate
      rw [slots_write_occurrence (hdb.record_prior ha hslot hprior) supersede_id,
        slots_record hdb ha hslot]
      simp only [weight, supersede, hhome, hreason]
      split
      · simp
        ring
      · simp
    · rw [write_occurrence_activations, record_activations h ha]
      split <;> rfl
    · intro x q hq
      rw [get_write_occurrence supersede_id, hdb.record_prior ha hslot hprior] at hq
      split at hq
      · next hx =>
        obtain rfl := some.inj hq
        exact .inl ⟨prior, hx ▸ hprior, rfl, rfl⟩
      · rw [record_occurrences] at hq
        split at hq
        · exact .inr (some.inj hq ▸ ⟨rfl, rfl⟩)
        · exact .inl ⟨q, hq, rfl, rfl⟩
  | requests requests => exact { hcounted with }

theorem Changes.counted (hchanges : Changes h cadence step db db') (hdb : db.Consistent h)
    (hcadence : cadence revision = .interval n hn) (hcounted : db.Counted aid revision f₀ n) :
    db'.Counted aid revision f₀ n := by
  induction hchanges with
  | refl => exact hcounted
  | tail hchanges hchange ih =>
    exact hchange.counted (Changes.consistent hchanges hdb) hcadence ih

theorem step_counted (hdb : db.Consistent h) (step : Step U) (howned : step.Owned db)
    (hcadence : cadence revision = .interval n hn) (hcounted : db.Counted aid revision f₀ n) :
    (db.step h cadence step).Counted aid revision f₀ n :=
  Changes.counted (step_changes hdb.paired hdb.uncoalesced step howned) hdb hcadence hcounted

/-- A new activation has accounted for no slot. -/
theorem counted_create (hdb : db.Consistent h) {row : Activation U}
    (hnew : db.activations.get row.id = none) :
    (db.write (.activate row)).Counted row.id row.revision row.nextFire n := by
  have hnone (o : Occurrence U) (ho : o ∈ db.occurrences.rows) : o.activation ≠ row.id := by
    intro hhome
    obtain ⟨a, ha, -⟩ := hdb.home o.id o (get_eq_some_iff.mpr ⟨ho, rfl⟩)
    simp [hhome, hnew] at ha
  have hslots : (db.write (.activate row)).slots row.id = 0 := by
    have hrecorded : db.recorded row.id = [] := by
      simpa [recorded, select, filter_eq_nil_iff] using hnone
    change db.slots row.id = 0
    simp [slots, hrecorded]
  refine ⟨⟨row, by rw [get_write_activate, if_pos rfl], rfl, by rw [hslots]; ring⟩, hslots.ge, ?_⟩
  intro oid o ho hhome
  exact absurd hhome (hnone o (get_eq_some_iff.mp ho).1)

/-- Only a due step records an occurrence, for a slot of its activation. -/
theorem Change.creates (hchange : Change h cadence step db db') {oid : U}
    (hnone : db.occurrences.get oid = none) (ho : db'.occurrences.get oid = some o) :
    ∃ a now slot, step = .due a.id a.revision now ∧ db.activations.get a.id = some a ∧
      dueSlot (cadence a.revision) a.nextFire now = .ok (some slot) ∧ o.activation = a.id ∧
      o.intendedAt = slot.intended ∧
      ∃ a', db'.activations.get a.id = some a' ∧ a'.nextFire = slot.next := by
  have hpatch {q : Occurrence U} {fields : Occurrence U → Occurrence U}
      (hq : db.occurrences.get q.id = some q)
      (ho : (db.write (.occurrence q.id fields)).occurrences.get oid = some o)
      (hid : ∀ r, (fields r).id = r.id) : False := by
    rw [get_write_occurrence hid] at ho
    split at ho
    · next heq =>
      rw [heq, hq] at hnone
      cases hnone
    · simp [hnone] at ho
  have hrecord {a : Activation U} {slot : Slot} {now coalesced : ℤ} {busy : Bool}
      (ha : db.activations.get a.id = some a)
      (ho : (db.record h a slot now coalesced busy).occurrences.get oid = some o) :
      o.activation = a.id ∧ o.intendedAt = slot.intended ∧
        ∃ a', (db.record h a slot now coalesced busy).activations.get a.id = some a' ∧
          a'.nextFire = slot.next := by
    rw [record_occurrences] at ho
    split at ho
    · obtain rfl := some.inj ho
      exact ⟨rfl, rfl, _, by rw [record_activations h ha, if_pos rfl], rfl⟩
    · simp [hnone] at ho
  cases hchange with
  | activate id room by_ revision targetRef now nextFire on hstep hnew => simp [hnone] at ho
  | tune a fields ha hfields hactive henabled => simp [hnone] at ho
  | release a oid' fields ha hfields hactive hnone' hclosed => simp [hnone] at ho
  | note q fields hq hid hnoted => exact (hpatch hq ho hid).elim
  | finish q fields hq hid hended hdecides => exact (hpatch hq ho hid).elim
  | admitClaim q a claim hstep hq ha hstate henabled hactive =>
    exact (hpatch hq ho (admitClaim_id claim)).elim
  | fire a now slot busy hstep ha hslot hprior hbusy =>
    exact ⟨a, now, slot, hstep, ha, hslot, hrecord ha ho⟩
  | coalesce a prior now slot hstep ha hslot hactive hprior hstate =>
    rw [get_write_occurrence supersede_id] at ho
    split at ho
    · next heq => simp [← heq, hnone] at hprior
    · exact ⟨a, now, slot, hstep, ha, hslot, hrecord ha ho⟩
  | requests requests => simp [hnone] at ho

theorem step_creates (hdb : db.Consistent h) (howned : step.Owned db) {oid : U}
    (hnone : db.occurrences.get oid = none)
    (ho : (db.step h cadence step).occurrences.get oid = some o) :
    ∃ a now slot, step = .due a.id a.revision now ∧ db.activations.get a.id = some a ∧
      dueSlot (cadence a.revision) a.nextFire now = .ok (some slot) ∧ o.activation = a.id ∧
      o.intendedAt = slot.intended ∧
      ∃ a', (db.step h cadence step).activations.get a.id = some a' ∧ a'.nextFire = slot.next := by
  by_cases hdue : ∃ id revision now, step = .due id revision now
  · obtain ⟨id, revision, now, rfl⟩ := hdue
    unfold step at ho ⊢
    dsimp only at ho ⊢
    split at ho
    · next hok =>
      rcases dueTx_change hok with rfl | hchange
      · simp [hnone] at ho
      · exact hchange.creates hnone ho
    · simp [hnone] at ho
  · have hmissing : (db.step h cadence step).occurrences.get oid = none := by
      have hchanges : Changes h cadence step db (db.step h cadence step) :=
        step_changes hdb.paired hdb.uncoalesced step howned
      generalize db.step h cadence step = db' at hchanges
      induction hchanges with
      | refl => exact hnone
      | tail _ hchange ih =>
        rw [eq_none_iff_forall_not_mem]
        intro o ho
        obtain ⟨a, now, slot, hstep, -⟩ := hchange.creates ih ho
        exact hdue ⟨_, _, _, hstep⟩
    simp [hmissing] at ho

/-- The occurrence that `due-tx` writes has a new identity. -/
theorem dueTx_fresh (hdb : db.Consistent h) {id revision : U} {now : ℤ} {writes : Tx U}
    (hok : dueTx h db id revision (cadence revision) now = .ok writes) {row : Occurrence U}
    (hrow : .occur row ∈ writes) : db.occurrences.get row.id = none := by
  unfold dueTx at hok
  split at hok
  · obtain rfl := ok.inj hok
    simp at hrow
  next a ha =>
  obtain rfl := key_of_get ha
  split at hok
  · next hdue =>
    obtain ⟨-, rfl⟩ := hdue
    obtain ⟨slot, hslot, hok⟩ := bind_eq_ok.mp hok
    split at hok
    · obtain rfl := ok.inj hok
      simp at hrow
    next slot =>
    have hfresh := hdb.fresh ha hslot
    split at hok
    · split at hok
      · obtain ⟨coalesced, -, hok⟩ := bind_eq_ok.mp hok
        obtain rfl := ok.inj hok
        obtain rfl : row = fired _ _ _ _ _ _ _ := by simpa using hrow
        exact hfresh
      · obtain rfl := ok.inj hok
        obtain rfl : row = fired _ _ _ _ _ _ _ := by simpa using hrow
        exact hfresh
    · obtain rfl := ok.inj hok
      obtain rfl : row = fired _ _ _ _ _ _ _ := by simpa using hrow
      exact hfresh
  · obtain rfl := ok.inj hok
    simp at hrow

/-- The activation stays counted over every run from its creation. -/
theorem run_counted (before after : List (Step U)) {id room by_ revision targetRef : U}
    {now f₀ n : ℤ} {on : Bool} {hn : 0 < n} (hcadence : cadence revision = .interval n hn)
    (hcreated : createTx (run (Db.step h cadence) .init before)
        (create id room by_ revision targetRef now f₀ on) =
      .ok [.activate (create id room by_ revision targetRef now f₀ on)])
    (howned : Along (Db.step h cadence) Step.Owned .init
      (before ++ .create id room by_ revision targetRef now f₀ on :: after)) :
    (run (Db.step h cadence) .init
        (before ++ .create id room by_ revision targetRef now f₀ on :: after)).Consistent h ∧
      (run (Db.step h cadence) .init
        (before ++ .create id room by_ revision targetRef now f₀ on :: after)).Counted
          id revision f₀ n := by
  rw [along_append, along_cons] at howned
  obtain ⟨hbefore, -, hafter⟩ := howned
  have hdb := run_consistent before hbefore
  rw [run_append, run_cons]
  set db := run (step h cadence) .init before
  have hstep : db.step h cadence (.create id room by_ revision targetRef now f₀ on) =
      db.write (.activate (create id room by_ revision targetRef now f₀ on)) := by
    simp only [step, Step.tx, hcreated, apply_cons, apply_nil]
  have hnew : db.activations.get id = none := by
    unfold createTx at hcreated
    split at hcreated
    · split at hcreated <;> simp at hcreated
    · next hnew => exact hnew
  have hstart : (db.step h cadence (.create id room by_ revision targetRef now f₀ on)).Consistent h ∧
      (db.step h cadence (.create id room by_ revision targetRef now f₀ on)).Counted
        id revision f₀ n :=
    ⟨step_consistent hdb _ trivial, by rw [hstep]; exact counted_create hdb hnew⟩
  exact run_preserves_along Step.Owned (fun db ↦ db.Consistent h ∧ db.Counted id revision f₀ n)
    (fun db step hdb howned ↦ ⟨step_consistent hdb.1 step howned,
      step_counted hdb.1 step howned hcadence hdb.2⟩) hstart hafter

/-- What an interval schedule guarantees: its cursor counts the slots, its occurrences lie on them
and are not rewritten, and a new one was due, comes last and has a fresh identity. -/
structure Db.Exact (h : Hasch U) (cadence : U → Cadence) (db : Db U) (id revision : U) (f₀ n : ℤ) :
    Prop where
  cursor : ∃ a, db.activations.get id = some a ∧ a.revision = revision ∧
    a.nextFire = f₀ + n * db.slots id
  slot : ∀ oid o, db.occurrences.get oid = some o → o.activation = id →
    ∃ i : ℕ, o.intendedAt = f₀ + n * i
  kept : ∀ step : Step U, step.Owned db → db.Advances (db.step h cadence step)
  next : ∀ step : Step U, step.Owned db → ∀ oid o, db.occurrences.get oid = none →
    (db.step h cadence step).occurrences.get oid = some o → o.activation = id →
    ∃ now a, step = .due id revision now ∧ (db.step h cadence step).activations.get id = some a ∧
      o.intendedAt ≤ now ∧ now < a.nextFire ∧
      ∀ oid' o', db.occurrences.get oid' = some o' → o'.activation = id →
        o'.intendedAt < o.intendedAt
  fresh : ∀ id' revision' now writes row,
    dueTx h db id' revision' (cadence revision') now = .ok writes → .occur row ∈ writes →
    db.occurrences.get row.id = none

/-- A hash into sequences: the length of the first part separates the two. -/
def Hasch.sequences : Hasch (List ℤ) where
  occurrence a r t := t :: (a.length : ℤ) :: (a ++ r)
  occurrence_injective {a a' r r' t t'} heq := by
    simp only [List.cons.injEq, Nat.cast_inj] at heq
    obtain ⟨ht, hlength, happend⟩ := heq
    obtain ⟨ha, hr⟩ := List.append_inj happend hlength
    exact ⟨ha, hr, ht⟩
  request party room client := party ++ room ++ client
  binding facts := facts.occurrence ++ facts.batch

end Simmis.Schedules
