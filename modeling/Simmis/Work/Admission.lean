import Simmis.Work.Requests

/-!
# At-most-once admission

A request row leaves `:admitting` at most once, and a call of `claim!` reports success only when a
committed row carries its token. At most one call schedules the work, whatever the connection throws
and however stale the reads are.
-/

namespace Simmis.Work

open List Option Clients Except Row Tx Table

variable {U I : Type} [DecidableEq U]

/-- The identity of a request stays, a decided state stays, and so does its job. -/
structure Row.Advances (old new : Row U) : Prop where
  claim : new.claim = old.claim
  intentId : new.intentId = old.intentId
  kind : new.kind = old.kind
  payloadRef : new.payloadRef = old.payloadRef
  state : old.state ≠ .admitting → new.state = old.state
  job : Kept old.job new.job

omit [DecidableEq U] in
theorem Row.Advances.refl (row : Row U) : row.Advances row :=
  ⟨rfl, rfl, rfl, rfl, fun _ ↦ rfl, .refl _⟩

omit [DecidableEq U] in
theorem Row.Advances.trans {a b c : Row U} (h₁ : a.Advances b) (h₂ : b.Advances c) :
    a.Advances c where
  claim := h₂.claim.trans h₁.claim
  intentId := h₂.intentId.trans h₁.intentId
  kind := h₂.kind.trans h₁.kind
  payloadRef := h₂.payloadRef.trans h₁.payloadRef
  state hdecided := by
    have hb := h₁.state hdecided
    rw [← hb] at hdecided ⊢
    exact h₂.state hdecided
  job := h₁.job.trans h₂.job

/-- No request disappears, and each one advances. -/
abbrev Advances (db db' : Db U) : Prop := Table.Grows Row.Advances db db'

theorem Advances.refl (db : Db U) : Advances db db := Table.Grows.refl Row.Advances.refl db

theorem Advances.trans {a b c : Db U} (h₁ : Advances a b) (h₂ : Advances b c) : Advances a c :=
  Table.Grows.trans (fun _ _ _ hab hbc ↦ hab.trans hbc) h₁ h₂

variable {db : Db U}

theorem casAdmitting_eq_ok {id : U} {row : Row U} :
    casAdmitting db id = .ok row ↔ db.get id = some row ∧ row.state = .admitting := by
  unfold casAdmitting
  cases hget : db.get id with
  | none => simp
  | some found =>
    simp only [bind_eq_ok, require_eq_ok, exists_const]
    constructor
    · rintro ⟨hstate, hrow⟩
      obtain rfl := ok.inj hrow
      exact ⟨rfl, hstate⟩
    · rintro ⟨hrow, hstate⟩
      obtain rfl := some.inj hrow
      exact ⟨hstate, rfl⟩

theorem claimTx_eq_ok {row : Row U} {digest : U} {rows : List (Row U)}
    (hok : claimTx db row digest = .ok rows) : db.get row.id = none ∧ rows = [row] ∨
      (∃ found, db.get row.id = some found ∧ digest = found.intentId) ∧ rows = [] := by
  unfold claimTx at hok
  split at hok
  · next found hfound =>
    simp only [sameIntent, bind_eq_ok, require_eq_ok, exists_const] at hok
    obtain ⟨-, ⟨hdigest, -⟩, hrows⟩ := hok
    exact .inr ⟨⟨found, hfound, hdigest⟩, (ok.inj hrows).symm⟩
  · next hnone => exact .inl ⟨hnone, (ok.inj hok).symm⟩

variable {db' : Db U}

/-- A transaction inserts a new row, leaves everything alone, or patches one row. -/
theorem exec_cases {tx : Tx U} (hok : tx.exec db = .ok db') :
    (∃ row digest, tx = .claim row digest ∧ db.get row.id = none ∧ db' = db.put row) ∨ db' = db ∨
      (∃ id job row, tx = .recordJob id job ∧ db.get id = some row ∧ row.state = .admitting ∧
        row.job = none ∧ db' = db.modify id (submit job)) ∨
      (∃ id row, tx = .recordProvisioned id ∧ db.get id = some row ∧ row.state = .admitting ∧
        db' = db.modify id provision) ∨
      (∃ id incident row, tx = .interrupt id incident ∧ db.get id = some row ∧
        row.state = .admitting ∧ db' = db.modify id (Row.interrupt incident)) ∨
      ∃ id, tx = .markReturned id ∧ db' = db.modify id Row.markReturned := by
  cases tx with
  | claim row digest =>
    simp only [exec, bind_eq_ok] at hok
    obtain ⟨rows, hrows, hdb⟩ := hok
    obtain rfl := ok.inj hdb
    rcases claimTx_eq_ok hrows with ⟨hnone, rfl⟩ | ⟨-, rfl⟩
    · exact .inl ⟨row, digest, rfl, hnone, rfl⟩
    · exact .inr (.inl rfl)
  | recordJob id job =>
    simp only [exec, bind_eq_ok, require_eq_ok, exists_const, casAdmitting_eq_ok] at hok
    obtain ⟨row, ⟨hrow, hstate⟩, hjob, hdb⟩ := hok
    obtain rfl := ok.inj hdb
    exact .inr (.inr (.inl ⟨id, job, row, rfl, hrow, hstate, hjob, rfl⟩))
  | recordProvisioned id =>
    simp only [exec, bind_eq_ok, casAdmitting_eq_ok] at hok
    obtain ⟨row, ⟨hrow, hstate⟩, hdb⟩ := hok
    obtain rfl := ok.inj hdb
    exact .inr (.inr (.inr (.inl ⟨id, row, rfl, hrow, hstate, rfl⟩)))
  | interrupt id incident =>
    simp only [exec, bind_eq_ok, casAdmitting_eq_ok] at hok
    obtain ⟨row, ⟨hrow, hstate⟩, hdb⟩ := hok
    obtain rfl := ok.inj hdb
    exact .inr (.inr (.inr (.inr (.inl ⟨id, incident, row, rfl, hrow, hstate, rfl⟩))))
  | markReturned id =>
    obtain rfl := ok.inj hok
    exact .inr (.inr (.inr (.inr (.inr ⟨id, rfl, rfl⟩))))

/-- A row that was still admitting may be decided in any way that keeps its identity. -/
theorem decide_advances {id : U} {row : Row U} {f : Row U → Row U} (hrow : db.get id = some row)
    (hstate : row.state = .admitting) (hid : ∀ row, (f row).id = row.id)
    (hf : ∀ row, (f row).claim = row.claim ∧ (f row).intentId = row.intentId ∧
      (f row).kind = row.kind ∧ (f row).payloadRef = row.payloadRef) (hjob : Kept row.job (f row).job) :
    Advances db (db.modify id f) := by
  refine grows_modify Row.Advances.refl hid fun found hfound ↦ ?_
  obtain rfl := some.inj (hrow.symm.trans hfound)
  obtain ⟨hclaim, hintent, hkind, hpayload⟩ := hf row
  exact ⟨hclaim, hintent, hkind, hpayload, fun hne ↦ absurd hstate hne, hjob⟩

theorem exec_advances {tx : Tx U} (hok : tx.exec db = .ok db') : Advances db db' := by
  rcases exec_cases hok with ⟨row, digest, -, hnone, rfl⟩ | rfl |
    ⟨id, job, row, -, hrow, hstate, hjob, rfl⟩ | ⟨id, row, -, hrow, hstate, rfl⟩ |
    ⟨id, incident, row, -, hrow, hstate, rfl⟩ | ⟨id, -, rfl⟩
  · refine Table.grows_put Row.Advances.refl fun found hfound ↦ ?_
    rw [hnone] at hfound
    cases hfound
  · exact Advances.refl _
  · refine decide_advances hrow hstate (fun _ ↦ rfl) (fun _ ↦ ⟨rfl, rfl, rfl, rfl⟩) ?_
    rw [hjob]
    exact .of_none _
  · exact decide_advances hrow hstate (fun _ ↦ rfl) (fun _ ↦ ⟨rfl, rfl, rfl, rfl⟩) (.refl _)
  · exact decide_advances hrow hstate (fun _ ↦ rfl) (fun _ ↦ ⟨rfl, rfl, rfl, rfl⟩) (.refl _)
  · exact Table.grows_modify Row.Advances.refl (fun _ ↦ rfl)
      fun row _ ↦ ⟨rfl, rfl, rfl, rfl, fun _ ↦ rfl, .refl _⟩

variable {prepared : Prepared U I} {token : U} {l : Request U I} {n : ℕ}

section Issues

variable {host : Host U I} {known : Db U → Prop} {tx : Tx U}

theorem not_issues_readClaim : ¬ Issues known (readClaim prepared token) tx := by
  rintro ⟨db, -, htx⟩
  exact htx

theorem not_issues_getRequest {id : U} : ¬ Issues known (getRequest id) tx := by
  rintro ⟨db, -, htx⟩
  exact htx

omit [DecidableEq U] in
theorem claimRow_eq_ok {now : ℤ} {row : Row U} (hok : claimRow prepared token now = .ok row) :
    row.id = prepared.id ∧ row.claim = token ∧ row.intentId = prepared.digest ∧
      row.state = .admitting ∧ row.job = none := by
  simp only [claimRow, bind_eq_ok, require_eq_ok, exists_const] at hok
  obtain ⟨-, hrow⟩ := hok
  obtain rfl := ok.inj hrow
  exact ⟨rfl, rfl, rfl, rfl, rfl⟩

theorem issues_attempt {row : Row U} (hissues : Issues known (attempt host prepared row) tx) :
    tx = .claim { row with payloadRef := some (host.publishValue prepared.intent) }
      prepared.digest := by
  rcases hissues with htx | ⟨answer, htx⟩
  · exact htx
  · cases answer with
    | none => exact absurd htx not_issues_readClaim
    | some e =>
      obtain ⟨db, -, htx⟩ := htx
      dsimp only at htx
      split at htx
      · exact htx.elim
      · exact htx.elim
      · exact absurd htx not_issues_readClaim

/-- `claim!` inserts its own fresh row, and nothing else. -/
theorem issues_claim {input : Input U I} {now : ℤ}
    (hissues : Issues known (claim host token input now) tx) :
    ∃ row digest, tx = .claim row digest ∧ row.state = .admitting ∧ row.job = none := by
  unfold claim at hissues
  split at hissues
  · exact hissues.elim
  · split at hissues
    · exact hissues.elim
    · obtain ⟨db, -, hissues⟩ := hissues
      dsimp only at hissues
      split at hissues
      · exact hissues.elim
      · exact hissues.elim
      · split at hissues
        · exact hissues.elim
        · next row hrow =>
          obtain ⟨-, -, -, hstate, hjob⟩ := claimRow_eq_ok hrow
          exact ⟨_, _, issues_attempt hissues, hstate, hjob⟩

/-- `record-job!` submits its own job, after it read its own claim. -/
theorem issues_recordJob {id job : U} (hissues : Issues known (recordJob id token job) tx) :
    tx = .recordJob id job ∧ ∃ db row, known db ∧ db.get id = some row ∧ token = row.claim := by
  obtain ⟨db, hdb, hissues⟩ := hissues
  dsimp only at hissues
  split at hissues
  · exact hissues.elim
  · next row hrow =>
    split at hissues
    · next hholds =>
      refine ⟨?_, db, row, hdb, hrow, hholds.1⟩
      split at hissues
      · rcases hissues with htx | ⟨answer, htx⟩
        · exact htx
        · cases answer with
          | none => exact absurd htx not_issues_getRequest
          | some e =>
            obtain ⟨after, -, htx⟩ := htx
            dsimp only at htx
            split at htx
            · exact absurd htx not_issues_getRequest
            · exact htx.elim
      · exact absurd hissues not_issues_getRequest
    · exact hissues.elim

theorem issues_markReturned {id : U} (hissues : Issues known (markReturned id) tx) :
    tx = .markReturned id := by
  obtain ⟨db, -, hissues⟩ := hissues
  dsimp only at hissues
  split at hissues
  · exact hissues.elim
  · rcases hissues with htx | ⟨answer, htx⟩
    · exact htx
    · cases answer <;> exact htx.elim

theorem issues_recordProvisioned {id : U}
    (hissues : Issues known (recordProvisioned id token) tx) : tx = .recordProvisioned id := by
  obtain ⟨db, -, hissues⟩ := hissues
  dsimp only at hissues
  split at hissues
  · exact hissues.elim
  · split at hissues
    · split at hissues
      · rcases hissues with htx | ⟨answer, htx⟩
        · exact htx
        · cases answer with
          | none => exact absurd htx not_issues_getRequest
          | some e =>
            obtain ⟨after, -, htx⟩ := htx
            dsimp only at htx
            split at htx
            · exact absurd htx not_issues_getRequest
            · exact htx.elim
      · exact absurd hissues not_issues_getRequest
    · exact hissues.elim

theorem issues_interrupt {id : U} {incident : Option U}
    (hissues : Issues known (interrupt id incident) tx) : tx = .interrupt id incident := by
  obtain ⟨db, -, hissues⟩ := hissues
  dsimp only at hissues
  split at hissues
  · exact hissues.elim
  · split at hissues
    · rcases hissues with htx | ⟨answer, htx⟩
      · exact htx
      · cases answer with
        | none => exact htx.elim
        | some e =>
          dsimp only at htx
          split at htx
          · exact htx.elim
          · obtain ⟨after, -, htx⟩ := htx
            dsimp only at htx
            split at htx
            · exact htx.elim
            · exact htx.elim
    · exact hissues.elim

theorem issued_claim {row : Row U} {digest : U}
    (hissues : Issues known (l.call host n) (.claim row digest)) :
    row.state = .admitting ∧ row.job = none := by
  cases l with
  | claim input now =>
    obtain ⟨row', digest', heq, hrow⟩ := issues_claim hissues
    cases heq
    exact hrow
  | recordJob id token job => cases (issues_recordJob hissues).1
  | markReturned id => cases issues_markReturned hissues
  | recordProvisioned id token => cases issues_recordProvisioned hissues
  | interrupt id incident => cases issues_interrupt hissues

theorem issued_job {id job : U} (hissues : Issues known (l.call host n) (.recordJob id job)) :
    ∃ db row, known db ∧ db.get id = some row ∧ l = .recordJob id row.claim job := by
  cases l with
  | claim input now =>
    obtain ⟨row, digest, heq, -⟩ := issues_claim hissues
    cases heq
  | recordJob id' token job' =>
    obtain ⟨heq, db, row, hdb, hrow, rfl⟩ := issues_recordJob hissues
    cases heq
    exact ⟨db, row, hdb, hrow, rfl⟩
  | markReturned id => cases issues_markReturned hissues
  | recordProvisioned id token => cases issues_recordProvisioned hissues
  | interrupt id incident => cases issues_interrupt hissues

end Issues

/-- Submitted rows are those with a job, and the holder of the claim recorded it. -/
def Recorded (requested : Request U I → Prop) (db : Db U) : Prop :=
  ∀ id row, db.get id = some row → (row.state = .submitted ↔ row.job.isSome) ∧
    ∀ job, row.job = some job → requested (.recordJob id row.claim job)

theorem Recorded.mono {old new : Request U I → Prop} (hnew : ∀ l, old l → new l)
    (hdb : Recorded old db) : Recorded new db :=
  fun id row hrow ↦ ⟨(hdb id row hrow).1, fun job hjob ↦ hnew _ ((hdb id row hrow).2 job hjob)⟩

theorem recorded_modify {requested : Request U I → Prop} (hdb : Recorded requested db) {id : U}
    {f : Row U → Row U} (hid : ∀ row, (f row).id = row.id)
    (hf : ∀ row, db.get id = some row → ((f row).state = .submitted ↔ (f row).job.isSome) ∧
      ∀ job, (f row).job = some job → requested (.recordJob id (f row).claim job)) :
    Recorded requested (db.modify id f) := by
  intro id' row hrow
  rw [get_modify hid] at hrow
  split at hrow
  · next heq =>
    subst heq
    obtain ⟨found, hfound, rfl⟩ := map_eq_some_iff.mp hrow
    exact hf found hfound
  · exact hdb id' row hrow

theorem exec_recorded {host : Host U I} {known : Db U → Prop} {requested : Request U I → Prop}
    {tx : Tx U} (hknown : ∀ d, known d → Recorded requested d ∧ Advances d db) (hl : requested l)
    (hdb : known db) (hissues : Issues known (l.call host n) tx) (hok : tx.exec db = .ok db') :
    Recorded requested db' := by
  have hold := (hknown db hdb).1
  rcases exec_cases hok with ⟨row, digest, rfl, hnone, rfl⟩ | rfl |
    ⟨id, job, row, rfl, hrow, hstate, hjob, rfl⟩ | ⟨id, row, rfl, hrow, hstate, rfl⟩ |
    ⟨id, incident, row, rfl, hrow, hstate, rfl⟩ | ⟨id, rfl, rfl⟩
  · intro id found hfound
    rw [Table.get_put] at hfound
    split at hfound
    · obtain rfl := some.inj hfound
      obtain ⟨hstate, hjob⟩ := issued_claim hissues
      simp [hstate, hjob]
    · exact hold id found hfound
  · exact hold
  · obtain ⟨d, seen, hd, hseen, rfl⟩ := issued_job hissues
    obtain ⟨row', hrow', hadvances⟩ := (hknown d hd).2 id seen hseen
    obtain rfl := some.inj (hrow.symm.trans hrow')
    refine recorded_modify hold (fun _ ↦ rfl) fun found hfound ↦ ⟨by simp [Row.submit], ?_⟩
    rintro job' hjob'
    obtain rfl := some.inj hjob'
    obtain rfl := some.inj (hrow.symm.trans hfound)
    rw [show (row.submit job).claim = seen.claim from hadvances.claim]
    exact hl
  · refine recorded_modify hold (fun _ ↦ rfl) fun found hfound ↦ ?_
    obtain rfl := some.inj (hrow.symm.trans hfound)
    have hjob : row.job = none := by simpa [hstate] using (hold id row hrow).1
    simp [Row.provision, hjob]
  · refine recorded_modify hold (fun _ ↦ rfl) fun found hfound ↦ ?_
    obtain rfl := some.inj (hrow.symm.trans hfound)
    have hjob : row.job = none := by simpa [hstate] using (hold id row hrow).1
    simp [Row.interrupt, hjob]
  · exact recorded_modify hold (fun _ ↦ rfl) fun found hfound ↦ hold id found hfound

section Yields

variable {host : Host U I} {known : Db U → Prop}

def Input.id (host : Host U I) (input : Input U I) : U :=
  host.requestId input.party input.room input.clientId

def Input.retained (input : Input U I) : Retained U I :=
  ⟨input.kind, input.limits.getD {}, input.intent⟩

omit [DecidableEq U] in
theorem prepareClaim_eq_ok {input : Input U I} {prepared : Prepared U I}
    (hok : prepareClaim host input = .ok prepared) :
    input.id host = prepared.id ∧ host.digest input.retained = prepared.digest ∧
      input.limits = prepared.limits := by
  simp only [prepareClaim, bind_eq_ok] at hok
  obtain ⟨-, -, basisId, -, hprepared⟩ := hok
  obtain rfl := ok.inj hprepared
  exact ⟨rfl, rfl, rfl⟩

omit [DecidableEq U] in
theorem claimRow_eq_error {now : ℤ} {e : Exn U} (herror : claimRow prepared token now = .error e) :
    ¬ (prepared.limits.getD {}).Long ∧ e = .invalidLimit := by
  by_cases hlimits : (prepared.limits.getD {}).Long
  · simp [claimRow, require, hlimits, bind, Except.bind, pure, Except.pure] at herror
  · simp only [claimRow, require, hlimits, bind, bind, if_false] at herror
    exact ⟨hlimits, (error.inj herror).symm⟩

/-- A positive claim was read back from a committed row that carries the token. -/
def Backed (known : Db U → Prop) (id token : U) : Prop :=
  ∃ db row, known db ∧ db.get id = some row ∧ token = row.claim

theorem inspectClaim_eq_ok {db : Db U} {row : Row U}
    (hok : inspectClaim db prepared = .ok (some row)) :
    db.get prepared.id = some row ∧ prepared.digest = row.intentId := by
  unfold inspectClaim at hok
  split at hok
  · next found hfound =>
    simp only [sameIntent, bind_eq_ok, require_eq_ok, exists_const] at hok
    obtain ⟨r, ⟨hdigest, hr⟩, hrow⟩ := hok
    obtain rfl := ok.inj hr
    obtain rfl := some.inj (ok.inj hrow)
    exact ⟨hfound, hdigest⟩
  · cases hok

theorem yields_readClaim {row : Row U}
    (hyields : Yields (service host) known (readClaim prepared token) (.ok (.claimed row true))) :
    Backed known prepared.id token := by
  rcases hyields with hlost | ⟨db, hdb, hout⟩
  · cases hlost
  · cases hinspect : inspectClaim db prepared with
    | error e => simp [Yields, claimResult, hinspect, Except.map] at hout
    | ok found? =>
      cases found? with
      | none => simp [Yields, claimResult, hinspect, Except.map] at hout
      | some found =>
        have htoken : row = found ∧ token = found.claim := by
          simpa [Yields, claimResult, hinspect, Except.map] using hout
        exact ⟨db, found, hdb, (inspectClaim_eq_ok hinspect).1, htoken.2⟩

/-- What a claim reads again after its transaction threw -/
theorem yields_reread {row row' : Row U} {e : Exn U} (h : Yields (service host) known
      (.read fun db ↦ match inspectClaim db prepared with
        | .error e' => .done (.error e')
        | .ok none => .done (.error e)
        | .ok (some _) => readClaim prepared row.claim) (.ok (.claimed row' true))) :
    Backed known prepared.id row.claim := by
  rcases h with hlost | ⟨db, -, h⟩
  · cases hlost
  · dsimp only at h
    split at h
    · cases h
    · cases h
    · exact yields_readClaim h

theorem yields_attempt {row row' : Row U}
    (hyields : Yields (service host) known (attempt host prepared row) (.ok (.claimed row' true))) :
    Backed known prepared.id row.claim := by
  rcases hyields with h | ⟨db, e, -, -, h⟩ | ⟨db, db', -, -, -, h⟩
  · exact yields_reread h
  · exact yields_reread h
  · exact yields_readClaim h

theorem yields_claim {token : U} {input : Input U I} {now : ℤ} {row : Row U}
    (hyields : Yields (service host) known (claim host token input now)
      (.ok (.claimed row true))) : Backed known (input.id host) token := by
  unfold claim at hyields
  split at hyields
  · cases hyields
  · split at hyields
    · cases hyields
    · next prepared hprepared =>
      rw [(prepareClaim_eq_ok hprepared).1]
      rcases hyields with hlost | ⟨db, -, h⟩
      · cases hlost
      · dsimp only at h
        split at h
        · cases h
        · cases h
        · split at h
          · cases h
          · next row' hrow' =>
            obtain ⟨-, rfl, -⟩ := claimRow_eq_ok hrow'
            exact yields_attempt h

/-- What refuses an input whatever the database holds. -/
def Input.refusal (host : Host U I) (input : Input U I) : Option (Exn U) :=
  if input.intent.batch.isSome ∨ input.intent.batchControl then some .batchNeedsJointAdmission
  else
    match prepareClaim host input with
    | .error e => some e
    | .ok _ => if (input.limits.getD {}).Long then none else some .invalidLimit

/-- The refusals of a call that meets only rows of another intent. -/
def Refused (host : Host U I) (input : Input U I) (o : Except (Exn U) (Reply U)) : Prop :=
  o = .error .conflict ∨ o = .error .lost ∨ ∃ e, input.refusal host = some e ∧ o = .error e

def Foreign (known : Db U → Prop) (id digest : U) : Prop :=
  ∀ db row, known db → db.get id = some row → digest ≠ row.intentId

theorem Foreign.inspect
    (hforeign : Foreign known prepared.id prepared.digest) {db : Db U} (hdb : known db) :
    inspectClaim db prepared = .ok none ∨ inspectClaim db prepared = .error .conflict := by
  unfold inspectClaim
  split
  · next row hrow =>
    simp [sameIntent, require, hforeign db row hdb hrow, bind, Except.bind]
  · exact .inl rfl

/-- A foreign intent is refused, or it would have made the row its own. -/
theorem Foreign.exec {id : U} {digest : U} (hforeign : Foreign known id digest) (row : Row U)
    (hid : row.id = id) (hdigest : row.intentId = digest) (db : Db U) (hdb : known db) :
    (∀ e, (Tx.claim row digest).exec db = .error e → e = .conflict) ∧
      ∀ db', known db' → (Tx.claim row digest).exec db ≠ .ok db' := by
  subst hid
  cases hget : db.get row.id with
  | none =>
    have hexec : (Tx.claim row digest).exec db = .ok (db.put row) := by
      simp [Tx.exec, claimTx, hget, bind, Except.bind, pure, Except.pure]
    rw [hexec]
    refine ⟨fun e he ↦ (by cases he), fun db' hdb' hok ↦ ?_⟩
    obtain rfl := Except.ok.inj hok
    exact hforeign _ row hdb' (by rw [get_put, if_pos rfl]) hdigest.symm
  | some found =>
    have hexec : (Tx.claim row digest).exec db = .error .conflict := by
      simp [Tx.exec, claimTx, hget, sameIntent, require, hforeign db found hdb hget, bind,
        Except.bind]
    rw [hexec]
    exact ⟨fun e he ↦ (Except.error.inj he).symm, fun db' _ hok ↦ by cases hok⟩

theorem yields_foreign_reread {input : Input U I} {row : Row U}
    (hforeign : Foreign known prepared.id prepared.digest) {o : Except (Exn U) (Reply U)}
    {e : Exn U} (he : e = .conflict ∨ e = .lost) (h : Yields (service host) known
      (.read fun db ↦ match inspectClaim db prepared with
        | .error e' => .done (.error e')
        | .ok none => .done (.error e)
        | .ok (some _) => readClaim prepared row.claim) o) : Refused host input o := by
  rcases h with hlost | ⟨db, hdb, h⟩
  · exact .inr (.inl hlost)
  · rcases hforeign.inspect hdb with hnone | hconflict
    · simp only [hnone, Yields] at h
      subst h
      rcases he with rfl | rfl
      · exact .inl rfl
      · exact .inr (.inl rfl)
    · simp only [hconflict, Yields] at h
      exact .inl h

theorem yields_foreign_attempt {input : Input U I} {row : Row U}
    (hforeign : Foreign known prepared.id prepared.digest) (hid : row.id = prepared.id)
    (hdigest : row.intentId = prepared.digest) {o : Except (Exn U) (Reply U)}
    (hyields : Yields (service host) known (attempt host prepared row) o) :
    Refused host input o := by
  have hexec := hforeign.exec
    { row with payloadRef := some (host.publishValue prepared.intent) } hid hdigest
  rcases hyields with h | ⟨db, e, hdb, herror, h⟩ | ⟨db, db', hdb, hdb', hok, -⟩
  · exact yields_foreign_reread hforeign (.inr rfl) h
  · exact yields_foreign_reread hforeign (.inl ((hexec db hdb).1 e herror)) h
  · exact absurd hok ((hexec db hdb).2 db' hdb')

theorem yields_foreign {token : U} {input : Input U I} {now : ℤ}
    (hforeign : Foreign known (input.id host) (host.digest input.retained))
    {o : Except (Exn U) (Reply U)}
    (hyields : Yields (service host) known (claim host token input now) o) :
    Refused host input o := by
  unfold claim at hyields
  split at hyields
  · next hbatch => exact .inr (.inr ⟨_, by simp [Input.refusal, hbatch], hyields⟩)
  · next hbatch =>
    split at hyields
    · next e hprepare => exact .inr (.inr ⟨e, by simp [Input.refusal, hbatch, hprepare], hyields⟩)
    · next prepared hprepared =>
      obtain ⟨hid, hdigest, hlimits⟩ := prepareClaim_eq_ok hprepared
      rw [hid, hdigest] at hforeign
      rcases hyields with hlost | ⟨db, hdb, h⟩
      · exact .inr (.inl hlost)
      · rcases hforeign.inspect hdb with hnone | hconflict
        · simp only [hnone] at h
          cases hrow : claimRow prepared token now with
          | error e =>
            simp only [hrow, Yields] at h
            obtain ⟨hlong, rfl⟩ := claimRow_eq_error hrow
            rw [← hlimits] at hlong
            exact .inr (.inr ⟨_, by simp [Input.refusal, hbatch, hprepared, hlong], h⟩)
          | ok row =>
            simp only [hrow] at h
            obtain ⟨hrowId, -, hintent, -⟩ := claimRow_eq_ok hrow
            exact yields_foreign_attempt hforeign hrowId hintent h
        · simp only [hconflict, Yields] at h
          exact .inl h

end Yields

variable (host : Host U I)

/-- A call of `claim!` for the request `id`. -/
def Claims (id : U) (c : Client (Request U I) (Db U) (Tx U) (Exn U) (Reply U)) : Prop :=
  ∃ input now, c.request = .claim input now ∧ input.id host = id

/-- `:claimed? true` -/
def Won (c : Client (Request U I) (Db U) (Tx U) (Exn U) (Reply U)) : Prop :=
  ∃ row, c.now = .done (.ok (.claimed row true))

variable (events : List (Event (Request U I)))

theorem reached_sound : (reached host events).Sound (service host) :=
  run_sound (sound_init _) events

theorem reached_advances :
    ∀ db, (reached host events).seen db → Advances db (reached host events).db := by
  refine run_climbs_seen Advances Advances.refl (fun _ _ _ ↦ Advances.trans)
    (fun _ _ _ hok ↦ exec_advances hok) (sound_init _) (fun db hdb ↦ ?_) events
  obtain rfl := mem_singleton.mp hdb
  exact Advances.refl _

theorem reached_recorded : Recorded (reached host events).Requested (reached host events).db := by
  refine run_keeps_seen Advances Advances.refl (fun _ _ _ ↦ Advances.trans)
    (fun _ _ _ hok ↦ exec_advances hok) Recorded (fun _ _ hnew _ ↦ Recorded.mono hnew)
    (fun known requested n l tx db db' hknown hl hdb hissues hok ↦
      exec_recorded hknown hl hdb hissues hok)
    (fun id row hrow ↦ by cases hrow) events _ mem_cons_self

/-- At most one call is told that it owns the request, and a row leaves `:admitting` at most once,
with a job exactly when it is submitted. -/
theorem admitted_at_most_once (host : Host U I) (events further : List (Event (Request U I)))
    (id : U) : (∀ (i j : ℕ) (c d : Client (Request U I) (Db U) (Tx U) (Exn U) (Reply U)),
      (reached host events).clients[i]? = some c → (reached host events).clients[j]? = some d →
      Claims host id c → Claims host id d → Won c → Won d → i = j) ∧
    ∀ row, (reached host events).db.get id = some row →
      (∃ row', (reached host (events ++ further)).db.get id = some row' ∧ row.Advances row') ∧
      (row.state = .submitted ↔ row.job.isSome) ∧
      (∀ job, row.job = some job → (reached host events).Requested (.recordJob id row.claim job)) ∧
      ∀ (i : ℕ) (c : Client (Request U I) (Db U) (Tx U) (Exn U) (Reply U)) (input : Input U I)
        (now : ℤ), (reached host events).clients[i]? = some c → c.request = .claim input now →
        input.id host = id → host.digest input.retained ≠ row.intentId →
        ∀ o, c.now = .done o → Refused host input o := by
  have hsound := reached_sound host events
  have hbelow := reached_advances host events
  refine ⟨fun i j c d hc hd hi hj hwon hwon' ↦ ?_, fun row hrow ↦ ⟨?_, ?_, ?_, ?_⟩⟩
  · have hbacked (k : ℕ) (e : Client (Request U I) (Db U) (Tx U) (Exn U) (Reply U))
        (he : (reached host events).clients[k]? = some e) (hk : Claims host id e) (hwon : Won e) :
        ∃ row, (reached host events).db.get id = some row ∧ host.randomUuid k = row.claim := by
      obtain ⟨input, now, hrequest, rfl⟩ := hk
      obtain ⟨reply, hdone⟩ := hwon
      have hyields := hsound.yields he hdone
      rw [hrequest] at hyields
      obtain ⟨db, row, hdb, hrow, htoken⟩ := yields_claim hyields
      obtain ⟨row', hrow', hadvances⟩ := hbelow db hdb _ row hrow
      exact ⟨row', hrow', htoken.trans hadvances.claim.symm⟩
    obtain ⟨row, hrow, hfirst⟩ := hbacked i c hc hi hwon
    obtain ⟨row', hrow', hsecond⟩ := hbacked j d hd hj hwon'
    obtain rfl := some.inj (hrow.symm.trans hrow')
    exact host.randomUuid.injective (hfirst.trans hsecond.symm)
  · have hlater := reached_advances host (events ++ further)
    have hseen : (reached host (events ++ further)).seen (reached host events).db := by
      rw [reached, Runs.run_append]
      exact run_seen hsound further _ mem_cons_self
    exact hlater _ hseen id row hrow
  · exact (reached_recorded host events id row hrow).1
  · exact (reached_recorded host events id row hrow).2
  · intro i c input now hc hrequest hid hdigest o hdone
    have hyields := hsound.yields hc hdone
    rw [hrequest] at hyields
    refine yields_foreign (fun db found hdb hfound ↦ ?_) hyields
    rw [hid] at hfound
    obtain ⟨row', hrow', hadvances⟩ := hbelow db hdb id found hfound
    obtain rfl := some.inj (hrow.symm.trans hrow')
    rw [← hadvances.intentId]
    exact hdigest

end Simmis.Work
