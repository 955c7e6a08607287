import Simmis.Library.Json
import Simmis.Library.Runs
import Mathlib.Algebra.Ring.Int.Defs
import Mathlib.Algebra.Ring.Nat

/-!
# The journal of an external worker

A private directory for each run keeps one record for each phase. A record names the digest of the
one before it, and is published by an exclusive link, so that a phase is written once.
-/

namespace Simmis.Workers.Journal

open Option Function Bool

inductive Phase
  | launch
  | admitted
  | stopped
  | acknowledged
deriving DecidableEq, Repr

namespace Phase

/-- `PHASES` -/
def all : List Phase := [launch, admitted, stopped, acknowledged]

def name : Phase → String
  | launch => "launch"
  | admitted => "admitted"
  | stopped => "stopped"
  | acknowledged => "acknowledged"

theorem forall_iff {P : Phase → Prop} :
    (∀ p, P p) ↔ P launch ∧ P admitted ∧ P stopped ∧ P acknowledged := by
  constructor
  · exact fun h ↦ ⟨h _, h _, h _, h _⟩
  · rintro ⟨h₁, h₂, h₃, h₄⟩ p
    cases p <;> assumption

def position : Phase → ℕ
  | launch => 0
  | admitted => 1
  | stopped => 2
  | acknowledged => 3

/-- The phase before. -/
def prior : Phase → Option Phase
  | launch => none
  | admitted => some launch
  | stopped => some admitted
  | acknowledged => some stopped

end Phase

/-- What the journal takes from the modules around it. -/
structure Checks where
  ticket : Json → Bool
  canonicalUuid : String → Bool
  canonicalUrl : String → Bool
  destination : String → Bool
  unitName : String → Bool
  unitIdentity : Json → Bool
  inputs : Json → Json → Bool
  outputs : Json → Json → Json → Bool
  profile : Json → Bool
  namespacePolicy : Json
  unitPolicy : Json
  sciPolicy : Json
  /-- The size of the encoding; some values have none. -/
  encodedBytes : Json → Option ℕ
  maxRecordBytes : ℕ
  digest : Json → String

/-- What a run directory holds of each phase. -/
abbrev Records := Phase → Option Json

variable (checks : Checks)

/-- `digest(previous) if previous is not None else None` -/
def digestOf : Option Json → Json
  | some value => .str (checks.digest value)
  | none => .null

/-- `_common` -/
def common (value : Json) (phase : Phase) (previous : Option Json) (fields : List String)
    (version : ℤ) : Bool :=
  value.closed ("version" :: "phase" :: "previous" :: fields) &&
    Json.isInt (value.get? "version") (· = version) &&
    value.get? "phase" = some (.str phase.name) &&
    value.get? "previous" = some (digestOf checks previous)

/-- `_owner` -/
def owner (ticket : Json) : Option Json :=
  if checks.ticket ticket then
    match ticket.get? "worker", ticket.get? "run", ticket.get? "nonce" with
    | some worker, some run, some nonce =>
      some (.obj [("nonce", nonce), ("run", run), ("worker", worker)])
    | _, _, _ => none
  else none

def validEndpoint (endpoint : String) : Bool :=
  1 ≤ endpoint.length && endpoint.length ≤ 2048 && checks.canonicalUrl endpoint &&
    endpoint.toList.all (fun c ↦ 32 ≤ c.toNat && c.toNat ≠ 127) && checks.destination endpoint

/-- `_validate_launch` -/
def validateLaunch (value : Json) : Bool :=
  let sci : Bool := value.get? "version" = some (.int 2)
  let policyField := if sci then "execution-profile" else "namespace-policy"
  common checks value .launch none ["owner", "endpoint", "unit", "frozen", policyField,
      "unit-policy"] (if sci then 2 else 1) &&
    (match value.get? "owner" with
    | some owner => owner.closed ["worker", "run", "nonce"] &&
        ["worker", "run", "nonce"].all fun key ↦ Json.isStr (owner.get? key) checks.canonicalUuid
    | none => false) &&
    Json.isStr (value.get? "endpoint") (validEndpoint checks) &&
    Json.isStr (value.get? "unit") checks.unitName &&
    (match value.get? "frozen" with
    | some frozen => (frozen.get? "config").any fun config ↦ checks.inputs frozen config
    | none => false) &&
    (if sci then (value.get? "execution-profile").any checks.profile
    else value.get? "namespace-policy" = some checks.namespacePolicy) &&
    value.get? "unit-policy" = some (if sci then checks.sciPolicy else checks.unitPolicy)

/-- `_validate_admitted` -/
def validateAdmitted (value launch : Json) : Bool :=
  common checks value .admitted (some launch) ["identity"] 1 &&
    (match value.get? "identity" with
    | some identity => checks.unitIdentity identity && identity.get? "unit" = launch.get? "unit"
    | none => false)

/-- `[a-z][a-z0-9-]{0,79}` -/
def isResult (s : String) : Bool :=
  match s.toList with
  | [] => false
  | c :: rest => c.isLower && rest.length ≤ 79 &&
      rest.all fun c ↦ c.isLower || c.isDigit || c = '-'

/-- `_validate_stopped` -/
def validateStopped (value launch admitted : Json) : Bool :=
  common checks value .stopped (some admitted) ["observation", "output", "output-sha256"] 1 &&
    (match value.get? "observation", value.get? "output" with
    | some observation, some output =>
      observation.closed ["version", "identity", "state", "result", "observed-monotonic-ns"] &&
        Json.isInt (observation.get? "version") (· = 1) &&
        observation.get? "identity" = admitted.get? "identity" &&
        Json.isStr (observation.get? "state") (fun s ↦ s = "inactive" || s = "failed") &&
        Json.isStr (observation.get? "result") isResult &&
        Json.isInt (observation.get? "observed-monotonic-ns") (0 < ·) &&
        (output = .null || (match launch.get? "frozen" with
          | some frozen => (frozen.get? "config").any fun config ↦
              checks.outputs frozen config output
          | none => false) &&
          (output.get? "exit-code" ≠ some (.int 0) ||
            observation.get? "result" = some (.str "success"))) &&
        value.get? "output-sha256" =
          some (digestOf checks (if output = .null then none else some output))
    | _, _ => false)

/-- `_validate_acknowledged` -/
def validateAcknowledged (value launch stopped : Json) : Bool :=
  common checks value .acknowledged (some stopped) ["outcome", "receipt"] 1 &&
    (match value.get? "receipt" with
    | some receipt =>
      let owner := launch.get? "owner"
      (if value.get? "outcome" = some (.str "stopped") then receipt.closed ["run", "stop-ack?"]
      else if value.get? "outcome" = some (.str "completed") then
        receipt.closed ["run", "lease", "state", "cancel-requested?", "stop-ack?", "expires-at-ms",
            "output-id"] &&
          stopped.get? "output" ≠ some .null &&
          receipt.get? "lease" = owner.bind (·.get? "nonce") &&
          receipt.get? "state" = some (.str "completed") &&
          Json.isBool (receipt.get? "cancel-requested?") &&
          Json.isInt (receipt.get? "expires-at-ms") (fun n ↦ 0 ≤ n && n < 2 ^ 63) &&
          Json.isStr (receipt.get? "output-id") checks.canonicalUuid
      else false) &&
        receipt.get? "run" = owner.bind (·.get? "run") &&
        receipt.get? "stop-ack?" = some (.bool true)
    | none => false)

/-- The validator of a phase, on the record of the launch and the one before. -/
def validate (phase : Phase) (value : Json) (launch prior : Option Json) : Bool :=
  match phase, launch, prior with
  | .launch, _, _ => validateLaunch checks value
  | .admitted, _, some prior => validateAdmitted checks value prior
  | .stopped, some launch, some prior => validateStopped checks value launch prior
  | .acknowledged, some launch, some prior => validateAcknowledged checks value launch prior
  | _, _, _ => false

/-- The loop of `_chain` over the phases that are left; it raises where this is false. -/
def chainFrom (records : Records) : Option Json → List Phase → Bool
  | _, [] => true
  | prior, phase :: later =>
    match records phase with
    | none => later.all fun later ↦ records later = none
    | some value =>
      validate checks phase value (records .launch) prior && chainFrom records (some value) later

/-- `_chain` on what was read -/
def chain (records : Records) : Bool := chainFrom checks records none Phase.all

/-- A call of `prepare` draws a unit name for a first launch. -/
inductive Op
  | prepare (ticket endpoint frozen config : Json) (profile : Option Json) (fresh : Json)
  | admission (identity : Json)
  | stopped (observation output : Json)
  | acknowledge (outcome receipt : Json)
deriving DecidableEq

namespace Op

def phase : Op → Phase
  | prepare .. => .launch
  | admission _ => .admitted
  | stopped .. => .stopped
  | acknowledge .. => .acknowledged

/-- What is checked before the directory is opened. -/
def admissible : Op → Bool
  | prepare ticket _ frozen config _ _ =>
    checks.inputs frozen config && (owner checks ticket).isSome
  | _ => true

/-- The fields that a call of `_advance` gives. -/
def values : Op → List (String × Json)
  | prepare .. => []
  | admission identity => [("identity", identity)]
  | stopped observation output => [("observation", observation), ("output", output),
      ("output-sha256", digestOf checks (if output = .null then none else some output))]
  | acknowledge outcome receipt => [("outcome", outcome), ("receipt", receipt)]

/-- What a call records on a chain that has the phase before. -/
def record (op : Op) (records : Records) : Option Json :=
  match op with
  | prepare ticket endpoint frozen _ profile fresh =>
    (owner checks ticket).map fun owner ↦
      let unit := ((records .launch).bind (·.get? "unit")).getD fresh
      match profile with
      | none => .obj [("version", .int 1), ("phase", .str "launch"), ("previous", .null),
          ("owner", owner), ("endpoint", endpoint), ("unit", unit), ("frozen", frozen),
          ("namespace-policy", checks.namespacePolicy), ("unit-policy", checks.unitPolicy)]
      | some profile => .obj [("version", .int 2), ("phase", .str "launch"), ("previous", .null),
          ("owner", owner), ("endpoint", endpoint), ("unit", unit), ("frozen", frozen),
          ("unit-policy", checks.sciPolicy), ("execution-profile", profile)]
  | op => (op.phase.prior.bind records).map fun prior ↦
      .obj ([("version", .int 1), ("phase", .str op.phase.name),
        ("previous", .str (checks.digest prior))] ++ op.values checks)

end Op

def fits (value : Json) : Bool := (checks.encodedBytes value).any (· ≤ checks.maxRecordBytes)

/-- What a call publishes after `_chain`; without one it raises. -/
def Op.proposal (op : Op) (records : Records) : Option Json :=
  if chain checks records then
    (op.record checks records).filter fun value ↦
      validate checks op.phase value (records .launch) (op.phase.prior.bind records) &&
        fits checks value
  else none

/-- A prefix of the phases, each valid with the one before and naming its digest. -/
structure Sound (records : Records) : Prop where
  earlier : ∀ p q, p.position < q.position → (records q).isSome → (records p).isSome
  linked : ∀ p value, records p = some value →
    value.get? "previous" = some (digestOf checks (p.prior.bind records))
  valid : ∀ p value, records p = some value →
    validate checks p value (records .launch) (p.prior.bind records)
  fits : ∀ p value, records p = some value → fits checks value

variable {checks} {records seen : Records}

variable {phase : Phase} {value : Json}

theorem common_previous {previous : Option Json} {fields : List String} {version : ℤ}
    (h : common checks value phase previous fields version) :
    value.get? "previous" = some (digestOf checks previous) := by
  simp only [common, and_eq_true, decide_eq_true_eq] at h
  exact h.2

theorem validate_previous {launch prior : Option Json}
    (h : validate checks phase value launch prior) (hlaunch : phase = .launch → prior = none) :
    value.get? "previous" = some (digestOf checks prior) := by
  cases phase with
  | launch =>
    rw [hlaunch rfl]
    simp only [validate, validateLaunch, and_eq_true] at h
    exact common_previous h.1.1.1.1.1.1
  | admitted =>
    cases prior with
    | none => exact nomatch h
    | some prior =>
      simp only [validate, validateAdmitted, and_eq_true] at h
      exact common_previous h.1
  | stopped =>
    cases launch with
    | none => simp [validate] at h
    | some launch =>
      cases prior with
      | none => simp [validate] at h
      | some prior =>
        simp only [validate, validateStopped, and_eq_true] at h
        exact common_previous h.1
  | acknowledged =>
    cases launch with
    | none => simp [validate] at h
    | some launch =>
      cases prior with
      | none => simp [validate] at h
      | some prior =>
        simp only [validate, validateAcknowledged, and_eq_true] at h
        exact common_previous h.1

/-- `_chain` accepts exactly the valid prefixes. -/
theorem chain_iff : chain checks records ↔
    (∀ p q, p.position < q.position → (records q).isSome → (records p).isSome) ∧
      ∀ p value, records p = some value →
        validate checks p value (records .launch) (p.prior.bind records) := by
  simp only [chain, chainFrom, Phase.all, Phase.forall_iff, Phase.position, Phase.prior,
    bind_none, bind_some]
  cases hl : records .launch <;> cases ha : records .admitted <;> cases hs : records .stopped <;>
    cases hk : records .acknowledged <;> simp [ha, hs, hk]

theorem Sound.chain (h : Sound checks records) : chain checks records :=
  chain_iff.mpr ⟨h.earlier, h.valid⟩

theorem sound_empty : Sound checks fun _ ↦ none := by
  constructor
  · exact fun _ _ _ h ↦ nomatch h
  · exact fun _ _ h ↦ nomatch h
  · exact fun _ _ h ↦ nomatch h
  · exact fun _ _ h ↦ nomatch h

/-- Records are never changed or removed. -/
def Extends (old new : Records) : Prop := ∀ p, Kept (old p) (new p)

theorem Extends.refl (records : Records) : Extends records records := fun p ↦ .refl (records p)

theorem Extends.trans {a b c : Records} (h₁ : Extends a b) (h₂ : Extends b c) : Extends a c :=
  fun p ↦ (h₁ p).trans (h₂ p)

variable {p : Phase}

theorem Extends.eq_of_isSome {old new : Records} (h : Extends old new)
    (hp : (old p).isSome) : new p = old p := by
  obtain ⟨value, hvalue⟩ := isSome_iff_exists.mp hp
  rw [hvalue, h p value hvalue]

variable {q : Phase}

theorem prior_position (h : q.prior = some p) : p.position < q.position := by
  cases q <;> cases h <;> decide

theorem before_prior (h : p.position < q.position) :
    ∃ r, q.prior = some r ∧ (p = r ∨ p.position < r.position) := by
  cases p <;> cases q <;> simp [Phase.position, Phase.prior] at h ⊢

theorem position_inj (h : p.position = q.position) : p = q := by
  cases p <;> cases q <;> first | rfl | exact absurd h (by decide)

theorem launch_position (h : q ≠ .launch) : Phase.launch.position < q.position := by
  cases q <;> simp [Phase.position] at h ⊢

theorem validate_launch {launch prior : Option Json} :
    validate checks .launch value launch prior = validateLaunch checks value := by
  cases launch <;> cases prior <;> rfl

/-- A part of the records that is a prefix passes `_chain` as they do. -/
theorem Sound.chain_seen (h : Sound checks records) (hseen : Extends seen records)
    (hearlier : ∀ p q, p.position < q.position → (seen q).isSome → (seen p).isSome) :
    Journal.chain checks seen := by
  refine chain_iff.mpr ⟨hearlier, fun p value hvalue ↦ ?_⟩
  have hvalid := h.valid p value (hseen p value hvalue)
  have hsome : (seen p).isSome := by rw [hvalue]; rfl
  by_cases hp : p = .launch
  · subst hp
    rwa [validate_launch] at hvalid ⊢
  · have hlaunch := hseen.eq_of_isSome (hearlier _ p (launch_position hp) hsome)
    have hprior : p.prior.bind records = p.prior.bind seen := by
      cases hq : p.prior with
      | none => rfl
      | some q => exact hseen.eq_of_isSome (hearlier q p (prior_position hq) hsome)
    rwa [hlaunch, hprior] at hvalid

variable {op : Op}

theorem proposal_some (h : op.proposal checks seen = some value) :
    chain checks seen ∧ op.record checks seen = some value ∧
      validate checks op.phase value (seen .launch) (op.phase.prior.bind seen) ∧
      fits checks value := by
  unfold Op.proposal at h
  split at h
  · next hchain =>
    obtain ⟨hrecord, hvalid⟩ := filter_eq_some_iff.mp h
    rw [and_eq_true] at hvalid
    exact ⟨hchain, hrecord, hvalid⟩
  · exact nomatch h

/-- A record is made on the record of the phase before. -/
theorem record_prior (h : op.record checks seen = some value)
    (hp : op.phase.prior = some p) : (seen p).isSome := by
  cases op with
  | prepare => exact nomatch hp
  | admission | stopped | acknowledge =>
    obtain ⟨prior, hprior, -⟩ := map_eq_some_iff.mp h
    cases hp
    exact isSome_iff_exists.mpr ⟨prior, hprior⟩

/-- The record depends on the launch's unit name, else on the one before. -/
theorem record_congr (hlaunch : op.phase = .launch → seen .launch = records .launch)
    (hprior : ∀ p, op.phase.prior = some p → seen p = records p) :
    op.record checks seen = op.record checks records := by
  cases op with
  | prepare => simp only [Op.record, hlaunch rfl]
  | admission | stopped | acknowledge =>
    simp only [Op.record, Op.phase, Phase.prior, bind_some]
    rw [hprior _ rfl]

theorem phase_update :
    update records phase (some value) q = if q = phase then some value else records q := by
  rw [update_apply]

/-- Publishing a record that was made on what is stored keeps the chain sound. -/
theorem Sound.publish (h : Sound checks records) (hseen : Extends seen records)
    (hnone : records op.phase = none) (hvalue : op.proposal checks seen = some value) :
    Sound checks (update records op.phase (some value)) := by
  obtain ⟨hchain, hrecord, hvalid, hfits⟩ := proposal_some hvalue
  have hlater {q : Phase} (hq : (records q).isSome) : ¬ op.phase.position < q.position := by
    intro hlt
    have hsome := h.earlier _ _ hlt hq
    rw [hnone] at hsome
    exact nomatch hsome
  have hearlier : ∀ p, p.position < op.phase.position → (records p).isSome := by
    intro p hp
    obtain ⟨q, hq, hpq⟩ := before_prior hp
    have hprior : (records q).isSome := hseen q |>.isSome (record_prior hrecord hq)
    rcases hpq with rfl | hlt
    · exact hprior
    · exact h.earlier _ _ hlt hprior
  have hvalues : ∀ p stored, update records op.phase (some value) p = some stored →
      validate checks p stored (update records op.phase (some value) .launch)
        (p.prior.bind (update records op.phase (some value))) := by
    intro p stored hp
    rw [phase_update] at hp
    split at hp
    · next heq =>
      subst heq
      obtain rfl := some.inj hp
      by_cases hlaunch : op.phase = .launch
      · rw [hlaunch, validate_launch] at hvalid ⊢
        exact hvalid
      · have hseenLaunch : (seen .launch).isSome := by
          obtain ⟨q, hq, hlaunchq⟩ := before_prior (launch_position hlaunch)
          rcases hlaunchq with rfl | hlt
          · exact record_prior hrecord hq
          · exact (chain_iff.mp hchain).1 _ _ hlt (record_prior hrecord hq)
        rw [phase_update, if_neg (Ne.symm hlaunch), hseen.eq_of_isSome hseenLaunch]
        cases hq : op.phase.prior with
        | none => rwa [hq] at hvalid
        | some q =>
          rw [hq] at hvalid
          have hne : q ≠ op.phase := fun heq ↦
            Nat.ne_of_lt (prior_position hq) (congrArg Phase.position heq)
          rw [bind_some, phase_update, if_neg hne, hseen.eq_of_isSome (record_prior hrecord hq)]
          exact hvalid
    · next hne =>
      have hstored := h.valid p stored hp
      have hsome : (records p).isSome := by rw [hp]; rfl
      by_cases hlaunch : p = .launch
      · rw [hlaunch, validate_launch] at hstored ⊢
        exact hstored
      · have hkept {q : Phase} (hq : q.position < p.position) :
            update records op.phase (some value) q = records q := by
          rw [phase_update, if_neg]
          rintro rfl
          exact hlater hsome hq
        rw [hkept (launch_position hlaunch)]
        cases hq : p.prior with
        | none => rwa [hq] at hstored
        | some q =>
          rw [hq] at hstored
          rwa [bind_some, hkept (prior_position hq)]
  refine ⟨?_, fun p stored hp ↦ ?_, hvalues, ?_⟩
  · intro p q hpq hq
    rw [phase_update] at hq ⊢
    split at hq
    · next heq =>
      subst heq
      rw [if_neg fun heq ↦ Nat.ne_of_lt hpq (congrArg Phase.position heq)]
      exact hearlier p hpq
    · split
      · rfl
      · exact h.earlier p q hpq hq
  · exact validate_previous (hvalues p stored hp) fun hlaunch ↦ by rw [hlaunch]; rfl
  · intro p stored hp
    rw [phase_update] at hp
    split at hp
    · exact some.inj hp ▸ hfits
    · exact h.fits p stored hp

theorem extends_publish (hnone : records phase = none) :
    Extends records (update records phase (some value)) := by
  intro p old hold
  rw [phase_update, if_neg]
  · exact hold
  · rintro rfl
    exact nomatch hnone.symm.trans hold

/-- A call whose record is stored makes that record again, on any prefix that has it. -/
theorem proposal_stored {start : Records} (hstart : Sound checks start)
    (hold : Extends start seen) (hstored : start op.phase = some value) (hrecord : op.record checks start = some value)
    (hchain : chain checks seen) : op.proposal checks seen = some value := by
  have hsame {p : Phase} (hp : p.position ≤ op.phase.position) : seen p = start p := by
    refine hold.eq_of_isSome ?_
    have hsome : (start op.phase).isSome := by rw [hstored]; rfl
    rcases Nat.lt_or_eq_of_le hp with hlt | heq
    · exact hstart.earlier _ _ hlt hsome
    · rwa [position_inj heq]
  have hrecord' : op.record checks seen = some value := by
    rw [← hrecord]
    refine record_congr (fun hlaunch ↦ ?_) fun p hp ↦ hsame (Nat.le_of_lt (prior_position hp))
    exact hsame (hlaunch ▸ Nat.le_refl _)
  have hvalid := hstart.valid _ value hstored
  have hlaunch : seen .launch = start .launch := hsame (by cases op.phase <;> decide)
  have hprior : op.phase.prior.bind seen = op.phase.prior.bind start := by
    cases hp : op.phase.prior with
    | none => rfl
    | some p => exact hsame (Nat.le_of_lt (prior_position hp))
  rw [Op.proposal, if_pos hchain, hrecord', filter_some, hlaunch, hprior, hvalid,
    hstart.fits _ value hstored]
  rfl

end Simmis.Workers.Journal
