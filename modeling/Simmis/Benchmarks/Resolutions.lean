import Simmis.Library.Text
import Simmis.Work.Requests
import Mathlib.Data.List.Sort

/-!
# Benchmark resolutions

A resolution belongs to one submitted request and has one row for each planned case. The cases are
retained one by one; the resolution becomes ready with the last of them.
-/

namespace Simmis.Benchmarks

open Text Except

/-- `:case` of a planned case. -/
inductive CaseName where
  | default
  | named (name : String)
deriving DecidableEq, Repr

structure PlannedCase (U : Type) where
  ordinal : ℕ
  case : CaseName
  manifestId : U
deriving DecidableEq

/-- `plan-schema`, without its two constants. -/
structure Plan (U : Type) where
  semanticId : U
  sourceId : U
  cases : List (PlannedCase U)
deriving DecidableEq

/-- The fields that are copied from a request. -/
structure Binding (U : Type) where
  request : U
  by_ : U
  room : U
  clientId : U
  job : Option U
  requestClaim : U
  requestIntent : U
deriving DecidableEq

inductive State where
  | preparing | ready
deriving DecidableEq, Repr

/-- `:benchmark.resolution/...`; `R` are references to stored values. -/
structure Resolution (U P R : Type) where
  id : U
  binding : Binding U
  claim : U
  state : State
  semanticId : U
  plan : R
  planId : P
  resolved : Option R
  resolvedId : Option U
deriving DecidableEq

inductive CaseState where
  | planned | pinning | retained
deriving DecidableEq, Repr

/-- `:benchmark.case/...` -/
structure Case (U C R : Type) where
  id : C
  resolution : U
  ordinal : ℕ
  claim : U
  state : CaseState
  root : U
  selection : Option R
  selectionId : Option U
deriving DecidableEq

structure CaseToken (U : Type) where
  claim : U
  root : U
deriving DecidableEq

structure Tokens (U : Type) where
  id : U
  claim : U
  cases : List (CaseToken U)

/-- `hasch/uuid` of a plan and of a case; the identities of the two are never compared. -/
structure Hasch (U P C : Type) where
  planId : Plan U → P
  caseId : U → ℕ → C

inductive Refusal where
  | invalidPlan | requestChanged | resolutionChanged | invalidTokens | identityReused | caseChanged
  | invalidState | selectionChanged | casesNotRetained | resolvedChanged
deriving DecidableEq, Repr

variable {U P C R : Type} [DecidableEq U] [DecidableEq P] [DecidableEq C] [DecidableEq R]

structure Db (U P C R : Type) [DecidableEq U] [DecidableEq C] where
  requests : Work.Db U := .empty
  resolutions : Table (Resolution.id (U := U) (P := P) (R := R)) := .empty
  cases : Table (Case.id (U := U) (C := C) (R := R)) := .empty

/-- A row of a transaction, as it is after the transaction. -/
inductive Write (U P C R : Type) where
  | resolution (row : Resolution U P R)
  | case (row : Case U C R)

variable (db : Db U P C R)

def Db.write : Write U P C R → Db U P C R
  | .resolution row => { db with resolutions := db.resolutions.put row }
  | .case row => { db with cases := db.cases.put row }

def Db.transact (tx : List (Write U P C R)) : Db U P C R := tx.foldl Db.write db

def CaseName.Valid : CaseName → Prop
  | .default => True
  | .named name => 1 ≤ count name ∧ count name ≤ 256

instance (name : CaseName) : Decidable name.Valid := by
  cases name <;> unfold CaseName.Valid <;> infer_instance

def Plan.Valid (plan : Plan U) : Prop :=
  (1 ≤ plan.cases.length ∧ plan.cases.length ≤ 8 ∧ ∀ c ∈ plan.cases, c.ordinal ≤ 7 ∧ c.case.Valid) ∧
  plan.cases.map PlannedCase.ordinal = List.range plan.cases.length ∧
  (plan.cases.map PlannedCase.case).Nodup

instance (plan : Plan U) : Decidable plan.Valid := inferInstanceAs (Decidable (_ ∧ _))

def resolution (request : U) : Option (Resolution U P R) :=
  db.resolutions.rows.find? fun row ↦ row.binding.request = request

def cases (db : Db U P C R) (resolution : U) : List (Case U C R) :=
  ((db.cases.select fun row ↦ row.resolution = resolution).take 9).insertionSort
    fun a b ↦ a.ordinal ≤ b.ordinal

def checkRequest (expected : Work.Row U) : Except Refusal Unit :=
  require (db.requests.get expected.id = some expected ∧ expected.state = .submitted ∧
    expected.kind = .benchmark ∧ expected.returnPending = some true ∧ expected.job.isSome)
    .requestChanged

def requestBinding (request : Work.Row U) : Binding U where
  request := request.id
  by_ := request.by_
  room := request.room
  clientId := request.clientId
  job := request.job
  requestClaim := request.claim
  requestIntent := request.intentId

section Fragments

variable (hasch : Hasch U P C)

variable (db : Db U P C R) (request : Work.Row U) (expected : Resolution U P R) (plan : Plan U)

/-- `current!` -/
def checkCurrent
    : Except Refusal Unit := do
  checkRequest db request
  require (resolution db request.id = some expected ∧ requestBinding request = expected.binding)
    .resolutionChanged
  require plan.Valid .invalidPlan
  require (hasch.planId plan = expected.planId ∧ plan.semanticId = expected.semanticId)
    .resolutionChanged

/-- The rows of a fresh resolution. -/
def preparedResolution (planRef : R) (tokens : Tokens U) : Resolution U P R where
  id := tokens.id
  binding := requestBinding request
  claim := tokens.claim
  state := .preparing
  semanticId := plan.semanticId
  plan := planRef
  planId := hasch.planId plan
  resolved := none
  resolvedId := none

def plannedCase (resolution : U) (token : CaseToken U) (ordinal : ℕ) : Case U C R where
  id := hasch.caseId resolution ordinal
  resolution := resolution
  ordinal := ordinal
  claim := token.claim
  state := .planned
  root := token.root
  selection := none
  selectionId := none

def plannedCases (tokens : Tokens U) : List (Case U C R) :=
  tokens.cases.mapIdx fun ordinal token ↦ plannedCase hasch tokens.id token ordinal

def Tokens.Valid (tokens : Tokens U) (plan : Plan U) : Prop :=
  plan.cases.length = tokens.cases.length ∧ (tokens.cases.map CaseToken.root).Nodup ∧
    (tokens.cases.map CaseToken.claim).Nodup

instance (tokens : Tokens U) (plan : Plan U) : Decidable (tokens.Valid plan) :=
  inferInstanceAs (Decidable (_ ∧ _))

def Tokens.Unused (tokens : Tokens U) (db : Db U P C R) : Prop :=
  db.resolutions.get tokens.id = none ∧
    (∀ ordinal ∈ List.range tokens.cases.length,
      db.cases.get (hasch.caseId tokens.id ordinal) = none) ∧
    ∀ token ∈ tokens.cases, ∀ row ∈ db.cases.rows, row.root ≠ token.root

instance (tokens : Tokens U) (db : Db U P C R) : Decidable (tokens.Unused hasch db) :=
  inferInstanceAs (Decidable (_ ∧ _))

def prepareTx (planRef : R) (tokens : Tokens U) : Except Refusal (List (Write U P C R)) := do
  checkRequest db request
  require plan.Valid .invalidPlan
  match resolution db request.id with
  | some existing => do
    checkCurrent hasch db request existing plan
    return []
  | none => do
    require (tokens.Valid plan) .invalidTokens
    require (tokens.Unused hasch db) .identityReused
    return .resolution (preparedResolution hasch request plan planRef tokens) ::
      (plannedCases hasch tokens).map .case

/-- `case!` -/
def checkCase (resolution : Resolution U P R) (plan : Plan U) (expected : Case U C R) :
    Except Refusal Unit :=
  require (db.cases.get expected.id = some expected ∧ expected.ordinal < plan.cases.length ∧
    resolution.id = expected.resolution ∧
    expected.id = hasch.caseId resolution.id expected.ordinal) .caseChanged

def casePinningTx (expectedCase : Case U C R) (selectionId : U) (selectionRef : R) :
    Except Refusal (List (Write U P C R)) := do
  checkCurrent hasch db request expected plan
  checkCase hasch db expected plan expectedCase
  require (expected.state = .preparing) .invalidState
  match expectedCase.state with
  | .planned =>
    return [.case { expectedCase with
      state := .pinning, selection := some selectionRef, selectionId := some selectionId }]
  | .pinning | .retained => do
    require (some selectionId = expectedCase.selectionId ∧
      some selectionRef = expectedCase.selection) .selectionChanged
    return []

def caseRetainedTx (expectedCase : Case U C R) : Except Refusal (List (Write U P C R)) := do
  checkCurrent hasch db request expected plan
  checkCase hasch db expected plan expectedCase
  require (expected.state = .preparing) .invalidState
  match expectedCase.state with
  | .planned => .error .invalidState
  | .pinning => return [.case { expectedCase with state := .retained }]
  | .retained => return []

def readyTx (expectedCases : List (Case U C R)) (resolvedId : U) (resolvedRef : R) :
    Except Refusal (List (Write U P C R)) := do
  checkCurrent hasch db request expected plan
  require (expectedCases = cases db expected.id ∧ plan.cases.length = expectedCases.length ∧
    plan.cases.map PlannedCase.ordinal = expectedCases.map Case.ordinal ∧
    ∀ c ∈ expectedCases, c.state = .retained ∧ c.selectionId.isSome) .casesNotRetained
  expectedCases.forM fun c ↦ checkCase hasch db expected plan c
  match expected.state with
  | .preparing =>
    return [.resolution { expected with
      state := .ready, resolvedId := some resolvedId, resolved := some resolvedRef }]
  | .ready => do
    require (some resolvedId = expected.resolvedId ∧ some resolvedRef = expected.resolved)
      .resolvedChanged
    return []

end Fragments

variable {hasch : Hasch U P C} {db : Db U P C R}

omit [DecidableEq P] [DecidableEq R] in
theorem resolution_eq_some {request : U} {row : Resolution U P R}
    (h : resolution db request = some row) :
    db.resolutions.get row.id = some row ∧ row.binding.request = request := by
  refine ⟨Table.get_eq_some_iff.mpr ⟨List.mem_of_find?_eq_some h, rfl⟩, ?_⟩
  simpa using List.find?_some h

omit [DecidableEq P] [DecidableEq R] in
theorem resolution_eq_none {request : U} : resolution db request = none ↔
      ∀ id row, db.resolutions.get id = some row → row.binding.request ≠ request := by
  rw [resolution, List.find?_eq_none]
  constructor
  · intro h id row hrow heq
    exact h row (Table.get_eq_some_iff.mp hrow).1 (by simpa using heq)
  · intro h row hrow heq
    exact h row.id row (Table.get_eq_some_iff.mpr ⟨hrow, rfl⟩) (by simpa using heq)

variable {expected : Resolution U P R}

theorem checkCurrent_eq_ok {request : Work.Row U} {plan : Plan U} {u : Unit} :
    checkCurrent hasch db request expected plan = .ok u ↔ checkRequest db request = .ok () ∧
      (resolution db request.id = some expected ∧ requestBinding request = expected.binding) ∧
      plan.Valid ∧ hasch.planId plan = expected.planId ∧ plan.semanticId = expected.semanticId := by
  unfold checkCurrent
  rw [bind_eq_ok, Unique.exists_iff, require_bind_eq_ok, require_bind_eq_ok, require_eq_ok]

variable {tx : List (Write U P C R)}

theorem prepareTx_eq_ok {request : Work.Row U} {plan : Plan U} {planRef : R} {tokens : Tokens U}
    (h : prepareTx hasch db request plan planRef tokens = .ok tx) :
    ((resolution db request.id).isSome ∧ tx = []) ∨
    (resolution db request.id = none ∧ plan.Valid ∧ tokens.Valid plan ∧ tokens.Unused hasch db ∧
      tx = .resolution (preparedResolution hasch request plan planRef tokens) ::
        (plannedCases hasch tokens).map .case) := by
  obtain ⟨-, -, h⟩ := bind_eq_ok.mp h
  obtain ⟨hplan, h⟩ := require_bind_eq_ok.mp h
  cases hexisting : resolution db request.id with
  | some existing =>
    rw [hexisting] at h
    obtain ⟨-, -, h⟩ := bind_eq_ok.mp h
    exact .inl ⟨rfl, (ok.inj h).symm⟩
  | none =>
    rw [hexisting] at h
    obtain ⟨htokens, h⟩ := require_bind_eq_ok.mp h
    obtain ⟨hunused, h⟩ := require_bind_eq_ok.mp h
    exact .inr ⟨rfl, hplan, htokens, hunused, (ok.inj h).symm⟩

theorem casePinningTx_eq_ok {request : Work.Row U} {plan : Plan U} {expectedCase : Case U C R}
    {selectionId : U} {selectionRef : R}
    (h : casePinningTx hasch db request expected plan expectedCase selectionId selectionRef =
      .ok tx) : db.cases.get expectedCase.id = some expectedCase ∧
    db.resolutions.get expectedCase.resolution = some expected ∧ expected.state = .preparing ∧
    ((expectedCase.state ≠ .planned ∧ tx = []) ∨ (expectedCase.state = .planned ∧
      tx = [.case { expectedCase with
        state := .pinning, selection := some selectionRef, selectionId := some selectionId }])) := by
  obtain ⟨_, hcurrent, h⟩ := bind_eq_ok.mp h
  obtain ⟨-, ⟨hresolution, -⟩, -⟩ := checkCurrent_eq_ok.mp hcurrent
  obtain ⟨_, hcase, h⟩ := bind_eq_ok.mp h
  obtain ⟨hget, -, hid, -⟩ := require_eq_ok.mp hcase
  obtain ⟨hstate, h⟩ := require_bind_eq_ok.mp h
  refine ⟨hget, hid ▸ (resolution_eq_some hresolution).1, hstate, ?_⟩
  cases hcasestate : expectedCase.state with
  | planned =>
    rw [hcasestate] at h
    exact .inr ⟨rfl, (ok.inj h).symm⟩
  | pinning | retained =>
    rw [hcasestate] at h
    obtain ⟨-, h⟩ := require_bind_eq_ok.mp h
    exact .inl ⟨nofun, (ok.inj h).symm⟩

theorem caseRetainedTx_eq_ok {request : Work.Row U} {plan : Plan U} {expectedCase : Case U C R}
    (h : caseRetainedTx hasch db request expected plan expectedCase = .ok tx) :
    db.cases.get expectedCase.id = some expectedCase ∧
    db.resolutions.get expectedCase.resolution = some expected ∧ expected.state = .preparing ∧
    ((expectedCase.state = .retained ∧ tx = []) ∨ (expectedCase.state = .pinning ∧
      tx = [.case { expectedCase with state := .retained }])) := by
  obtain ⟨_, hcurrent, h⟩ := bind_eq_ok.mp h
  obtain ⟨-, ⟨hresolution, -⟩, -⟩ := checkCurrent_eq_ok.mp hcurrent
  obtain ⟨_, hcase, h⟩ := bind_eq_ok.mp h
  obtain ⟨hget, -, hid, -⟩ := require_eq_ok.mp hcase
  obtain ⟨hstate, h⟩ := require_bind_eq_ok.mp h
  refine ⟨hget, hid ▸ (resolution_eq_some hresolution).1, hstate, ?_⟩
  cases hcasestate : expectedCase.state with
  | planned =>
    rw [hcasestate] at h
    cases h
  | pinning =>
    rw [hcasestate] at h
    exact .inr ⟨rfl, (ok.inj h).symm⟩
  | retained =>
    rw [hcasestate] at h
    exact .inl ⟨rfl, (ok.inj h).symm⟩

theorem readyTx_eq_ok {request : Work.Row U} {plan : Plan U} {expectedCases : List (Case U C R)}
    {resolvedId : U} {resolvedRef : R}
    (h : readyTx hasch db request expected plan expectedCases resolvedId resolvedRef = .ok tx) :
    db.resolutions.get expected.id = some expected ∧
    (∀ c ∈ cases db expected.id, c.state = .retained) ∧
    ((expected.state = .ready ∧ tx = []) ∨ (expected.state = .preparing ∧
      tx = [.resolution { expected with
        state := .ready, resolvedId := some resolvedId, resolved := some resolvedRef }])) := by
  obtain ⟨_, hcurrent, h⟩ := bind_eq_ok.mp h
  obtain ⟨-, ⟨hresolution, -⟩, -⟩ := checkCurrent_eq_ok.mp hcurrent
  obtain ⟨⟨hcases, -, -, hretained⟩, h⟩ := require_bind_eq_ok.mp h
  obtain ⟨-, -, h⟩ := bind_eq_ok.mp h
  refine ⟨(resolution_eq_some hresolution).1, fun c hc ↦ (hretained c (hcases ▸ hc)).1, ?_⟩
  cases hstate : expected.state with
  | preparing =>
    rw [hstate] at h
    exact .inr ⟨rfl, (ok.inj h).symm⟩
  | ready =>
    rw [hstate] at h
    obtain ⟨-, h⟩ := require_bind_eq_ok.mp h
    exact .inl ⟨rfl, (ok.inj h).symm⟩

end Simmis.Benchmarks
