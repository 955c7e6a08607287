import Simmis.Benchmarks.Resolutions
import Simmis.Library.Moves

/-!
# Preparation of benchmarks

Callers send transactions in any order and repeat them, while other writers change the requests. A
history is the journal with everything that was written to it.
-/

namespace Simmis.Benchmarks

open List Option Runs Table Db CaseToken CaseState Write

variable {U P C R : Type} [DecidableEq U] [DecidableEq C]

inductive Call (U P C R : Type)
  | prepare (request : Work.Row U) (plan : Plan U) (planRef : R) (tokens : Tokens U)
  | casePinning (request : Work.Row U) (expected : Resolution U P R) (plan : Plan U)
    (expectedCase : Case U C R) (selectionId : U) (selectionRef : R)
  | caseRetained (request : Work.Row U) (expected : Resolution U P R) (plan : Plan U)
    (expectedCase : Case U C R)
  | ready (request : Work.Row U) (expected : Resolution U P R) (plan : Plan U)
    (expectedCases : List (Case U C R)) (resolvedId : U) (resolvedRef : R)

def Call.tx [DecidableEq P] [DecidableEq R] (hasch : Hasch U P C) (db : Db U P C R) :
    Call U P C R → Except Refusal (List (Write U P C R))
  | .prepare request plan planRef tokens => prepareTx hasch db request plan planRef tokens
  | .casePinning request expected plan expectedCase selectionId selectionRef =>
    casePinningTx hasch db request expected plan expectedCase selectionId selectionRef
  | .caseRetained request expected plan expectedCase =>
    caseRetainedTx hasch db request expected plan expectedCase
  | .ready request expected plan expectedCases resolvedId resolvedRef =>
    readyTx hasch db request expected plan expectedCases resolvedId resolvedRef

inductive Event (U P C R : Type) [DecidableEq U]
  | requests (rows : Work.Db U)
  | call (call : Call U P C R)

structure History (U P C R : Type) [DecidableEq U] [DecidableEq C] where
  db : Db U P C R := {}
  log : List (Write U P C R) := []

def step [DecidableEq P] [DecidableEq R] (hasch : Hasch U P C) (h : History U P C R) :
    Event U P C R → History U P C R
  | .requests rows => { h with db := { h.db with requests := rows } }
  | .call call =>
    match call.tx hasch h.db with
    | .ok tx => { db := h.db.transact tx, log := h.log ++ tx }
    | .error _ => h

/-- What a call may write. -/
inductive Change (hasch : Hasch U P C) (db : Db U P C R) : List (Write U P C R) → Prop
  | nothing : Change hasch db []
  | prepared (request : Work.Row U) (plan : Plan U) (planRef : R) (tokens : Tokens U)
    (hnew : resolution db request.id = none) (hplan : plan.Valid) (htokens : tokens.Valid plan)
    (hunused : tokens.Unused hasch db) :
    Change hasch db (.resolution (preparedResolution hasch request plan planRef tokens) ::
      (plannedCases hasch tokens).map .case)
  | pinning (c : Case U C R) (r : Resolution U P R) (selectionId : U) (selectionRef : R)
    (hcase : db.cases.get c.id = some c) (hstate : c.state = .planned)
    (hresolution : db.resolutions.get c.resolution = some r) (hpreparing : r.state = .preparing) :
    Change hasch db [.case { c with
      state := .pinning, selection := some selectionRef, selectionId := some selectionId }]
  | retained (c : Case U C R) (r : Resolution U P R) (hcase : db.cases.get c.id = some c)
    (hstate : c.state = .pinning) (hresolution : db.resolutions.get c.resolution = some r)
    (hpreparing : r.state = .preparing) : Change hasch db [.case { c with state := .retained }]
  | ready (r : Resolution U P R) (resolvedId : U) (resolvedRef : R)
    (hresolution : db.resolutions.get r.id = some r) (hpreparing : r.state = .preparing)
    (hretained : ∀ c ∈ cases db r.id, c.state = .retained) :
    Change hasch db [.resolution { r with
      state := .ready, resolvedId := some resolvedId, resolved := some resolvedRef }]

variable {hasch : Hasch U P C} {db : Db U P C R} {tx : List (Write U P C R)}

variable {call : Call U P C R}

theorem Call.change [DecidableEq P] [DecidableEq R] (h : call.tx hasch db = .ok tx) :
    Change hasch db tx := by
  cases call with
  | prepare request plan planRef tokens =>
    obtain ⟨-, rfl⟩ | ⟨hnew, hplan, htokens, hunused, rfl⟩ := prepareTx_eq_ok h
    · exact .nothing
    · exact .prepared request plan planRef tokens hnew hplan htokens hunused
  | casePinning request expected plan expectedCase selectionId selectionRef =>
    obtain ⟨hcase, hresolution, hpreparing, ⟨-, rfl⟩ | ⟨hstate, rfl⟩⟩ := casePinningTx_eq_ok h
    · exact .nothing
    · exact .pinning expectedCase expected selectionId selectionRef hcase hstate hresolution
        hpreparing
  | caseRetained request expected plan expectedCase =>
    obtain ⟨hcase, hresolution, hpreparing, ⟨-, rfl⟩ | ⟨hstate, rfl⟩⟩ := caseRetainedTx_eq_ok h
    · exact .nothing
    · exact .retained expectedCase expected hcase hstate hresolution hpreparing
  | ready request expected plan expectedCases resolvedId resolvedRef =>
    obtain ⟨hresolution, hretained, ⟨-, rfl⟩ | ⟨hstate, rfl⟩⟩ := readyTx_eq_ok h
    · exact .nothing
    · exact .ready expected resolvedId resolvedRef hresolution hstate hretained

/-- No two cases have one identity, nor two plans. -/
structure Hasch.Injective (hasch : Hasch U P C) : Prop where
  plan : Function.Injective hasch.planId
  case : ∀ r r' o o', hasch.caseId r o = hasch.caseId r' o' → r = r' ∧ o = o'

variable {c : Case U C R}

omit [DecidableEq U] [DecidableEq C] in
theorem mem_plannedCases {tokens : Tokens U} : c ∈ plannedCases hasch tokens ↔
      ∃ i, ∃ _ : i < tokens.cases.length, plannedCase hasch tokens.id tokens.cases[i] i = c := by
  simp [plannedCases, mem_mapIdx]

omit [DecidableEq U] [DecidableEq C] in
theorem nodup_plannedCases (hinj : hasch.Injective) (tokens : Tokens U) :
    ((plannedCases hasch tokens : List (Case U C R)).map Case.id).Nodup := by
  rw [nodup_iff_pairwise_ne, pairwise_map, pairwise_iff_getElem]
  intro i j hi hj hlt heq
  simp only [plannedCases, getElem_mapIdx, plannedCase] at heq
  exact hlt.ne (hinj.case _ _ _ _ heq).2

theorem transact_cases (db : Db U P C R) (rows : List (Case U C R)) :
    db.transact (rows.map .case) = { db with cases := db.cases.putAll rows } := by
  induction rows generalizing db with
  | nil => rfl
  | cons row rows ih =>
    have hrest := ih { db with cases := db.cases.put row }
    exact hrest

/-- The journal after a preparation. -/
theorem transact_prepared (db : Db U P C R) (row : Resolution U P R) (rows : List (Case U C R)) :
    db.transact (.resolution row :: rows.map .case) =
      { db with resolutions := db.resolutions.put row, cases := db.cases.putAll rows } :=
  transact_cases { db with resolutions := db.resolutions.put row } rows

section Prepared

variable {hasch : Hasch U P C} {db : Db U P C R} {tokens : Tokens U}

theorem get_unused (hunused : tokens.Unused hasch db) {c : Case U C R}
    (hc : c ∈ plannedCases hasch tokens) : db.cases.get c.id = none := by
  obtain ⟨i, hi, rfl⟩ := mem_plannedCases.mp hc
  exact hunused.2.1 i (mem_range.mpr hi)

/-- After a preparation the journal has the old cases and the planned ones. -/
theorem get_prepared (hinj : hasch.Injective) (hunused : tokens.Unused hasch db) {cid : C}
    {c : Case U C R} : (db.cases.putAll (plannedCases hasch tokens)).get cid = some c ↔
      db.cases.get cid = some c ∨ (c ∈ plannedCases hasch tokens ∧ c.id = cid) := by
  by_cases hplanned : ∃ q ∈ (plannedCases hasch tokens : List (Case U C R)), q.id = cid
  · obtain ⟨q, hq, rfl⟩ := hplanned
    rw [get_putAll_of_mem (nodup_plannedCases hinj tokens) hq, get_unused hunused hq]
    constructor
    · intro heq
      obtain rfl := some.inj heq
      exact .inr ⟨hq, rfl⟩
    · rintro (hnone | ⟨hc, hid⟩)
      · cases hnone
      · rw [inj_on_of_nodup_map (nodup_plannedCases hinj tokens) hc hq hid]
  · have hother : ∀ q ∈ (plannedCases hasch tokens : List (Case U C R)), q.id ≠ cid :=
      fun q hq heq ↦ hplanned ⟨q, hq, heq⟩
    rw [get_putAll_of_not_mem hother]
    exact ⟨.inl, fun hor ↦ hor.resolve_right fun hnew ↦ hplanned ⟨c, hnew⟩⟩

end Prepared

def CaseState.rank : CaseState → ℕ
  | .planned => 0
  | .pinning => 1
  | .retained => 2

def State.rank : State → ℕ
  | .preparing => 0
  | .ready => 1

structure Db.Sound (hasch : Hasch U P C) (db : Db U P C R) : Prop where
  once : ∀ id id' r r', db.resolutions.get id = some r → db.resolutions.get id' = some r' →
    r.binding.request = r'.binding.request → r = r'
  planned : ∀ id r, db.resolutions.get id = some r → ∃ plan : Plan U, plan.Valid ∧
    hasch.planId plan = r.planId ∧ plan.semanticId = r.semanticId ∧
    ∀ o, o < plan.cases.length ↔ ∃ c, db.cases.get (hasch.caseId id o) = some c
  owned : ∀ cid c, db.cases.get cid = some c → cid = hasch.caseId c.resolution c.ordinal ∧
    ∃ r, db.resolutions.get c.resolution = some r
  roots : ∀ cid cid' c c', db.cases.get cid = some c → db.cases.get cid' = some c' →
    c.root = c'.root → c = c'
  selected : ∀ cid c, db.cases.get cid = some c →
    (c.selection = none ↔ c.state = .planned) ∧ (c.selectionId = none ↔ c.state = .planned)
  ready : ∀ id r, db.resolutions.get id = some r → r.state = .ready →
    ∀ cid c, db.cases.get cid = some c → c.resolution = id → c.state = .retained
  resolved : ∀ id r, db.resolutions.get id = some r →
    (r.resolved.isSome ↔ r.state = .ready) ∧ (r.resolvedId.isSome ↔ r.state = .ready)

/-- A case keeps what it was planned with. -/
structure Case.Same (old new : Case U C R) : Prop where
  id : new.id = old.id
  resolution : new.resolution = old.resolution
  ordinal : new.ordinal = old.ordinal
  claim : new.claim = old.claim
  root : new.root = old.root

variable {old : Case U C R}

section

variable (hdb : db.Sound hasch) {r : Resolution U P R}
include hdb

/-- Setting a case of a resolution that is still prepared. -/
theorem Db.Sound.setCase (hold : db.cases.get c.id = some old)
    (hsame : old.Same c) (hr : db.resolutions.get old.resolution = some r)
    (hpreparing : r.state = .preparing) (hselection : (c.selection = none ↔ c.state = .planned) ∧
      (c.selectionId = none ↔ c.state = .planned)) : (db.transact [.case c]).Sound hasch := by
  have hcases (cid : C) (q : Case U C R) (hq : (db.cases.put c).get cid = some q) :
      (cid = c.id ∧ q = c) ∨ (cid ≠ c.id ∧ db.cases.get cid = some q) := by
    rw [get_put] at hq
    split at hq
    · next h => exact .inl ⟨h, (some.inj hq).symm⟩
    · next h => exact .inr ⟨h, hq⟩
  have hroot (cid : C) (q : Case U C R) (hne : cid ≠ c.id) (hq : db.cases.get cid = some q) :
      q.root ≠ c.root := by
    rw [hsame.root]
    intro heq
    rw [hdb.roots _ _ _ _ hq hold heq] at hq
    exact hne ((key_of_get hq).symm.trans (key_of_get hold))
  refine ⟨hdb.once, fun id r hr ↦ ?_, fun cid q hq ↦ ?_, fun cid cid' q q' hq hq' heq ↦ ?_,
    fun cid q hq ↦ ?_, fun id r' hr' hready cid q hq hresolution ↦ ?_, hdb.resolved⟩
  · obtain ⟨plan, hvalid, hid, hsemantic, hcount⟩ := hdb.planned id r hr
    refine ⟨plan, hvalid, hid, hsemantic, fun o ↦ ?_⟩
    rw [hcount o]
    simp only [transact, foldl_cons, foldl_nil, write, get_put]
    split
    · next h =>
      rw [h, hold]
      exact ⟨fun _ ↦ ⟨c, rfl⟩, fun _ ↦ ⟨old, rfl⟩⟩
    · rfl
  · obtain ⟨rfl, rfl⟩ | ⟨-, hq⟩ := hcases cid q hq
    · rw [hsame.resolution, hsame.ordinal]
      exact hdb.owned _ old hold
    · exact hdb.owned cid q hq
  · obtain ⟨-, rfl⟩ | ⟨hne, hold⟩ := hcases cid q hq <;>
      obtain ⟨-, hsecond⟩ | ⟨hne', hold'⟩ := hcases cid' q' hq'
    · exact hsecond.symm
    · exact absurd heq.symm (hroot cid' q' hne' hold')
    · exact absurd (hsecond ▸ heq) (hroot cid q hne hold)
    · exact hdb.roots cid cid' q q' hold hold' heq
  · obtain ⟨rfl, rfl⟩ | ⟨-, hq⟩ := hcases cid q hq
    · exact hselection
    · exact hdb.selected cid q hq
  · obtain ⟨rfl, rfl⟩ | ⟨-, hq⟩ := hcases cid q hq
    · rw [← hresolution, hsame.resolution, transact] at hr'
      have hr' : db.resolutions.get old.resolution = some r' := hr'
      rw [hr] at hr'
      rw [← some.inj hr', hpreparing] at hready
      cases hready
    · exact hdb.ready id r' hr' hready cid q hq hresolution

/-- A resolution has at most as many cases as its plan. -/
theorem Db.Sound.mem_cases (hr : db.resolutions.get r.id = some r) {cid : C}
    (hc : db.cases.get cid = some c) (hresolution : c.resolution = r.id) :
    c ∈ Benchmarks.cases db r.id := by
  obtain ⟨plan, ⟨⟨-, hmax, -⟩, -⟩, -, -, hcount⟩ := hdb.planned r.id r hr
  set rows := db.cases.select fun row ↦ row.resolution = r.id with hrows
  have hmem (q : Case U C R) (hq : q ∈ rows) :
      q.id = hasch.caseId r.id q.ordinal ∧ q.ordinal < plan.cases.length := by
    obtain ⟨hget, howner⟩ := mem_select.mp hq
    obtain ⟨hid, -⟩ := hdb.owned q.id q hget
    rw [of_decide_eq_true howner] at hid
    refine ⟨hid, (hcount q.ordinal).mpr ⟨q, ?_⟩⟩
    rw [← hid]
    exact hget
  have hlength : rows.length ≤ plan.cases.length := by
    have hnodup : (rows.map Case.ordinal).Nodup := by
      refine List.Nodup.map_on (fun q hq q' hq' heq ↦ ?_) ?_
      · refine inj_on_of_nodup_map (db.cases.nodup_select _) hq hq' ?_
        rw [(hmem q hq).1, (hmem q' hq').1, heq]
      · exact (db.cases.nodup_select _).of_map _
    have hsub : rows.map Case.ordinal ⊆ range plan.cases.length := by
      intro o ho
      obtain ⟨q, hq, rfl⟩ := mem_map.mp ho
      exact mem_range.mpr (hmem q hq).2
    have hle := (subperm_of_subset hnodup hsub).length_le
    simpa using hle
  unfold Benchmarks.cases
  rw [mem_insertionSort, ← hrows, take_of_length_le (by omega), hrows, mem_select, key_of_get hc]
  exact ⟨hc, decide_eq_true hresolution⟩

/-- Setting a resolution to ready, all of whose cases are retained. -/
theorem Db.Sound.setReady (hr : db.resolutions.get r.id = some r)
    (hretained : ∀ c ∈ Benchmarks.cases db r.id, c.state = .retained) (resolvedId : U) (resolvedRef : R) :
    (db.transact [.resolution { r with
      state := .ready, resolvedId := some resolvedId, resolved := some resolvedRef }]).Sound
      hasch := by
  set row : Resolution U P R := { r with
    state := .ready, resolvedId := some resolvedId, resolved := some resolvedRef } with hrow
  have hrows (id : U) (q : Resolution U P R) (hq : (db.resolutions.put row).get id = some q) :
      ∃ old, db.resolutions.get id = some old ∧ q.binding = old.binding ∧ q.planId = old.planId ∧
        q.semanticId = old.semanticId ∧ ((id = r.id ∧ q = row) ∨ (id ≠ r.id ∧ q = old)) := by
    rw [get_put] at hq
    split at hq
    · next h =>
      obtain rfl := some.inj hq
      exact ⟨r, h ▸ hr, rfl, rfl, rfl, .inl ⟨h, rfl⟩⟩
    · next h => exact ⟨q, hq, rfl, rfl, rfl, .inr ⟨h, rfl⟩⟩
  refine ⟨fun id id' q q' hq hq' heq ↦ ?_, fun id q hq ↦ ?_, fun cid c hc ↦ ?_, hdb.roots,
    hdb.selected, fun id q hq hready cid c hc hresolution ↦ ?_, fun id q hq ↦ ?_⟩
  · obtain ⟨old, hold, hbinding, -, -, hcase⟩ := hrows id q hq
    obtain ⟨old', hold', hbinding', -, -, hcase'⟩ := hrows id' q' hq'
    rw [hbinding, hbinding'] at heq
    have hsame : old = old' := hdb.once id id' old old' hold hold' heq
    have hids : id = id' := by rw [← key_of_get hold, ← key_of_get hold', hsame]
    obtain ⟨rfl, rfl⟩ | ⟨hne, rfl⟩ := hcase <;> obtain ⟨hid', rfl⟩ | ⟨hne', rfl⟩ := hcase'
    · rfl
    · exact absurd hids.symm hne'
    · exact absurd (hids.trans hid') hne
    · exact hsame
  · obtain ⟨old, hold, -, hplan, hsemantic, -⟩ := hrows id q hq
    rw [hplan, hsemantic]
    exact hdb.planned id old hold
  · obtain ⟨hid, old, hold⟩ := hdb.owned cid c hc
    refine ⟨hid, ?_⟩
    simp only [transact, foldl_cons, foldl_nil, write, get_put]
    split
    · exact ⟨row, rfl⟩
    · exact ⟨old, hold⟩
  · obtain ⟨old, hold, -, -, -, ⟨rfl, -⟩ | ⟨-, rfl⟩⟩ := hrows id q hq
    · exact hretained c (hdb.mem_cases hr hc hresolution)
    · exact hdb.ready id q hold hready cid c hc hresolution
  · obtain ⟨old, hold, -, -, -, ⟨-, rfl⟩ | ⟨-, rfl⟩⟩ := hrows id q hq
    · exact ⟨⟨fun _ ↦ rfl, fun _ ↦ rfl⟩, ⟨fun _ ↦ rfl, fun _ ↦ rfl⟩⟩
    · exact hdb.resolved id q hold

end

theorem Db.Sound.prepared (hinj : hasch.Injective) (hdb : db.Sound hasch) {request : Work.Row U}
    {plan : Plan U} {planRef : R} {tokens : Tokens U} (hnew : resolution db request.id = none)
    (hplan : plan.Valid) (htokens : tokens.Valid plan) (hunused : tokens.Unused hasch db) :
    (db.transact (.resolution (preparedResolution hasch request plan planRef tokens) ::
      (plannedCases hasch tokens).map .case)).Sound hasch := by
  rw [transact_prepared]
  set row : Resolution U P R := preparedResolution hasch request plan planRef tokens with hrow
  have hrows (id : U) (q : Resolution U P R) (hq : (db.resolutions.put row).get id = some q) :
      (id = tokens.id ∧ q = row) ∨ (id ≠ tokens.id ∧ db.resolutions.get id = some q) := by
    rw [get_put] at hq
    split at hq
    · next h => exact .inl ⟨h, (some.inj hq).symm⟩
    · next h => exact .inr ⟨h, hq⟩
  have hcases (cid : C) (q : Case U C R)
      (hq : (db.cases.putAll (plannedCases hasch tokens)).get cid = some q) :
      db.cases.get cid = some q ∨ ∃ i, ∃ _ : i < tokens.cases.length,
        q = plannedCase hasch tokens.id tokens.cases[i] i ∧ q.id = cid := by
    obtain hold | ⟨hmem, hid⟩ := (get_prepared hinj hunused).mp hq
    · exact .inl hold
    · obtain ⟨i, hi, hc⟩ := mem_plannedCases.mp hmem
      exact .inr ⟨i, hi, hc.symm, hid⟩
  -- the identity of the resolution is new, so no old case belongs to it
  have hforeign (cid : C) (q : Case U C R) (hq : db.cases.get cid = some q) :
      q.resolution ≠ tokens.id := by
    obtain ⟨-, r, hr⟩ := hdb.owned cid q hq
    intro heq
    rw [heq, hunused.1] at hr
    cases hr
  have hrequest (id : U) (q : Resolution U P R) (hq : db.resolutions.get id = some q) :
      q.binding.request ≠ row.binding.request := resolution_eq_none.mp hnew id q hq
  refine ⟨fun id id' q q' hq hq' heq ↦ ?_, fun id q hq ↦ ?_, fun cid c hc ↦ ?_,
    fun cid cid' c c' hc hc' heq ↦ ?_, fun cid c hc ↦ ?_,
    fun id q hq hready cid c hc hresolution ↦ ?_, fun id q hq ↦ ?_⟩
  · obtain ⟨-, hfirst⟩ | ⟨-, hold⟩ := hrows id q hq <;>
      obtain ⟨-, hsecond⟩ | ⟨-, hold'⟩ := hrows id' q' hq'
    · exact hfirst.trans hsecond.symm
    · exact absurd (hfirst ▸ heq.symm) (hrequest id' q' hold')
    · exact absurd (hsecond ▸ heq) (hrequest id q hold)
    · exact hdb.once id id' q q' hold hold' heq
  · obtain ⟨rfl, rfl⟩ | ⟨hne, hold⟩ := hrows id q hq
    · refine ⟨plan, hplan, rfl, rfl, fun o ↦ ?_⟩
      constructor
      · intro ho
        have hi : o < tokens.cases.length := htokens.1 ▸ ho
        refine ⟨plannedCase hasch tokens.id tokens.cases[o] o, ?_⟩
        exact (get_prepared hinj hunused).mpr (.inr ⟨mem_plannedCases.mpr ⟨o, hi, rfl⟩, rfl⟩)
      · rintro ⟨c, hc⟩
        obtain hold | ⟨i, hi, rfl, hcid⟩ := hcases _ c hc
        · have hid := (hdb.owned _ c hold).1
          exact absurd (hinj.case _ _ _ _ hid).1.symm (hforeign _ c hold)
        · rw [← (hinj.case _ _ _ _ hcid).2, htokens.1]
          exact hi
    · obtain ⟨p, hvalid, hid, hsemantic, hcount⟩ := hdb.planned id q hold
      refine ⟨p, hvalid, hid, hsemantic, fun o ↦ ?_⟩
      rw [hcount o]
      constructor
      · rintro ⟨c, hc⟩
        exact ⟨c, (get_prepared hinj hunused).mpr (.inl hc)⟩
      · rintro ⟨c, hc⟩
        obtain hold | ⟨i, _, rfl, hcid⟩ := hcases _ c hc
        · exact ⟨c, hold⟩
        · exact absurd (hinj.case _ _ _ _ hcid).1.symm hne
  · obtain hold | ⟨i, _, rfl, rfl⟩ := hcases cid c hc
    · obtain ⟨hid, r, hr⟩ := hdb.owned cid c hold
      refine ⟨hid, r, ?_⟩
      rw [get_put, if_neg]
      · exact hr
      · exact hforeign cid c hold
    · refine ⟨rfl, row, ?_⟩
      rw [get_put, if_pos]
      rfl
  · obtain hold | ⟨i, hi, rfl, -⟩ := hcases cid c hc <;>
      obtain hold' | ⟨j, hj, rfl, -⟩ := hcases cid' c' hc'
    · exact hdb.roots cid cid' c c' hold hold' heq
    · exact absurd heq (hunused.2.2 _ (getElem_mem hj) c (get_eq_some_iff.mp hold).1)
    · exact absurd heq.symm
        (hunused.2.2 _ (getElem_mem hi) c' (get_eq_some_iff.mp hold').1)
    · have hroot : (tokens.cases.map root)[i]? = (tokens.cases.map root)[j]? := by
        rw [getElem?_map, getElem?_map, getElem?_eq_getElem hi, getElem?_eq_getElem hj]
        exact congrArg some heq
      have hlength : i < (tokens.cases.map root).length := by
        rw [length_map]
        exact hi
      obtain rfl : i = j := (getElem?_inj hlength htokens.2.1).mp hroot
      rfl
  · obtain hold | ⟨i, _, rfl, -⟩ := hcases cid c hc
    · exact hdb.selected cid c hold
    · exact ⟨⟨fun _ ↦ rfl, fun _ ↦ rfl⟩, ⟨fun _ ↦ rfl, fun _ ↦ rfl⟩⟩
  · obtain ⟨-, rfl⟩ | ⟨hne, hold⟩ := hrows id q hq
    · cases hready
    · obtain hcold | ⟨i, _, rfl, -⟩ := hcases cid c hc
      · exact hdb.ready id q hold hready cid c hcold hresolution
      · exact absurd hresolution.symm hne
  · obtain ⟨-, rfl⟩ | ⟨-, hold⟩ := hrows id q hq
    · exact ⟨⟨by rintro ⟨⟩, by rintro ⟨⟩⟩, ⟨by rintro ⟨⟩, by rintro ⟨⟩⟩⟩
    · exact hdb.resolved id q hold

theorem Change.sound (hinj : hasch.Injective) (hdb : db.Sound hasch) (h : Change hasch db tx) :
    (db.transact tx).Sound hasch := by
  cases h with
  | nothing => exact hdb
  | prepared request plan planRef tokens hnew hplan htokens hunused =>
    exact hdb.prepared hinj hnew hplan htokens hunused
  | pinning c r selectionId selectionRef hcase hstate hresolution hpreparing =>
    exact hdb.setCase hcase ⟨rfl, rfl, rfl, rfl, rfl⟩ hresolution hpreparing
      ⟨⟨nofun, nofun⟩, ⟨nofun, nofun⟩⟩
  | retained c r hcase hstate hresolution hpreparing =>
    obtain ⟨hselection, hselectionId⟩ := hdb.selected c.id c hcase
    rw [hstate] at hselection hselectionId
    refine hdb.setCase hcase ⟨rfl, rfl, rfl, rfl, rfl⟩ hresolution hpreparing ⟨?_, ?_⟩
    · exact ⟨fun hnone ↦ absurd (hselection.mp hnone) nofun, nofun⟩
    · exact ⟨fun hnone ↦ absurd (hselectionId.mp hnone) nofun, nofun⟩
  | ready r resolvedId resolvedRef hresolution hpreparing hretained =>
    exact hdb.setReady hresolution hretained resolvedId resolvedRef

/-- A case only moves on, and keeps a selection that it has. -/
structure Case.Advances (old new : Case U C R) : Prop extends Case.Same old new where
  state : old.state.rank ≤ new.state.rank
  selection : Kept old.selection new.selection
  selectionId : Kept old.selectionId new.selectionId

/-- A resolution keeps all that it was prepared with, and what it was resolved to. -/
structure Resolution.Advances (old new : Resolution U P R) : Prop where
  id : new.id = old.id
  binding : new.binding = old.binding
  claim : new.claim = old.claim
  semanticId : new.semanticId = old.semanticId
  plan : new.plan = old.plan
  planId : new.planId = old.planId
  state : old.state.rank ≤ new.state.rank
  resolved : Kept old.resolved new.resolved
  resolvedId : Kept old.resolvedId new.resolvedId

omit [DecidableEq U] [DecidableEq C] in
theorem Case.Advances.refl (c : Case U C R) : c.Advances c :=
  ⟨⟨rfl, rfl, rfl, rfl, rfl⟩, le_refl _, Kept.refl _, Kept.refl _⟩

omit [DecidableEq U] [DecidableEq C] in
theorem Case.Advances.trans {a b : Case U C R} (h : a.Advances b) (h' : b.Advances c) :
    a.Advances c where
  id := h'.id.trans h.id
  resolution := h'.resolution.trans h.resolution
  ordinal := h'.ordinal.trans h.ordinal
  claim := h'.claim.trans h.claim
  root := h'.root.trans h.root
  state := h.state.trans h'.state
  selection := h.selection.trans h'.selection
  selectionId := h.selectionId.trans h'.selectionId

omit [DecidableEq U] in
theorem Resolution.Advances.refl (r : Resolution U P R) : r.Advances r :=
  ⟨rfl, rfl, rfl, rfl, rfl, rfl, le_refl _, Kept.refl _, Kept.refl _⟩

omit [DecidableEq U] in
theorem Resolution.Advances.trans {a b c : Resolution U P R} (h : a.Advances b)
    (h' : b.Advances c) : a.Advances c where
  id := h'.id.trans h.id
  binding := h'.binding.trans h.binding
  claim := h'.claim.trans h.claim
  semanticId := h'.semanticId.trans h.semanticId
  plan := h'.plan.trans h.plan
  planId := h'.planId.trans h.planId
  state := h.state.trans h'.state
  resolved := h.resolved.trans h'.resolved
  resolvedId := h.resolvedId.trans h'.resolvedId

structure Db.Advances (db db' : Db U P C R) : Prop where
  cases : db.cases.Grows Case.Advances db'.cases
  resolutions : db.resolutions.Grows Resolution.Advances db'.resolutions

theorem Db.Advances.refl (db : Db U P C R) : db.Advances db :=
  ⟨.refl Case.Advances.refl _, .refl Resolution.Advances.refl _⟩

theorem Db.Advances.trans {a b c : Db U P C R} (h : a.Advances b) (h' : b.Advances c) :
    a.Advances c :=
  ⟨Table.Grows.trans (R := Case.Advances) (fun _ _ _ ↦ .trans) h.cases h'.cases,
    Table.Grows.trans (R := Resolution.Advances) (fun _ _ _ ↦ .trans) h.resolutions h'.resolutions⟩

/-- Setting a case that moves on. -/
theorem Db.advances_case (hold : db.cases.get c.id = some old)
    (hc : old.Advances c) : db.Advances (db.transact [.case c]) := by
  refine ⟨grows_put Case.Advances.refl fun q hq ↦ ?_, .refl Resolution.Advances.refl _⟩
  rw [hold] at hq
  rwa [← some.inj hq]

theorem Change.advances (hinj : hasch.Injective) (hdb : db.Sound hasch) (h : Change hasch db tx) :
    db.Advances (db.transact tx) := by
  cases h with
  | nothing => exact .refl db
  | prepared request plan planRef tokens hnew hplan htokens hunused =>
    rw [transact_prepared]
    constructor
    · intro cid c hc
      exact ⟨c, (get_prepared hinj hunused).mpr (.inl hc), .refl c⟩
    · refine grows_put Resolution.Advances.refl fun q hq ↦ ?_
      have hnone : db.resolutions.get tokens.id = some q := hq
      rw [hunused.1] at hnone
      cases hnone
  | pinning c r selectionId selectionRef hcase hstate hresolution hpreparing =>
    obtain ⟨hselection, hselectionId⟩ := hdb.selected c.id c hcase
    refine advances_case hcase ⟨⟨rfl, rfl, rfl, rfl, rfl⟩, ?_, ?_, ?_⟩
    · rw [hstate]
      exact Nat.zero_le _
    · rw [hselection.mpr hstate]
      exact .of_none _
    · rw [hselectionId.mpr hstate]
      exact .of_none _
  | retained c r hcase hstate hresolution hpreparing =>
    refine advances_case hcase ⟨⟨rfl, rfl, rfl, rfl, rfl⟩, ?_, .refl _, .refl _⟩
    rw [hstate]
    exact Nat.le_succ 1
  | ready r resolvedId resolvedRef hresolution hpreparing hretained =>
    obtain ⟨hresolved, hresolvedId⟩ := hdb.resolved r.id r hresolution
    rw [hpreparing] at hresolved hresolvedId
    refine ⟨.refl Case.Advances.refl _, grows_put Resolution.Advances.refl fun q hq ↦ ?_⟩
    have hsame : db.resolutions.get r.id = some q := hq
    rw [hresolution] at hsame
    obtain rfl := some.inj hsame
    refine ⟨rfl, rfl, rfl, rfl, rfl, rfl, ?_, fun v hv ↦ ?_, fun v hv ↦ ?_⟩
    · rw [hpreparing]
      exact Nat.zero_le _
    · exact absurd (hresolved.mp (by rw [hv]; rfl)) nofun
    · exact absurd (hresolvedId.mp (by rw [hv]; rfl)) nofun

theorem get_transact_case (c : Case U C R) : (db.transact [.case c]).cases.get c.id = some c := by
  simp only [transact, foldl_cons, foldl_nil, write, get_put, if_true]

theorem get_transact_resolution (r : Resolution U P R) :
    (db.transact [.resolution r]).resolutions.get r.id = some r := by
  simp only [transact, foldl_cons, foldl_nil, write, get_put, if_true]

/-- A case that has moved on is not what it was. -/
theorem Db.Advances.stale_case {db' : Db U P C R} (h : db.Advances db')
    (hc : db.cases.get c.id = some c) (hid : c.id = old.id) (hrank : old.state.rank < c.state.rank) :
    db'.cases.get old.id ≠ some old := by
  intro hold
  obtain ⟨c', hc', hadvances⟩ := h.cases c.id c hc
  rw [hid, hold] at hc'
  have hle := hadvances.state
  rw [← some.inj hc'] at hle
  omega

/-- The states that a write gives to a case or to a resolution. -/
def Write.caseMove : Write U P C R → Option (C × CaseState)
  | .case row => some (row.id, row.state)
  | .resolution _ => none

def Write.resolutionMove : Write U P C R → Option (U × State)
  | .resolution row => some (row.id, row.state)
  | .case _ => none

def History.caseMoves (h : History U P C R) : List (C × CaseState) := h.log.filterMap Write.caseMove

def History.resolutionMoves (h : History U P C R) : List (U × State) :=
  h.log.filterMap Write.resolutionMove

/-- The log has each state of a row once. -/
structure History.Logged (h : History U P C R) : Prop where
  cases : Tracks h.db.cases Case.state CaseState.rank h.caseMoves
  resolutions : Tracks h.db.resolutions Resolution.state State.rank h.resolutionMoves

theorem CaseState.rank_injective : Function.Injective rank := by
  intro a b h
  cases a <;> cases b <;> first | rfl | cases h

theorem State.rank_injective : Function.Injective State.rank := by
  intro a b h
  cases a <;> cases b <;> first | rfl | cases h

theorem History.Logged.setCase {h : History U P C R} (hh : h.Logged)
    (hold : h.db.cases.get c.id = some old) (hstate : c.state.rank = old.state.rank + 1) :
    History.Logged { db := h.db.transact [.case c], log := h.log ++ [.case c] } := by
  constructor
  · rw [History.caseMoves, filterMap_append]
    exact hh.cases.put_next rank_injective hold hstate
  · rw [History.resolutionMoves, filterMap_append]
    exact (append_nil _).symm ▸ hh.resolutions

theorem History.Logged.change (hinj : hasch.Injective) {h : History U P C R} (hh : h.Logged)
    (htx : Change hasch h.db tx) :
    History.Logged { db := h.db.transact tx, log := h.log ++ tx } := by
  cases htx with
  | nothing => rwa [append_nil]
  | prepared request plan planRef tokens hnew hplan htokens hunused =>
    have hcases : ((plannedCases hasch tokens : List (Case U C R)).map case).filterMap
        (caseMove (P := P)) =
          (plannedCases hasch tokens : List (Case U C R)).map fun c ↦ (c.id, c.state) := by
      rw [filterMap_map, ← filterMap_eq_map]
      rfl
    have hresolutions : ((plannedCases hasch tokens : List (Case U C R)).map case).filterMap
        (resolutionMove (P := P)) = [] := by
      simp [resolutionMove]
    rw [transact_prepared]
    constructor
    · rw [History.caseMoves, filterMap_append, filterMap_cons]
      simp only [caseMove, hcases]
      refine hh.cases.putAll_new rank_injective (nodup_plannedCases hinj tokens)
        (fun c hc ↦ get_unused hunused hc) fun c hc ↦ ?_
      obtain ⟨i, hi, rfl⟩ := mem_plannedCases.mp hc
      rfl
    · rw [History.resolutionMoves, filterMap_append, filterMap_cons]
      simp only [resolutionMove, hresolutions]
      exact hh.resolutions.put_new State.rank_injective hunused.1 rfl
  | pinning c r selectionId selectionRef hcase hstate hresolution hpreparing =>
    exact hh.setCase hcase (by rw [hstate]; rfl)
  | retained c r hcase hstate hresolution hpreparing =>
    exact hh.setCase hcase (by rw [hstate]; rfl)
  | ready r resolvedId resolvedRef hresolution hpreparing hretained =>
    constructor
    · rw [History.caseMoves, filterMap_append]
      exact (append_nil _).symm ▸ hh.cases
    · rw [History.resolutionMoves, filterMap_append]
      exact hh.resolutions.put_next State.rank_injective hresolution (by rw [hpreparing]; rfl)

structure History.Sound (hasch : Hasch U P C) (h : History U P C R) : Prop where
  db : h.db.Sound hasch
  logged : h.Logged

theorem History.sound_init (hasch : Hasch U P C) : History.Sound hasch ({} : History U P C R) where
  db := ⟨nofun, nofun, nofun, nofun, nofun, nofun, nofun⟩
  logged := ⟨.empty _ _, .empty _ _⟩

section Step

variable [DecidableEq P] [DecidableEq R] {hasch : Hasch U P C} {h : History U P C R}

theorem step_ok {tx : List (Write U P C R)} (htx : call.tx hasch h.db = .ok tx) :
    step hasch h (.call call) = { db := h.db.transact tx, log := h.log ++ tx } := by
  simp only [step, htx]

section

variable (hinj : hasch.Injective) (hh : h.Sound hasch)
include hinj hh

theorem History.Sound.step (e : Event U P C R) : (step hasch h e).Sound hasch := by
  cases e with
  | requests rows =>
    exact ⟨⟨hh.db.once, hh.db.planned, hh.db.owned, hh.db.roots, hh.db.selected, hh.db.ready,
      hh.db.resolved⟩, ⟨hh.logged.cases, hh.logged.resolutions⟩⟩
  | call call =>
    cases htx : call.tx hasch h.db with
    | ok tx =>
      rw [step_ok htx]
      exact ⟨(Call.change htx).sound hinj hh.db, hh.logged.change hinj (Call.change htx)⟩
    | error e =>
      simp only [Benchmarks.step, htx]
      exact hh

theorem History.Sound.advances (e : Event U P C R) :
    h.db.Advances (Benchmarks.step hasch h e).db := by
  cases e with
  | requests rows => exact ⟨.refl Case.Advances.refl _, .refl Resolution.Advances.refl _⟩
  | call call =>
    cases htx : call.tx hasch h.db with
    | ok tx =>
      rw [step_ok htx]
      exact (Call.change htx).advances hinj hh.db
    | error e =>
      simp only [Benchmarks.step, htx]
      exact .refl h.db

theorem History.Sound.run (events : List (Event U P C R)) :
    (run (Benchmarks.step hasch) h events).Sound hasch :=
  run_preserves (History.Sound hasch) (fun _ e hh ↦ hh.step hinj e) hh events

theorem History.Sound.advances_run (events : List (Event U P C R)) :
    h.db.Advances (Runs.run (Benchmarks.step hasch) h events).db :=
  run_climbs (fun h h' ↦ h.db.Advances h'.db) (History.Sound hasch) (fun h ↦ .refl h.db)
    (fun _ _ _ ↦ Db.Advances.trans) (fun _ e hh ↦ hh.step hinj e) (fun _ e hh ↦ hh.advances hinj e)
    hh events

end

/-- A call that was accepted writes nothing when it is accepted again. -/
theorem History.Sound.replay (hinj : hasch.Injective) (hh : h.Sound hasch)
    {tx : List (Write U P C R)} (htx : call.tx hasch h.db = .ok tx) (later : List (Event U P C R))
    {tx' : List (Write U P C R)} (hagain : call.tx hasch
      (Runs.run (Benchmarks.step hasch) (Benchmarks.step hasch h (.call call)) later).db = .ok tx') :
    tx' = [] := by
  have hadvances := (hh.step hinj (.call call)).advances_run hinj later
  set final := Runs.run (Benchmarks.step hasch) (Benchmarks.step hasch h (.call call)) later
  rw [step_ok htx] at hadvances
  cases call with
  | prepare request plan planRef tokens =>
    obtain ⟨-, rfl⟩ | ⟨hnone, -⟩ := prepareTx_eq_ok hagain
    · rfl
    · obtain ⟨hsome, rfl⟩ | ⟨-, -, -, -, rfl⟩ := prepareTx_eq_ok htx
      · obtain ⟨r, hr⟩ := isSome_iff_exists.mp hsome
        obtain ⟨hget, hrequest⟩ := resolution_eq_some hr
        obtain ⟨r', hr', hr'advances⟩ := hadvances.resolutions r.id r hget
        exact absurd (hr'advances.binding ▸ hrequest) (resolution_eq_none.mp hnone r.id r' hr')
      · rw [transact_prepared] at hadvances
        obtain ⟨r', hr', hr'advances⟩ := hadvances.resolutions tokens.id
          (preparedResolution hasch request plan planRef tokens) (by rw [get_put, if_pos]; rfl)
        have hrequest : r'.binding.request = request.id := by
          rw [hr'advances.binding]
          rfl
        exact absurd hrequest (resolution_eq_none.mp hnone _ r' hr')
  | casePinning request expected plan expectedCase selectionId selectionRef =>
    obtain ⟨hget, -, -, ⟨-, rfl⟩ | ⟨hstate, -⟩⟩ := casePinningTx_eq_ok hagain
    · rfl
    · obtain ⟨-, -, -, ⟨hnot, -⟩ | ⟨-, rfl⟩⟩ := casePinningTx_eq_ok htx
      · exact absurd hstate hnot
      · exact absurd hget (hadvances.stale_case (get_transact_case _) rfl (by
          rw [hstate]
          exact Nat.lt_succ_self 0))
  | caseRetained request expected plan expectedCase =>
    obtain ⟨hget, -, -, ⟨-, rfl⟩ | ⟨hstate, -⟩⟩ := caseRetainedTx_eq_ok hagain
    · rfl
    · obtain ⟨-, -, -, ⟨hnot, -⟩ | ⟨-, rfl⟩⟩ := caseRetainedTx_eq_ok htx
      · rw [hstate] at hnot
        cases hnot
      · exact absurd hget (hadvances.stale_case (get_transact_case _) rfl (by
          rw [hstate]
          exact Nat.lt_succ_self 1))
  | ready request expected plan expectedCases resolvedId resolvedRef =>
    obtain ⟨hget, -, ⟨-, rfl⟩ | ⟨hstate, -⟩⟩ := readyTx_eq_ok hagain
    · rfl
    · obtain ⟨-, -, ⟨hnot, -⟩ | ⟨-, rfl⟩⟩ := readyTx_eq_ok htx
      · rw [hstate] at hnot
        cases hnot
      · obtain ⟨r', hr', hr'advances⟩ :=
          hadvances.resolutions expected.id _ (get_transact_resolution _)
        rw [hget] at hr'
        obtain rfl := some.inj hr'
        have hle := hr'advances.state
        rw [hstate] at hle
        cases hle

end Step

/-- The one row of a planned case. -/
theorem Db.Sound.existsUnique_case (hdb : db.Sound hasch) (hinj : hasch.Injective) {id : U} {o : ℕ}
    (hc : db.cases.get (hasch.caseId id o) = some c) :
    ∃! c, db.cases.get c.id = some c ∧ c.resolution = id ∧ c.ordinal = o := by
  have hcid := key_of_get hc
  obtain ⟨hid, -⟩ := hdb.owned _ c hc
  obtain ⟨hresolution, hordinal⟩ := hinj.case _ _ _ _ hid
  refine ⟨c, ⟨hcid ▸ hc, hresolution.symm, hordinal.symm⟩, ?_⟩
  rintro c' ⟨hc', rfl, rfl⟩
  rw [(hdb.owned _ c' hc').1, hc] at hc'
  exact (some.inj hc').symm

/-- Requests and resolutions move forward once and in order, a resolution has the cases of its plan
and is resolved exactly when it is ready, and nothing recorded is changed. -/
theorem ready_when_retained [DecidableEq P] [DecidableEq R] (hasch : Hasch U P C)
    (hinj : hasch.Injective) (events : List (Event U P C R)) :
    let h := run (step hasch) ({} : History U P C R) events
    (∀ id id' r r', h.db.resolutions.get id = some r → h.db.resolutions.get id' = some r' →
      r.binding.request = r'.binding.request → r = r') ∧
    (∀ id r, h.db.resolutions.get id = some r → ∃ plan : Plan U, plan.Valid ∧
      hasch.planId plan = r.planId ∧ plan.semanticId = r.semanticId ∧
      (∀ o < plan.cases.length,
        ∃! c, h.db.cases.get c.id = some c ∧ c.resolution = id ∧ c.ordinal = o) ∧
      ∀ c, h.db.cases.get c.id = some c → c.resolution = id → c.ordinal < plan.cases.length) ∧
    (∀ cid cid' c c', h.db.cases.get cid = some c → h.db.cases.get cid' = some c' →
      c.root = c'.root → c = c') ∧
    (h.caseMoves.Nodup ∧ ∀ cid state, (cid, state) ∈ h.caseMoves ↔
      ∃ c, h.db.cases.get cid = some c ∧ state.rank ≤ c.state.rank) ∧
    (h.resolutionMoves.Nodup ∧ ∀ id state, (id, state) ∈ h.resolutionMoves ↔
      ∃ r, h.db.resolutions.get id = some r ∧ state.rank ≤ r.state.rank) ∧
    (∀ cid c, h.db.cases.get cid = some c →
      (c.selection = none ↔ c.state = .planned) ∧ (c.selectionId = none ↔ c.state = .planned)) ∧
    (∀ id r, h.db.resolutions.get id = some r →
      (r.state = .ready → ∀ cid c, h.db.cases.get cid = some c → c.resolution = id →
        c.state = .retained) ∧
      (r.resolved.isSome ↔ r.state = .ready) ∧ (r.resolvedId.isSome ↔ r.state = .ready)) ∧
    (∀ later, h.db.Advances (run (step hasch) h later).db) ∧
    ∀ (call : Call U P C R) tx, call.tx hasch h.db = .ok tx → ∀ later tx',
      call.tx hasch (run (step hasch) (step hasch h (.call call)) later).db = .ok tx' →
        tx' = [] := by
  intro h
  have hh : h.Sound hasch := (History.sound_init hasch).run hinj events
  refine ⟨hh.db.once, fun id r hr ↦ ?_, hh.db.roots,
    ⟨hh.logged.cases.once, hh.logged.cases.mem_iff⟩,
    ⟨hh.logged.resolutions.once, hh.logged.resolutions.mem_iff⟩, hh.db.selected,
    fun id r hr ↦ ⟨hh.db.ready id r hr, hh.db.resolved id r hr⟩,
    fun later ↦ hh.advances_run hinj later, fun call tx htx later tx' hagain ↦
    hh.replay hinj htx later hagain⟩
  obtain ⟨plan, hvalid, hid, hsemantic, hcount⟩ := hh.db.planned id r hr
  refine ⟨plan, hvalid, hid, hsemantic, fun o ho ↦ ?_, fun c hc hresolution ↦ ?_⟩
  · obtain ⟨c, hc⟩ := (hcount o).mp ho
    exact hh.db.existsUnique_case hinj hc
  · refine (hcount c.ordinal).mpr ⟨c, ?_⟩
    rw [← hresolution, ← (hh.db.owned c.id c hc).1]
    exact hc

/-- A benchmark of one case is prepared, pinned, retained and resolved. -/
def prepareOne : List (Event ℕ (Plan ℕ) (ℕ × ℕ) ℕ) :=
  let request : Work.Row ℕ :=
    { id := 1, clientId := 2, by_ := 3, room := 4, kind := .benchmark, intentId := 5, claim := 6
      createdAt := 0, state := .submitted, publicationBasisId := none, knowledgeBatch := none
      knowledgeFrozen := none, limits := {}, payloadRef := none, job := some 7
      returnPending := some true, incident := none }
  let plan : Plan ℕ := ⟨8, 9, [⟨0, .default, 10⟩]⟩
  let tokens : Tokens ℕ := ⟨11, 12, [⟨13, 14⟩]⟩
  let resolution : Resolution ℕ (Plan ℕ) ℕ :=
    { id := 11, binding := requestBinding request, claim := 12, state := .preparing, semanticId := 8
      plan := 20, planId := plan, resolved := none, resolvedId := none }
  let planned : Case ℕ (ℕ × ℕ) ℕ :=
    { id := (11, 0), resolution := 11, ordinal := 0, claim := 13, state := .planned, root := 14
      selection := none, selectionId := none }
  let pinning := { planned with state := .pinning, selection := some 30, selectionId := some 31 }
  [.requests (Table.empty.put request), .call (.prepare request plan 20 tokens),
    .call (.casePinning request resolution plan planned 31 30),
    .call (.caseRetained request resolution plan pinning),
    .call (.ready request resolution plan [{ pinning with state := .retained }] 40 41)]

theorem ready_when_retained_example : let h := run (step ⟨id, Prod.mk⟩) {} prepareOne
    h.resolutionMoves = [(11, .preparing), (11, .ready)] ∧ h.caseMoves.Nodup :=
  ⟨by decide, (ready_when_retained ⟨id, Prod.mk⟩ ⟨Function.injective_id, fun _ _ _ _ heq ↦
    ⟨congrArg Prod.fst heq, congrArg Prod.snd heq⟩⟩ prepareOne).2.2.2.1.1⟩

end Simmis.Benchmarks
