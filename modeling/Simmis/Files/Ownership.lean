import Simmis.Files.Adoptions

/-!
# One owner of a publication

Over every run, a component has at most one operation that is not aborted, and the link names its
newest operation. An operation keeps its identity and moves forward only.
-/

namespace Simmis.Files

open List Option Runs Except Db Table Row Fork

variable {U : Type} [DecidableEq U] {h : Hasch U} {db db' : Db U}

section

omit [DecidableEq U]

@[simp] theorem entity_value (value : Operation U) : (entity value).value = value := rfl

@[simp] theorem value_entity (row : Row U) : entity row.value = row := rfl

theorem Binding.Same.refl (a : Binding U) : a.Same a := rfl

theorem Binding.Same.symm {a b : Binding U} (hsame : a.Same b) : b.Same a := by
  unfold Binding.Same at hsame ⊢
  rw [← hsame]

theorem Binding.Same.trans {a b c : Binding U} (h₁ : a.Same b) (h₂ : b.Same c) : a.Same c := by
  rw [← h₁] at h₂
  exact h₂

end

theorem validate_eq_ok {value result : Operation U} : validate h value = .ok result ↔
      (value.binding.Valid ∧ value.Sealed h ∧ value.Shaped) ∧ result = value := by
  simp only [validate, bind_eq_ok, require_eq_ok, exists_const, pure, Except.pure, Except.ok.injEq]
  constructor
  · rintro ⟨hvalid, hsealed, hshaped, rfl⟩
    exact ⟨⟨hvalid, hsealed, hshaped⟩, rfl⟩
  · rintro ⟨⟨hvalid, hsealed, hshaped⟩, rfl⟩
    exact ⟨hvalid, hsealed, hshaped, rfl⟩

/-- Every row of the journal passes its own re-read. -/
def Row.Valid (h : Hasch U) (row : Row U) : Prop :=
  row.value.binding.Valid ∧ row.value.Sealed h ∧ row.value.Shaped

theorem metadata_eq_ok {row : Row U} {value : Operation U} :
    metadata h row = .ok value ↔ row.Valid h ∧ value = row.value := validate_eq_ok

variable {found : Option (Operation U)} {id : U}

theorem operation_eq_ok : operation h db id = .ok found ↔ (db.rows.get id = none ∧ found = none) ∨
        ∃ row, db.rows.get id = some row ∧ row.Valid h ∧ found = some row.value := by
  unfold operation
  cases hget : db.rows.get id with
  | none => simp [eq_comm]
  | some row =>
    simp only [bind_eq_ok, metadata_eq_ok, pure, Except.pure, Except.ok.injEq]
    constructor
    · rintro ⟨value, ⟨hvalid, rfl⟩, rfl⟩
      exact .inr ⟨row, rfl, hvalid, rfl⟩
    · rintro (⟨hnone, -⟩ | ⟨row', hrow, hvalid, rfl⟩)
      · cases hnone
      · obtain rfl := some.inj hrow
        exact ⟨row.value, ⟨hvalid, rfl⟩, rfl⟩

theorem historical_eq_ok {row : Option (Operation U)} {rows : List (Row U)} :
    historical h row rows = .ok () ↔ ∀ r ∈ rows, r.Valid h ∧ ∃ current, row = some current ∧
      current.binding.Same r.value.binding ∧ (current.id = r.id ∨ r.state = .aborted) := by
  induction rows with
  | nil => simp [historical]
  | cons r rows ih =>
    simp only [historical, bind_eq_ok, metadata_eq_ok, require_eq_ok, exists_const, ih,
      forall_mem_cons]
    constructor
    · rintro ⟨value, ⟨hvalid, rfl⟩, hcurrent, hrows⟩
      obtain ⟨current, hrow, hsame⟩ := any_eq_true _ _ |>.mp hcurrent
      exact ⟨⟨hvalid, current, hrow, of_decide_eq_true hsame⟩, hrows⟩
    · rintro ⟨⟨hvalid, current, rfl, hsame⟩, hrows⟩
      exact ⟨r.value, ⟨hvalid, rfl⟩, decide_eq_true hsame, hrows⟩

theorem latest_eq_ok {fork : Fork U} : latest h db fork = .ok found ↔
      (fork.fileAdoption = none ∧ found = none) ∨
        ∃ id row, fork.fileAdoption = some id ∧ db.rows.get id = some row ∧ row.Valid h ∧
          found = some row.value ∧
          ((db.forks.select (·.fileAdoption = some id)).take 2).map (·.eid) = [fork.eid] := by
  unfold latest
  cases hlink : fork.fileAdoption with
  | none => simp [eq_comm]
  | some id =>
    simp only [bind_eq_ok, operation_eq_ok, require_eq_ok, exists_const, pure, Except.pure,
      Except.ok.injEq]
    constructor
    · rintro ⟨row, ⟨-, rfl⟩ | ⟨row, hrow, hvalid, rfl⟩, ⟨hsome, howners⟩, rfl⟩
      · cases hsome
      · exact .inr ⟨id, row, rfl, hrow, hvalid, rfl, howners⟩
    · rintro (⟨hnone, -⟩ | ⟨id', row, hid, hrow, hvalid, rfl, howners⟩)
      · cases hnone
      · obtain rfl := some.inj hid
        exact ⟨some row.value, .inr ⟨row, hrow, hvalid, rfl⟩, ⟨rfl, howners⟩, rfl⟩

/-- The newest row of a component. -/
def Db.newest (db : Db U) (component : U) : Option (Row U) := (db.history component).head?

variable {component : U}

theorem mem_history {row : Row U} :
    row ∈ db.history component ↔ db.rows.get row.id = some row ∧ row.component = component := by
  simp [history, mem_select]

theorem newest_mem {row : Row U} (hnewest : db.newest component = some row) :
    row ∈ db.history component := mem_of_head? hnewest

/-- What an accepted read of an open component has found. -/
theorem currentOperation_ok {eid : ℕ} (hok : currentOperation h db eid = .ok found) :
    ∃ fork component, db.forks.get eid = some fork ∧ fork.scope = some component ∧
      latest h db fork = .ok found ∧
      (db.linkInstalled → found = none → db.history component = []) := by
  unfold currentOperation at hok
  split at hok
  · next fork hfork =>
    simp only [checkedHistory, bind_eq_ok, require_eq_ok, exists_const, pure, Except.pure,
      Except.ok.injEq] at hok
    obtain ⟨⟨-, hscope, -⟩, row, hlatest, ⟨-, hrow⟩, -, -, -, rfl⟩ := hok
    obtain ⟨component, hcomponent⟩ := isSome_iff_exists.mp hscope
    refine ⟨fork, component, hfork, hcomponent, hlatest, fun hinstalled hnone ↦ ?_⟩
    rw [if_pos hinstalled, hcomponent] at hrow
    by_contra hhistory
    refine hrow (fun hnil ↦ hhistory ?_) hnone
    have htake := take_eq_nil_iff.mp hnil
    simpa [Db.history] using htake
  · cases hok

structure Db.Sound (h : Hasch U) (db : Db U) : Prop where
  valid : ∀ id row, db.rows.get id = some row → row.Valid h
  installed : db.linkInstalled = false → ∀ id, db.rows.get id = none
  linked : ∀ eid fork id, db.forks.get eid = some fork → fork.fileAdoption = some id →
    ∃ row, fork.scope = some row.component ∧ db.newest row.component = some row ∧ row.id = id
  sole : ∀ eid eid' fork fork', db.forks.get eid = some fork → db.forks.get eid' = some fork' →
    fork.fileAdoption.isSome → fork'.fileAdoption.isSome → fork.scope = fork'.scope → eid = eid'
  owned : ∀ component row, db.newest component = some row →
    (∃ eid fork, db.forks.get eid = some fork ∧ fork.fileAdoption = some row.id) ∧
      ∀ r ∈ db.history component, row.value.binding.Same r.value.binding ∧
        (row.id = r.id ∨ r.state = .aborted)

theorem sound_init : (init : Db U).Sound h where
  valid _ _ hrow := nomatch hrow
  installed _ _ := rfl
  linked _ _ _ hfork := nomatch hfork
  sole _ _ _ _ hfork := nomatch hfork
  owned _ _ hnewest := nomatch hnewest

section

variable (hdb : db.Sound h) {fork : Fork U}
include hdb

/-- The linked operation is a row of the fork's component. -/
theorem Db.Sound.linked_row {eid : ℕ} (hfork : db.forks.get eid = some fork)
    (hlink : fork.fileAdoption = some id) :
    ∃ row, db.rows.get id = some row ∧ fork.scope = some row.component ∧
      db.newest row.component = some row ∧ row.id = id := by
  obtain ⟨row, hscope, hnewest, rfl⟩ := hdb.linked eid fork id hfork hlink
  exact ⟨row, (mem_history.mp (newest_mem hnewest)).1, hscope, hnewest, rfl⟩

/-- Only one fork links to an operation. -/
theorem Db.Sound.owners (hfork : db.forks.get fork.eid = some fork)
    (hlink : fork.fileAdoption = some id) :
    ((db.forks.select (·.fileAdoption = some id)).take 2).map (·.eid) = [fork.eid] := by
  have hall (g : Fork U) (hg : g ∈ db.forks.select (·.fileAdoption = some id)) :
      g.eid = fork.eid := by
    obtain ⟨hget, hg⟩ := mem_select.mp hg
    have hg : g.fileAdoption = some id := of_decide_eq_true hg
    obtain ⟨row, hrow, hscope, -⟩ := hdb.linked_row hfork hlink
    obtain ⟨row', hrow', hscope', -⟩ := hdb.linked_row hget hg
    obtain rfl := some.inj (hrow.symm.trans hrow')
    exact hdb.sole _ _ g fork hget hfork (by simp [hg]) (by simp [hlink])
      (hscope'.trans hscope.symm)
  have hmem : fork ∈ db.forks.select (·.fileAdoption = some id) :=
    mem_select.mpr ⟨hfork, by simp [hlink]⟩
  have hnodup := nodup_select db.forks (·.fileAdoption = some id)
  generalize db.forks.select (·.fileAdoption = some id) = owners at hall hmem hnodup
  match owners, hall, hmem, hnodup with
  | [g], hall, _, _ => simp [hall g (by simp)]
  | g :: g' :: rest, hall, _, hnodup =>
    have hg := hall g (by simp)
    have hg' := hall g' (by simp)
    simp [hg, hg'] at hnodup

/-- The journal of an open component never refuses to read itself. -/
theorem Db.Sound.current {component : U} (hfork : db.forks.get fork.eid = some fork)
    (hopen : fork.fileOutput ∧ fork.status = none) (hscope : fork.scope = some component)
    (hown : fork.fileAdoption.isSome ∨ db.history component = [])
    (hbound : (db.history component).length ≤ 1000) :
    currentOperation h db fork.eid = .ok ((db.newest component).map value) := by
  have hlatest : latest h db fork = .ok ((db.newest component).map value) := by
    rw [latest_eq_ok]
    cases hlink : fork.fileAdoption with
    | none =>
      have hempty : db.history component = [] := by simpa [hlink] using hown
      exact .inl ⟨rfl, by simp [newest, hempty]⟩
    | some id =>
      obtain ⟨row, hrow, hrowScope, hnewest, rfl⟩ := hdb.linked_row hfork hlink
      obtain rfl := some.inj (hscope.symm.trans hrowScope)
      exact .inr ⟨row.id, row, rfl, hrow, hdb.valid _ row hrow, by rw [hnewest]; rfl,
        hdb.owners hfork hlink⟩
  have hhistory : (if db.linkInstalled then
      (db.rows.select fun r ↦ some r.component = fork.scope).take 1001 else []) =
      db.history component := by
    split
    · rw [hscope]
      have htake : (db.history component).take 1001 = db.history component :=
        take_of_length_le (by omega)
      simpa [history] using htake
    · next hinstalled =>
      refine (eq_nil_iff_forall_not_mem.mpr fun r hr ↦ ?_).symm
      have hget := (mem_history.mp hr).1
      rw [hdb.installed (by simpa using hinstalled)] at hget
      cases hget
  have hchecked : historical h ((db.newest component).map value) (db.history component) =
      .ok () := by
    rw [historical_eq_ok]
    intro r hr
    refine ⟨hdb.valid _ r (mem_history.mp hr).1, ?_⟩
    obtain ⟨row, hnewest⟩ : ∃ row, db.newest component = some row := by
      cases hhead : db.newest component with
      | none =>
        have hnil : db.history component = [] := head?_eq_none_iff.mp hhead
        rw [hnil] at hr
        cases hr
      | some row => exact ⟨row, rfl⟩
    exact ⟨row.value, by rw [hnewest]; rfl, (hdb.owned component row hnewest).2 r hr⟩
  have hcomponent : ((db.newest component).map value).all
      fun r ↦ some r.binding.component = fork.scope := by
    cases hnewest : db.newest component with
    | none => rfl
    | some row =>
      have hrow := (mem_history.mp (newest_mem hnewest)).2
      simp [value, hscope, hrow]
  have hsome : db.history component ≠ [] → (db.newest component).map value ≠ none := by
    intro hne hnone
    rw [map_eq_none_iff] at hnone
    exact hne (head?_eq_none_iff.mp hnone)
  unfold currentOperation
  rw [hfork]
  simp only [checkedHistory, bind_eq_ok, require_eq_ok, exists_const, pure, pure,
    ok.injEq, hlatest, hhistory]
  exact ⟨⟨hopen.1, by simp [hscope], hopen.2⟩, _, rfl, ⟨hbound, hsome⟩, hcomponent, (), hchecked, rfl⟩

end

/-- An accepted claim: the component has no owner, and the link is not on another fork. -/
structure Claiming (h : Hasch U) (db : Db U) (fork : Fork U) (value : Operation U) : Prop where
  found : db.forks.get fork.eid = some fork
  scope : fork.scope = some value.binding.component
  installed : db.linkInstalled
  valid : (entity value).Valid h
  state : value.state = .claimed
  fresh : db.rows.get value.id = none
  free : ∀ r ∈ db.history value.binding.component,
    value.binding.Same r.value.binding ∧ r.state = .aborted
  linked : db.history value.binding.component ≠ [] → fork.fileAdoption.isSome

/-- An accepted transition: the linked operation is patched to a valid value. -/
structure Moving (h : Hasch U) (db : Db U) (expected : Operation U) (next : State)
    (fields : Fields U) (now : Time) : Prop where
  row : db.rows.get expected.id = some (entity expected)
  newest : db.newest expected.binding.component = some (entity expected)
  valid : (entity (expected.move next fields now)).Valid h
  fit : fields.Fit expected.state next
  later : expected.updatedAt ≤ now

/-- Same component and same link. -/
def Fork.Same (fork fork' : Fork U) : Prop :=
  fork'.scope = fork.scope ∧ fork'.fileAdoption = fork.fileAdoption

/-- What one step does to the rows and the links. -/
inductive Change (h : Hasch U) (db : Db U) : Db U → Prop
  | unchanged (db' : Db U) (hrows : db'.rows = db.rows)
      (hold : Table.Grows Fork.Same db.forks db'.forks)
      (hnew : ∀ eid fork', db'.forks.get eid = some fork' → fork'.fileAdoption = none ∨
        ∃ fork, db.forks.get eid = some fork ∧ fork.Same fork')
      (hinstalled : db.linkInstalled → db'.linkInstalled) : Change h db db'
  | claimed (fork : Fork U) (value : Operation U) (hclaiming : Claiming h db fork value) :
      Change h db { db with
        rows := db.rows.put (entity value)
        forks := db.forks.modify fork.eid (Fork.link value.id) }
  | moved (expected : Operation U) (next : State) (fields : Fields U) (now : Time)
      (hmoving : Moving h db expected next fields now) :
      Change h db { db with rows := db.rows.set (entity (expected.move next fields now)) }

theorem openFork_eq_ok {eid : ℕ} {fork : Fork U} :
    openFork db eid component = .ok fork ↔ db.forks.get eid = some fork ∧
      fork.fileOutput ∧ fork.scope = some component ∧ fork.status = none := by
  unfold openFork
  cases hget : db.forks.get eid with
  | none => simp
  | some found =>
    simp only [bind_eq_ok, require_eq_ok, exists_const, pure, Except.pure, Except.ok.injEq,
      some.injEq]
    constructor
    · rintro ⟨hopen, rfl⟩
      exact ⟨rfl, hopen⟩
    · rintro ⟨rfl, hopen⟩
      exact ⟨hopen, rfl⟩

/-- A linked operation that was read back is the newest row of its component. -/
theorem Db.Sound.newest_of_latest (hdb : db.Sound h) {fork : Fork U}
    {value : Operation U} (hfork : db.forks.get fork.eid = some fork)
    (hscope : fork.scope = some component) (hlatest : latest h db fork = .ok (some value)) :
    fork.fileAdoption = some value.id ∧ db.rows.get value.id = some (entity value) ∧
      db.newest component = some (entity value) := by
  obtain ⟨-, hnone⟩ | ⟨id, row, hlink, hrow, -, hvalue, -⟩ := latest_eq_ok.mp hlatest
  · cases hnone
  · obtain rfl := some.inj hvalue
    obtain ⟨row', hrow', hscope', hnewest, rfl⟩ := hdb.linked_row hfork hlink
    obtain rfl := some.inj (hrow.symm.trans hrow')
    obtain rfl := some.inj (hscope.symm.trans hscope')
    exact ⟨hlink, hrow, hnewest⟩

theorem claimTxData_ok (hdb : db.Sound h) {eid : ℕ} {value : Operation U} {writes : List (Write U)}
    (hok : claimTxData h db eid value = .ok writes) :
    ∃ fork, fork.eid = eid ∧ Claiming h db fork value ∧
      writes = [.insert (entity value), .link eid value.id] := by
  simp only [claimTxData, bind_eq_ok, validate_eq_ok, require_eq_ok, exists_const, openFork_eq_ok,
    operation_eq_ok, pure, Except.pure, Except.ok.injEq] at hok
  obtain ⟨-, ⟨hvalid, -⟩, hstate, hinstalled, fork, ⟨hfork, hopen⟩, found, hcurrent, hsame,
    existing, hexisting, ⟨hnone, haborted⟩, rfl⟩ := hok
  obtain rfl := key_of_get hfork
  obtain ⟨fork', component, hfork', hcomponent, hlatest, hempty⟩ := currentOperation_ok hcurrent
  obtain rfl := some.inj (hfork.symm.trans hfork')
  obtain rfl := some.inj (hopen.2.1.symm.trans hcomponent)
  have hfresh : db.rows.get value.id = none := by
    rcases hexisting with ⟨hget, -⟩ | ⟨row, -, -, rfl⟩
    · exact hget
    · cases hnone
  refine ⟨fork, rfl, ⟨hfork, hcomponent, hinstalled, hvalid, hstate, hfresh, ?_, ?_⟩, rfl⟩
  · cases found with
    | none =>
      rw [hempty hinstalled rfl]
      exact fun r hr ↦ nomatch hr
    | some previous =>
      obtain ⟨-, -, hnewest⟩ := hdb.newest_of_latest hfork hcomponent hlatest
      have hsame : previous.binding.Same value.binding := of_decide_eq_true hsame
      have haborted : previous.state = .aborted := of_decide_eq_true haborted
      intro r hr
      obtain ⟨hrow, hr'⟩ := (hdb.owned _ _ hnewest).2 r hr
      refine ⟨hsame.symm.trans hrow, ?_⟩
      rcases hr' with hid | hr'
      · have hmem := newest_mem hnewest
        have hget := (mem_history.mp hr).1
        have hgetNewest := (mem_history.mp hmem).1
        rw [hid, hget] at hgetNewest
        rw [some.inj hgetNewest]
        exact haborted
      · exact hr'
  · intro hhistory
    cases found with
    | none => exact absurd (hempty hinstalled rfl) hhistory
    | some previous =>
      obtain ⟨hlink, -⟩ := hdb.newest_of_latest hfork hcomponent hlatest
      simp [hlink]

omit [DecidableEq U] in
/-- A transition keeps every attribute that it does not replace. -/
theorem upsert_move (expected : Operation U) (next : State) (fields : Fields U) (now : Time) :
    (entity (expected.move next fields now)).upsert (entity expected) =
      entity (expected.move next fields now) := by
  simp [upsert, entity, Operation.move, Option.or_assoc]

variable {expected : Operation U} {fields : Fields U} {next : State} {now : Time}

theorem transitionTxData_ok (hdb : db.Sound h) {eid : ℕ} {writes : List (Write U)}
    (hok : transitionTxData h db eid expected next fields now = .ok writes) :
    Moving h db expected next fields now ∧
      writes = [.patch (entity (expected.move next fields now))] := by
  simp only [transitionTxData, linkedOperation, bind_eq_ok, validate_eq_ok, require_eq_ok,
    exists_const, openFork_eq_ok, pure, Except.pure, Except.ok.injEq] at hok
  obtain ⟨-, ⟨-, -, fork, ⟨hfork, -, hscope, -⟩, current, hcurrent, rfl, -⟩, ⟨hlater, hfit⟩, moved,
    ⟨hvalid, rfl⟩, rfl⟩ := hok
  obtain rfl := key_of_get hfork
  obtain ⟨fork', component, hfork', hcomponent, hlatest, -⟩ := currentOperation_ok hcurrent
  obtain rfl := some.inj (hfork.symm.trans hfork')
  obtain rfl := some.inj (hscope.symm.trans hcomponent)
  obtain ⟨-, hrow, hnewest⟩ := hdb.newest_of_latest hfork hcomponent hlatest
  exact ⟨⟨hrow, hnewest, hvalid, hfit, hlater⟩, rfl⟩

theorem step_change (hdb : db.Sound h) (step : Step U) : Change h db (db.step h step) := by
  have hrefl : Change h db db :=
    .unchanged db rfl (.refl (fun _ ↦ ⟨rfl, rfl⟩) _) (fun _ f hf ↦ .inr ⟨f, hf, rfl, rfl⟩) id
  cases step with
  | install =>
    exact .unchanged _ rfl (.refl (fun _ ↦ ⟨rfl, rfl⟩) _) (fun _ f hf ↦ .inr ⟨f, hf, rfl, rfl⟩)
      fun _ ↦ rfl
  | openComponent fork =>
    simp only [step]
    split
    · next hnone =>
      refine .unchanged _ rfl ?_ (fun eid fork' hfork' ↦ ?_) id
      · refine grows_put (fun _ ↦ ⟨rfl, rfl⟩) fun f hf ↦ ?_
        rw [hnone] at hf
        cases hf
      · rw [get_put] at hfork'
        split at hfork'
        · obtain rfl := some.inj hfork'
          exact .inl rfl
        · exact .inr ⟨fork', hfork', rfl, rfl⟩
    · exact hrefl
  | resolve eid status =>
    refine .unchanged _ rfl (grows_modify (fun _ ↦ ⟨rfl, rfl⟩) (fun _ ↦ rfl) fun _ _ ↦
      ⟨rfl, rfl⟩) (fun eid' fork' hfork' ↦ .inr ?_) id
    have hstems : Table.Stems Fork.Same db.forks (db.forks.modify eid (resolve status)) :=
      stems_modify (fun _ ↦ ⟨rfl, rfl⟩) (fun _ ↦ rfl) fun _ _ ↦ ⟨rfl, rfl⟩
    exact hstems eid' fork' hfork'
  | claim eid value =>
    simp only [step]
    split
    · next writes hok =>
      obtain ⟨fork, rfl, hclaiming, rfl⟩ := claimTxData_ok hdb hok
      exact .claimed fork value hclaiming
    · exact hrefl
  | transition eid expected next fields now =>
    simp only [step]
    split
    · next writes hok =>
      obtain ⟨hmoving, rfl⟩ := transitionTxData_ok hdb hok
      have hset : db.rows.modify (entity (expected.move next fields now)).id
          (entity (expected.move next fields now)).upsert =
          db.rows.set (entity (expected.move next fields now)) := by
        refine modify_eq_set fun old hold ↦ ?_
        obtain rfl := some.inj (hmoving.row.symm.trans hold)
        exact upsert_move expected next fields now
      change Change h db { db with rows := db.rows.modify _ _ }
      rw [hset]
      exact .moved expected next fields now hmoving
    · exact hrefl

omit [DecidableEq U] in
theorem entity_component (value : Operation U) :
    (entity value).component = value.binding.component := rfl

theorem history_claimed {fork : Fork U} {value : Operation U}
    (hclaiming : Claiming h db fork value) {forks : Table (eid (U := U))} {installed : Bool}
    (component : U) :
    (⟨db.rows.put (entity value), forks, installed⟩ : Db U).history component =
      if value.binding.component = component then entity value :: db.history component
      else db.history component := by
  have hselect := select_put (r := entity value) hclaiming.fresh (·.component = component)
  rw [history, hselect]
  by_cases hcomponent : value.binding.component = component
  · have hkeep : decide ((entity value).component = component) := decide_eq_true hcomponent
    rw [if_pos hcomponent, if_pos hkeep]
    rfl
  · have hdrop : ¬ decide ((entity value).component = component) :=
      decide_eq_true_iff.not.mpr hcomponent
    rw [if_neg hcomponent, if_neg hdrop]
    rfl

omit [DecidableEq U] in
theorem Fork.link_eid (id : U) (fork : Fork U) : (fork.link id).eid = fork.eid := rfl

/-- The patch of an accepted transition, on any row. -/
def Moving.patch (moved q : Row U) : Row U := if q.id = moved.id then moved else q

/-- A transition keeps the rows of every component and their order. -/
theorem history_moved (hmoving : Moving h db expected next fields now) (component : U) :
    ({ db with rows := db.rows.set (entity (expected.move next fields now)) } : Db U).history
      component = (db.history component).map
        (Moving.patch (entity (expected.move next fields now))) :=
  select_set (r := entity (expected.move next fields now)) hmoving.row rfl

/-- The state after any interleaving of calls, of any callers. -/
abbrev reached (h : Hasch U) (steps : List (Step U)) : Db U := run (Db.step h) Db.init steps

section

variable (hdb : db.Sound h)
include hdb

theorem claimed_sound {fork : Fork U} {value : Operation U} (hclaiming : Claiming h db fork value) :
    Db.Sound h { db with
      rows := db.rows.put (entity value)
      forks := db.forks.modify fork.eid (link value.id) } := by
  have hforks (eid : ℕ) (f : Fork U)
      (hf : (db.forks.modify fork.eid (link value.id)).get eid = some f) :
      eid = fork.eid ∧ f = fork.link value.id ∨ eid ≠ fork.eid ∧ db.forks.get eid = some f := by
    rw [get_modify_some (link_eid value.id) hclaiming.found] at hf
    split at hf
    · next heq => exact .inl ⟨heq, (some.inj hf).symm⟩
    · next hne => exact .inr ⟨hne, hf⟩
  -- a fork that links into the component is the claiming one
  have honly (eid : ℕ) (f : Fork U) (hf : db.forks.get eid = some f)
      (hlink : f.fileAdoption.isSome) (hscope : f.scope = some value.binding.component) :
      eid = fork.eid := by
    obtain ⟨id, hid⟩ := isSome_iff_exists.mp hlink
    obtain ⟨row, -, hrowScope, hnewest, -⟩ := hdb.linked_row hf hid
    obtain heq := some.inj (hscope.symm.trans hrowScope)
    rw [← heq] at hnewest
    have hhistory : db.history value.binding.component ≠ [] := by
      intro hnil
      rw [newest, hnil] at hnewest
      cases hnewest
    exact hdb.sole _ _ f fork hf hclaiming.found hlink (hclaiming.linked hhistory)
      (hscope.trans hclaiming.scope.symm)
  refine
    { valid := fun id row hrow ↦ ?_
      installed := fun hnone ↦ ?_
      linked := fun eid f id hf hid ↦ ?_
      sole := fun eid eid' f f' hf hf' hlink hlink' hscope ↦ ?_
      owned := fun component row hnewest ↦ ?_ }
  · rw [get_put] at hrow
    split at hrow
    · obtain rfl := some.inj hrow
      exact hclaiming.valid
    · exact hdb.valid id row hrow
  · exact absurd (hnone.symm.trans hclaiming.installed) Bool.false_ne_true
  · simp only [newest, history_claimed hclaiming]
    rcases hforks eid f hf with ⟨-, rfl⟩ | ⟨hne, hf⟩
    · obtain rfl := some.inj hid
      exact ⟨entity value, hclaiming.scope, by simp [entity_component], rfl⟩
    · obtain ⟨row, -, hscope, hnewest, rfl⟩ := hdb.linked_row hf hid
      have hother : value.binding.component ≠ row.component := by
        intro heq
        exact hne (honly eid f hf (by simp [hid]) (by rw [hscope, heq]))
      exact ⟨row, hscope, by rw [if_neg hother]; exact hnewest, rfl⟩
  · rcases hforks eid f hf with ⟨rfl, rfl⟩ | ⟨-, hf⟩
    · rcases hforks eid' f' hf' with ⟨rfl, rfl⟩ | ⟨-, hf'⟩
      · rfl
      · exact (honly eid' f' hf' hlink' (hscope.symm.trans hclaiming.scope)).symm
    · rcases hforks eid' f' hf' with ⟨rfl, rfl⟩ | ⟨-, hf'⟩
      · exact honly eid f hf hlink (hscope.trans hclaiming.scope)
      · exact hdb.sole eid eid' f f' hf hf' hlink hlink' hscope
  · have hget (eid : ℕ) := get_modify_some (link_eid value.id) hclaiming.found eid
    rw [newest, history_claimed hclaiming] at hnewest
    rw [history_claimed hclaiming]
    split at hnewest
    · next heq =>
      subst heq
      obtain rfl := some.inj hnewest
      rw [if_pos rfl]
      refine ⟨⟨fork.eid, fork.link value.id, by rw [hget, if_pos rfl], rfl⟩, fun r hr ↦ ?_⟩
      rcases mem_cons.mp hr with rfl | hr
      · exact ⟨.refl _, .inl rfl⟩
      · obtain ⟨hsame, haborted⟩ := hclaiming.free r hr
        exact ⟨hsame, .inr haborted⟩
    · next hne =>
      rw [if_neg hne]
      obtain ⟨⟨eid, f, hf, hlink⟩, hrows⟩ := hdb.owned component row hnewest
      refine ⟨⟨eid, f, ?_, hlink⟩, hrows⟩
      have hother : eid ≠ fork.eid := by
        rintro rfl
        obtain rfl := some.inj (hclaiming.found.symm.trans hf)
        obtain ⟨row', hrow', hscope, -⟩ := hdb.linked_row hf hlink
        obtain ⟨hrow, hcomponent⟩ := mem_history.mp (newest_mem hnewest)
        obtain rfl := some.inj (hrow.symm.trans hrow')
        have hscope' := some.inj (hclaiming.scope.symm.trans hscope)
        exact hne (hscope'.trans hcomponent)
      rw [hget, if_neg hother]
      exact hf

theorem unchanged_sound {db' : Db U} (hrows : db'.rows = db.rows)
    (hold : Table.Grows Fork.Same db.forks db'.forks)
    (hnew : ∀ eid fork', db'.forks.get eid = some fork' → fork'.fileAdoption = none ∨
      ∃ fork, db.forks.get eid = some fork ∧ fork.Same fork')
    (hinstalled : db.linkInstalled → db'.linkInstalled) : db'.Sound h := by
  have hhistory (component : U) : db'.history component = db.history component := by
    rw [history, hrows]
    rfl
  have hnewest (component : U) : db'.newest component = db.newest component :=
    congrArg head? (hhistory component)
  have hback (eid : ℕ) (fork' : Fork U) (hfork' : db'.forks.get eid = some fork')
      (hlink : fork'.fileAdoption.isSome) :
      ∃ fork, db.forks.get eid = some fork ∧ fork.Same fork' := by
    rcases hnew eid fork' hfork' with hnone | hfork
    · simp [hnone] at hlink
    · exact hfork
  refine
    { valid := fun id row hrow ↦ hdb.valid id row (hrows ▸ hrow)
      installed := fun hnone id ↦ ?_
      linked := fun eid f id hf hid ↦ ?_
      sole := fun eid eid' f f' hf hf' hlink hlink' hscope ↦ ?_
      owned := fun component row hrow ↦ ?_ }
  · rw [hrows]
    refine hdb.installed (Bool.eq_false_iff.mpr fun htrue ↦ ?_) id
    exact Bool.false_ne_true (hnone.symm.trans (hinstalled htrue))
  · obtain ⟨fork, hfork, hscope, hlink⟩ := hback eid f hf (by simp [hid])
    obtain ⟨row, hrow, hrowNewest, hrowId⟩ := hdb.linked eid fork id hfork (hlink.symm.trans hid)
    exact ⟨row, hscope.trans hrow, (hnewest _).trans hrowNewest, hrowId⟩
  · obtain ⟨fork, hfork, hsame⟩ := hback eid f hf hlink
    obtain ⟨fork', hfork', hsame'⟩ := hback eid' f' hf' hlink'
    refine hdb.sole eid eid' fork fork' hfork hfork' ?_ ?_ ?_
    · rwa [← hsame.2]
    · rwa [← hsame'.2]
    · rw [← hsame.1, ← hsame'.1, hscope]
  · rw [hnewest] at hrow
    obtain ⟨⟨eid, fork, hfork, hlink⟩, hrows⟩ := hdb.owned component row hrow
    obtain ⟨fork', hfork', hsame⟩ := hold eid fork hfork
    rw [hhistory]
    exact ⟨⟨eid, fork', hfork', hsame.2.trans hlink⟩, hrows⟩

theorem moved_sound (hmoving : Moving h db expected next fields now) :
    Db.Sound h { db with rows := db.rows.set (entity (expected.move next fields now)) } := by
  set moved := entity (expected.move next fields now) with hmoved
  have hold : db.rows.get moved.id = some (entity expected) := hmoving.row
  have hpatch (q : Row U) (hq : db.rows.get q.id = some q) :
      (Moving.patch moved q).id = q.id ∧ (Moving.patch moved q).component = q.component ∧
        (Moving.patch moved q).value.binding = q.value.binding := by
    unfold Moving.patch
    split
    · next heq =>
      rw [heq] at hq
      obtain rfl := some.inj (hold.symm.trans hq)
      exact ⟨rfl, rfl, rfl⟩
    · exact ⟨rfl, rfl, rfl⟩
  have hnewest (component : U) :
      ({ db with rows := db.rows.set moved } : Db U).newest component =
        (db.newest component).map (Moving.patch moved) := by
    rw [newest, history_moved hmoving, head?_map]
    rfl
  refine
    { valid := fun id row hrow ↦ ?_
      installed := fun hnone id ↦ ?_
      linked := fun eid f id hf hid ↦ ?_
      sole := hdb.sole
      owned := fun component row hrow ↦ ?_ }
  · rw [get_set hold] at hrow
    split at hrow
    · obtain rfl := some.inj hrow
      exact hmoving.valid
    · exact hdb.valid id row hrow
  · have hnone := hdb.installed hnone moved.id
    rw [hold] at hnone
    cases hnone
  · obtain ⟨row, hrow, hscope, hrowNewest, rfl⟩ := hdb.linked_row hf hid
    obtain ⟨hpatchId, hpatchComponent, -⟩ := hpatch row hrow
    refine ⟨Moving.patch moved row, by rw [hpatchComponent]; exact hscope, ?_, hpatchId⟩
    rw [hpatchComponent, hnewest, hrowNewest]
    rfl
  · rw [hnewest] at hrow
    obtain ⟨row, hold', rfl⟩ := map_eq_some_iff.mp hrow
    have hrowGet := (mem_history.mp (newest_mem hold')).1
    obtain ⟨hlink, hrows⟩ := hdb.owned component row hold'
    obtain ⟨hpatchId, -, hbinding⟩ := hpatch row hrowGet
    rw [hpatchId, hbinding, history_moved hmoving]
    refine ⟨hlink, fun r hr ↦ ?_⟩
    obtain ⟨q, hq, rfl⟩ := mem_map.mp hr
    have hqGet := (mem_history.mp hq).1
    obtain ⟨hqId, -, hqBinding⟩ := hpatch q hqGet
    obtain ⟨hsame, hstate⟩ := hrows q hq
    rw [← hmoved, hqId, hqBinding]
    refine ⟨hsame, ?_⟩
    by_cases hid : row.id = q.id
    · exact .inl hid
    · right
      have haborted := hstate.resolve_left hid
      have hother : q.id ≠ moved.id := by
        intro heq
        -- the patched row is the newest of its component
        rw [heq] at hqGet
        obtain rfl := some.inj (hold.symm.trans hqGet)
        have hcomponent := (mem_history.mp hq).2
        have hmovingNewest := hmoving.newest
        rw [show expected.binding.component = component from hcomponent] at hmovingNewest
        exact hid (congrArg Row.id (some.inj (hold'.symm.trans hmovingNewest)))
      rw [Moving.patch, if_neg hother]
      exact haborted

theorem Change.sound (hchange : Change h db db') : db'.Sound h := by
  cases hchange with
  | unchanged _ hrows hold hnew hinstalled => exact unchanged_sound hdb hrows hold hnew hinstalled
  | claimed fork value hclaiming => exact claimed_sound hdb hclaiming
  | moved expected next fields now hmoving => exact moved_sound hdb hmoving

theorem step_sound (step : Step U) : (db.step h step).Sound h :=
  (step_change hdb step).sound hdb

end

theorem reached_sound (h : Hasch U) (steps : List (Step U)) : (reached h steps).Sound h :=
  run_preserves (Db.Sound h) (fun _ step hdb ↦ step_sound hdb step) sound_init steps

/-- The transitions of a journal operation. -/
def State.Moves (old new : State) : Prop :=
  old = .claimed ∧ new = .applying ∨ old = .applying ∧ new = .accepted ∨
    old = .claimed ∧ new = .aborted

/-- What never changes of an operation, and its clock. -/
structure Row.Advances (old new : Row U) : Prop where
  id : new.id = old.id
  intent : new.intent = old.intent
  token : new.token = old.token
  binding : new.value.binding = old.value.binding
  updatedAt : old.updatedAt ≤ new.updatedAt

section

omit [DecidableEq U]

theorem Row.Advances.refl (row : Row U) : row.Advances row := ⟨rfl, rfl, rfl, rfl, le_rfl⟩

theorem Row.Advances.trans {a b c : Row U} (h₁ : a.Advances b) (h₂ : b.Advances c) :
    a.Advances c where
  id := h₂.id.trans h₁.id
  intent := h₂.intent.trans h₁.intent
  token := h₂.token.trans h₁.token
  binding := h₂.binding.trans h₁.binding
  updatedAt := h₁.updatedAt.trans h₂.updatedAt

def Row.Moves (old new : Row U) : Prop :=
  old.Advances new ∧ (new.state = old.state ∨ old.state.Moves new.state)

theorem Row.Moves.refl (row : Row U) : row.Moves row := ⟨.refl row, .inl rfl⟩

theorem Fields.Fit.moves {state : State} (hfit : fields.Fit state next) : state.Moves next := by
  cases next with
  | claimed => exact hfit.elim
  | applying => exact .inl ⟨hfit.1, rfl⟩
  | accepted => exact .inr (.inl ⟨hfit.1, rfl⟩)
  | aborted => exact .inr (.inr ⟨hfit.1, rfl⟩)

end

theorem Change.moves (hchange : Change h db db') : Table.Grows Row.Moves db.rows db'.rows := by
  cases hchange with
  | unchanged _ hrows =>
    rw [hrows]
    exact .refl Row.Moves.refl _
  | claimed fork value hclaiming =>
    refine grows_put Row.Moves.refl fun old hold ↦ ?_
    have hnone : db.rows.get (entity value).id = none := hclaiming.fresh
    rw [hnone] at hold
    cases hold
  | moved expected next fields now hmoving =>
    intro id row hrow
    rw [get_set hmoving.row]
    split
    · next heq =>
      subst heq
      obtain rfl := some.inj (hmoving.row.symm.trans hrow)
      exact ⟨_, rfl, ⟨rfl, rfl, rfl, rfl, hmoving.later⟩, .inr hmoving.fit.moves⟩
    · exact ⟨row, hrow, .refl row⟩

/-- Publication has begun: the operation can no longer be released. -/
def State.held (state : State) : Prop := state = .applying ∨ state = .accepted

theorem State.Moves.held {old new : State} (hmoves : old.Moves new) (hheld : old.held) :
    new.held := by
  rcases hmoves with ⟨rfl, rfl⟩ | ⟨rfl, rfl⟩ | ⟨rfl, rfl⟩
  · exact .inl rfl
  · exact .inr rfl
  · rcases hheld with hheld | hheld <;> cases hheld

/-- A held operation stays the newest of its component. -/
theorem Change.holds (hchange : Change h db db') {component : U} {row : Row U}
    (hnewest : db.newest component = some row) (hheld : row.state.held) :
    ∃ row', db'.newest component = some row' ∧ row'.id = row.id ∧ row'.state.held := by
  cases hchange with
  | unchanged _ hrows =>
    refine ⟨row, ?_, rfl, hheld⟩
    rw [newest, history, hrows]
    exact hnewest
  | claimed fork value hclaiming =>
    refine ⟨row, ?_, rfl, hheld⟩
    rw [newest, history_claimed hclaiming, if_neg]
    · exact hnewest
    · rintro rfl
      obtain ⟨-, haborted⟩ := hclaiming.free row (newest_mem hnewest)
      rcases hheld with hheld | hheld
      all_goals
        rw [haborted] at hheld
        cases hheld
  | moved expected next fields now hmoving =>
    refine ⟨Moving.patch (entity (expected.move next fields now)) row, ?_, ?_, ?_⟩
    · rw [newest, history_moved hmoving, head?_map]
      exact congrArg (Option.map _) hnewest
    · unfold Moving.patch
      split
      · next heq => exact heq.symm
      · rfl
    · unfold Moving.patch
      split
      · next heq =>
        have hget := (mem_history.mp (newest_mem hnewest)).1
        rw [heq] at hget
        obtain rfl := some.inj (hmoving.row.symm.trans hget)
        exact hmoving.fit.moves.held hheld
      · exact hheld

theorem newest_eq_none :
    db.newest component = none ↔ db.history component = [] := head?_eq_none_iff

section

variable (hdb : db.Sound h)
include hdb

theorem run_holds {row : Row U} (hnewest : db.newest component = some row)
    (hheld : row.state.held) (steps : List (Step U)) :
    ∃ row', (run (step h) db steps).newest component = some row' ∧ row'.id = row.id ∧
      row'.state.held := by
  refine (run_preserves (fun db : Db U ↦ db.Sound h ∧
    ∃ row', db.newest component = some row' ∧ row'.id = row.id ∧ row'.state.held)
    (fun db step hdb ↦ ?_) ⟨hdb, row, hnewest, rfl, hheld⟩ steps).2
  obtain ⟨hsound, row', hnewest', hid, hheld'⟩ := hdb
  obtain ⟨row'', hnewest'', hid', hheld''⟩ := (step_change hsound step).holds hnewest' hheld'
  exact ⟨step_sound hsound step, row'', hnewest'', hid'.trans hid, hheld''⟩

theorem run_advances (steps : List (Step U)) :
    Table.Grows Row.Advances db.rows (run (step h) db steps).rows :=
  run_climbs (fun db db' : Db U ↦ Table.Grows Row.Advances db.rows db'.rows) (Db.Sound h)
    (fun db ↦ .refl Row.Advances.refl db.rows)
    (fun _ _ _ h₁ h₂ ↦ Table.Grows.trans (fun _ _ _ ha hb ↦ ha.trans hb) h₁ h₂)
    (fun _ step hdb ↦ step_sound hdb step)
    (fun db step hdb id row hrow ↦ by
      obtain ⟨row', hrow', hmoves, -⟩ := (step_change hdb step).moves id row hrow
      exact ⟨row', hrow', hmoves⟩) hdb steps

/-- The fork of a component with a journal links to its newest operation. -/
theorem Db.Sound.owner {r : Row U} (hr : db.newest component = some r) :
    ∃ eid fork, db.forks.get eid = some fork ∧ fork.scope = some component ∧
      fork.fileAdoption = some r.id := by
  obtain ⟨⟨eid, fork, hfork, hlink⟩, -⟩ := hdb.owned component r hr
  obtain ⟨row, hrow, hscope, -, -⟩ := hdb.linked_row hfork hlink
  obtain ⟨hget, hcomponent⟩ := mem_history.mp (newest_mem hr)
  obtain rfl := some.inj (hget.symm.trans hrow)
  exact ⟨eid, fork, hfork, hcomponent ▸ hscope, hlink⟩

/-- Where a component has one fork, what the fork links to is the newest operation. -/
theorem Db.Sound.linked_eq_newest {fork : Fork U}
    (hfork : db.forks.get fork.eid = some fork) (hscope : fork.scope = some component)
    (hown : fork.fileAdoption.isSome ∨
      ∀ g, db.forks.get g.eid = some g → g.scope = some component → g = fork) :
    (fork.fileAdoption.isSome ∨ db.history component = []) ∧
      fork.fileAdoption.bind db.rows.get = db.newest component := by
  cases hlink : fork.fileAdoption with
  | some id =>
    obtain ⟨row, hrow, hscope', hnewest, -⟩ := hdb.linked_row hfork hlink
    obtain rfl := some.inj (hscope.symm.trans hscope')
    exact ⟨.inl rfl, hrow.trans hnewest.symm⟩
  | none =>
    have hnone : db.newest component = none := by
      by_contra hsome
      obtain ⟨r, hr⟩ := ne_none_iff_exists'.mp hsome
      obtain ⟨eid, g, hg, hgScope, hgLink⟩ := hdb.owner hr
      obtain rfl := key_of_get hg
      rcases hown with hlinked | hsole
      · simp [hlink] at hlinked
      · rw [hsole g hg hgScope, hlink] at hgLink
        cases hgLink
    exact ⟨.inr (newest_eq_none.mp hnone), hnone.symm⟩

/-- Every operation but the newest one of a component is aborted. -/
theorem Db.Sound.newest_of_active {r : Row U} (hr : r ∈ db.history component)
    (hstate : r.state ≠ .aborted) : db.newest component = some r := by
  cases hnewest : db.newest component with
  | none =>
    rw [newest_eq_none.mp hnewest] at hr
    cases hr
  | some row =>
    have hid := (((hdb.owned component row hnewest).2 r hr).2).resolve_right hstate
    have hget := (mem_history.mp (newest_mem hnewest)).1
    rw [hid, (mem_history.mp hr).1] at hget
    exact hget.symm

end

/-- A component has one owner: the newest operation, to which the fork links. Operations only move
forward, and no claim supersedes a publication that has begun. -/
theorem one_owner (h : Hasch U) (steps further : List (Step U)) (component : U) :
    (∀ r ∈ (reached h steps).history component, r.state ≠ .aborted →
      (reached h steps).newest component = some r) ∧
    (∀ eid fork, (reached h steps).forks.get eid = some fork → fork.scope = some component →
      fork.fileAdoption.isSome →
      fork.fileAdoption = ((reached h steps).newest component).map (·.id)) ∧
    (∀ r, (reached h steps).newest component = some r →
      (∃ eid fork, (reached h steps).forks.get eid = some fork ∧ fork.scope = some component ∧
        fork.fileAdoption = some r.id) ∧
      (r.state.held →
        ∃ r', (reached h (steps ++ further)).newest component = some r' ∧ r'.id = r.id)) ∧
    (∀ step, Table.Grows Row.Moves (reached h steps).rows ((reached h steps).step h step).rows) ∧
    Table.Grows Row.Advances (reached h steps).rows (reached h (steps ++ further)).rows ∧
    ∀ fork, (reached h steps).forks.get fork.eid = some fork →
      fork.fileOutput ∧ fork.status = none → fork.scope = some component →
      (fork.fileAdoption.isSome ∨
        ∀ g, (reached h steps).forks.get g.eid = some g → g.scope = some component → g = fork) →
      ((reached h steps).history component).length ≤ 1000 →
      currentOperation h (reached h steps) fork.eid =
        .ok ((fork.fileAdoption.bind (reached h steps).rows.get).map Row.value) := by
  have hdb := reached_sound h steps
  refine ⟨fun r hr hstate ↦ ?_, fun eid fork hfork hscope hlink ↦ ?_, fun r hr ↦ ⟨?_, fun hheld ↦ ?_⟩,
    fun step ↦ (step_change hdb step).moves, ?_, fun fork hfork hopen hscope hown hbound ↦ ?_⟩
  · exact hdb.newest_of_active hr hstate
  · obtain ⟨id, hid⟩ := isSome_iff_exists.mp hlink
    obtain ⟨row, -, hscope', hnewest, rfl⟩ := hdb.linked_row hfork hid
    obtain rfl := some.inj (hscope.symm.trans hscope')
    rw [hid, hnewest]
    rfl
  · exact hdb.owner hr
  · obtain ⟨r', hr', hid, -⟩ := run_holds hdb hr hheld further
    rw [reached, run_append]
    exact ⟨r', hr', hid⟩
  · rw [reached, reached, run_append]
    exact run_advances hdb further
  · obtain ⟨hlinked, hnewest⟩ := hdb.linked_eq_newest hfork hscope hown
    rw [hnewest]
    exact hdb.current hfork hopen hscope hlinked hbound

end Simmis.Files
