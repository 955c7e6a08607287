import Simmis.Knowledge.Exclusive

/-!
# No evidence is lost

Beside the journal, a run shows the snapshot of the source at the cursor of each stream. Every
current trigger has its item, and every item that waits or is claimed is a current trigger.
-/

namespace Simmis.Knowledge

open List Option Runs Function Table

variable {U P : Type} [DecidableEq U] [LinearOrder P] {h : Hasch U P}

/-- The files of a source, by path. -/
abbrev Snapshot (U P : Type) := P → Option (File U)

/-- The exact difference of two snapshots. -/
structure Plan.Between (plan : Plan U P) (old new : Snapshot U P) : Prop where
  exact : ∀ c ∈ plan.changes, c.before = old c.path ∧ c.after = new c.path ∧ c.before ≠ c.after
  complete : ∀ path, path ∉ plan.changes.map (·.path) → new path = old path
  sorted : (plan.changes.map (·.path)).Pairwise (· < ·)

/-- The journal, with the snapshot at the cursor of each stream. -/
structure Observed (U P : Type) [DecidableEq U] where
  db : Db U P
  sources : U → Snapshot U P

def Observed.init (schedules : Schedules.Db U) (world : World U) : Observed U P :=
  ⟨.init schedules world, fun _ _ ↦ none⟩

/-- The snapshot at a cursor that has moved. -/
def moveSource (sources : U → Snapshot U P) (moved : Option (U × Plan U P)) (next : Snapshot U P) :
    U → Snapshot U P :=
  moved.elim sources fun m ↦ Function.update sources m.1 next

/-- A step; the snapshot is the one to which a discovery moves its cursor. -/
def Observed.step (h : Hasch U P) (s : Observed U P) (event : Step U P × Snapshot U P) :
    Observed U P where
  db := s.db.step h event.1
  sources := moveSource s.sources (event.1.moves h s.db) event.2

/-- The plan of a discovery that moves a cursor is the difference to the later snapshot. -/
def Observed.Exact (h : Hasch U P) (s : Observed U P) (event : Step U P × Snapshot U P) : Prop :=
  ∀ moved ∈ event.1.moves h s.db, moved.2.Between (s.sources moved.1) event.2

/-- The states in which the evidence of an item is accounted for. -/
def ItemState.counts : ItemState → Bool
  | .pending | .claimed | .processed | .skipped => true
  | .superseded | .removed => false

/-- A version is the current trigger of its path. -/
def Snapshot.Triggers (source : Snapshot U P) (path : P) (version : Version U) : Prop :=
  ∃ file, source path = some file ∧ file.role = .trigger ∧ file.toVersion = version

structure Covered (h : Hasch U P) (items : Table (Item.id (U := U) (P := P)))
    (sources : U → Snapshot U P) : Prop where
  counted : ∀ stream path version, (sources stream).Triggers path version →
    ∃ i, items.get (itemId h stream path version) = some i ∧ i.state.counts
  current : ∀ id i, items.get id = some i → i.state = .pending ∨ i.state = .claimed →
    (sources i.stream).Triggers i.path i.version

variable {sources : U → Snapshot U P}

omit [LinearOrder P] in
/-- A step that only moves items among the states that count, or that leaves them alone. -/
theorem Covered.of_items {items items' : Table (Item.id (U := U) (P := P))}
    (hcovered : Covered h items sources) (fields : Item U P → Item U P)
    (hget : ∀ id, items'.get id = (items.get id).map fields)
    (hkept : ∀ id i, items.get id = some i → (fields i).stream = i.stream ∧
      (fields i).path = i.path ∧ (fields i).version = i.version)
    (hcounts : ∀ id i, items.get id = some i → i.state.counts → (fields i).state.counts)
    (hlive : ∀ id i, items.get id = some i →
      (fields i).state = .pending ∨ (fields i).state = .claimed →
      i.state = .pending ∨ i.state = .claimed) : Covered h items' sources where
  counted stream path version htriggers := by
    obtain ⟨i, hi, hstate⟩ := hcovered.counted stream path version htriggers
    exact ⟨fields i, by rw [hget, hi]; rfl, hcounts _ i hi hstate⟩
  current id i' hi' hstate := by
    rw [hget, map_eq_some_iff] at hi'
    obtain ⟨i, hi, rfl⟩ := hi'
    obtain ⟨hstream, hpath, hversion⟩ := hkept id i hi
    rw [hstream, hpath, hversion]
    exact hcovered.current id i hi (hlive id i hi hstate)

section Discovery

variable {j : Journal U P} {value : Descriptor U} {plan : Plan U P} {root payloadRef did : U}
  {next : Snapshot U P}

omit [DecidableEq U] [LinearOrder P] in
theorem mem_triggers {path : P} {version : Version U} :
    (path, version) ∈ plan.triggers ↔ ∃ c ∈ plan.changes, c.path = path ∧
      ∃ file, c.after = some file ∧ file.role = .trigger ∧ file.toVersion = version := by
  unfold Plan.triggers PathChange.trigger
  simp only [mem_filterMap, map_eq_some_iff, filter_eq_some_iff, decide_eq_true_eq, Prod.mk.injEq]
  constructor
  · rintro ⟨c, hc, file, ⟨hafter, hrole⟩, hpath, hversion⟩
    exact ⟨c, hc, hpath, file, hafter, hrole, hversion⟩
  · rintro ⟨c, hc, hpath, file, hafter, hrole, hversion⟩
    exact ⟨c, hc, file, ⟨hafter, hrole⟩, hpath, hversion⟩

omit [DecidableEq U] in
/-- The triggers of the difference are the later ones, on the changed paths. -/
theorem Plan.Between.triggers {old : Snapshot U P} (hbetween : plan.Between old next) {path : P}
    {version : Version U} : (path, version) ∈ plan.triggers ↔
      path ∈ plan.changes.map (·.path) ∧ next.Triggers path version := by
  rw [mem_triggers]
  constructor
  · rintro ⟨c, hc, rfl, file, hafter, hrole, hversion⟩
    refine ⟨mem_map_of_mem hc, file, ?_, hrole, hversion⟩
    rw [← (hbetween.exact c hc).2.1, hafter]
  · rintro ⟨hpath, file, hnext, hrole, hversion⟩
    obtain ⟨c, hc, rfl⟩ := mem_map.mp hpath
    refine ⟨c, hc, rfl, file, ?_, hrole, hversion⟩
    rw [(hbetween.exact c hc).2.1, hnext]

variable (payloadRef) in
/-- An item is displaced or left alone, or one that was displaced is queued again. -/
theorem Discovering.moved (hdiscovering : Discovering h j value plan root did) {id : U}
    {i : Item U P} (hi : j.items.get id = some i) :
    ∃ i', (j.discovered h value plan root payloadRef did).items.get id = some i' ∧
      (i' = (if displaces h value.id plan i then displace plan did i else i) ∨
        (i.state = .superseded ∨ i.state = .removed) ∧ i'.state = .pending) := by
  change ∃ i', (putAll _ (queueAll h j value.id did
    ((j.streams.get value.id).elim 0 (·.nextOrder)) (freshVersions h j value.id plan))).get id =
      some i' ∧ _
  by_cases hqueued : ∃ r ∈ queueAll h j value.id did
      ((j.streams.get value.id).elim 0 (·.nextOrder)) (freshVersions h j value.id plan), r.id = id
  · obtain ⟨r, hr, rfl⟩ := hqueued
    refine ⟨r, get_putAll_of_mem (hdiscovering.nodup_queue _) hr, .inr ?_⟩
    obtain ⟨n, hn, rfl⟩ := mem_mapIdx.mp hr
    have heligible := (mem_filter.mp (getElem_mem hn)).2
    exact ⟨of_decide_eq_true heligible i.state (Option.mem_map_of_mem _ hi), rfl⟩
  · refine ⟨_, ?_, .inl rfl⟩
    rw [get_putAll_of_not_mem fun r hr hid ↦ hqueued ⟨r, hr, hid⟩, get_displaced, hi, map_some]

variable (payloadRef) in
/-- A version that is to be queued is pending. -/
theorem Discovering.queued (hdiscovering : Discovering h j value plan root did)
    {version : P × Version U} (hfresh : version ∈ freshVersions h j value.id plan) :
    ∃ i', (j.discovered h value plan root payloadRef did).items.get
        (itemId h value.id version.1 version.2) = some i' ∧ i'.state = .pending := by
  have hmem : itemId h value.id version.1 version.2 ∈ (queueAll h j value.id did
      ((j.streams.get value.id).elim 0 (·.nextOrder)) (freshVersions h j value.id plan)).map
        (·.id) := by
    rw [queueAll_ids]
    exact mem_map.mpr ⟨version, hfresh, rfl⟩
  obtain ⟨r, hr, hid⟩ := mem_map.mp hmem
  refine ⟨r, ?_, ?_⟩
  · rw [← hid]
    exact get_putAll_of_mem (hdiscovering.nodup_queue _) hr
  · obtain ⟨n, hn, rfl⟩ := mem_mapIdx.mp hr
    rfl

omit [LinearOrder P] in
theorem stays_of_not_eligible {id : U} {version : P × Version U}
    (hnot : ¬ eligible h j id version) :
    ∃ i, j.items.get (itemId h id version.1 version.2) = some i ∧
      ¬ (i.state = .superseded ∨ i.state = .removed) := by
  unfold eligible stateOf at hnot
  rw [decide_eq_true_eq, not_forall] at hnot
  obtain ⟨state, hstate⟩ := hnot
  rw [Classical.not_imp] at hstate
  obtain ⟨i, hi, rfl⟩ := map_eq_some_iff.mp hstate.1
  exact ⟨i, hi, hstate.2⟩

variable (payloadRef) in
/-- A current trigger of another path, or one that is not queued, keeps its item. -/
theorem Discovering.counted (hdiscovering : Discovering h j value plan root did)
    (hj : j.ledger.Sound h) (hcovered : Covered h j.items sources)
    (hbetween : plan.Between (sources value.id) next) {path : P} {version : Version U}
    (htriggers : next.Triggers path version) :
    ∃ i', (j.discovered h value plan root payloadRef did).items.get
        (itemId h value.id path version) = some i' ∧ i'.state.counts := by
  by_cases hpath : path ∈ plan.changes.map (·.path)
  · have hmem : (path, version) ∈ plan.triggers := hbetween.triggers.mpr ⟨hpath, htriggers⟩
    by_cases heligible : eligible h j value.id (path, version)
    · obtain ⟨i', hi', hstate⟩ := hdiscovering.queued payloadRef
        (mem_filter.mpr ⟨hmem, heligible⟩)
      exact ⟨i', hi', by rw [hstate]; rfl⟩
    · obtain ⟨i, hi, hnot⟩ := stays_of_not_eligible heligible
      have hstays : ¬ displaces h value.id plan i := by
        simp only [displaces, decide_eq_true_eq]
        rintro ⟨-, -, -, hother⟩
        rw [key_of_get hi] at hother
        exact hother (mem_map.mpr ⟨(path, version), hmem, rfl⟩)
      obtain ⟨i', hi', heq | ⟨-, hpending⟩⟩ := hdiscovering.moved payloadRef hi
      · rw [if_neg hstays] at heq
        subst heq
        refine ⟨i', hi', ?_⟩
        cases hcase : i'.state with
        | superseded => exact absurd (.inl hcase) hnot
        | removed => exact absurd (.inr hcase) hnot
        | _ => rfl
      · exact ⟨i', hi', by rw [hpending]; rfl⟩
  · obtain ⟨file, hfile, hrole, hversion⟩ := htriggers
    rw [hbetween.complete path hpath] at hfile
    obtain ⟨i, hi, hcounts⟩ := hcovered.counted value.id path version ⟨file, hfile, hrole, hversion⟩
    have hidentity := (hj.items _ i hi).identity
    rw [key_of_get hi] at hidentity
    obtain ⟨-, hsame, -⟩ := h.item_injective hidentity
    have hstays : ¬ displaces h value.id plan i := by
      simp only [displaces, decide_eq_true_eq]
      rintro ⟨-, -, hmem, -⟩
      rw [← hsame] at hmem
      exact hpath hmem
    obtain ⟨i', hi', heq | ⟨-, hpending⟩⟩ := hdiscovering.moved payloadRef hi
    · exact ⟨i', hi', by rw [heq, if_neg hstays]; exact hcounts⟩
    · exact ⟨i', hi', by rw [hpending]; rfl⟩

omit [DecidableEq U] in
/-- A displaced item neither waits nor is claimed. -/
theorem displace_not_live (plan : Plan U P) (did : U) (i : Item U P) :
    ¬ ((displace plan did i).state = .pending ∨ (displace plan did i).state = .claimed) := by
  unfold displace
  simp only
  split
  · rintro (hstate | hstate) <;> cases hstate
  · rintro (hstate | hstate) <;> cases hstate

variable (payloadRef) in
theorem Discovering.current (hdiscovering : Discovering h j value plan root did)
    (hj : j.ledger.Sound h) (hcovered : Covered h j.items sources)
    (hbetween : plan.Between (sources value.id) next) {id : U} {i' : Item U P}
    (hi' : (j.discovered h value plan root payloadRef did).items.get id = some i')
    (hlive : i'.state = .pending ∨ i'.state = .claimed) :
    (update sources value.id next i'.stream).Triggers i'.path i'.version := by
  obtain ⟨n, v, hn, -, rfl⟩ | ⟨i, hi, rfl, -⟩ := hdiscovering.get_item hi'
  · have hmem : v ∈ plan.triggers := (mem_filter.mp (mem_of_getElem? hn)).1
    change (update sources value.id next value.id).Triggers v.1 v.2
    rw [update_self]
    exact (hbetween.triggers.mp hmem).2
  · split at hlive
    · exact absurd hlive (displace_not_live plan did i)
    · next hstays =>
      rw [if_neg hstays]
      have hold := hcovered.current id i hi hlive
      by_cases hstream : i.stream = value.id
      · rw [hstream] at hold ⊢
        rw [update_self]
        by_cases hpath : i.path ∈ plan.changes.map (·.path)
        · have hpending : i.state = .pending :=
            hlive.resolve_right (hdiscovering.unclaimed id i hi hstream)
          simp only [displaces, decide_eq_true_eq, not_and, not_not] at hstays
          obtain ⟨v, hv, hid⟩ := mem_map.mp (hstays hstream hpending hpath)
          have hidentity := (hj.items id i hi).identity
          rw [← hid] at hidentity
          obtain ⟨-, hsame, hversion⟩ := h.item_injective hidentity
          rw [← hsame, ← hversion]
          exact (hbetween.triggers.mp hv).2
        · obtain ⟨file, hfile, hrest⟩ := hold
          exact ⟨file, by rw [hbetween.complete i.path hpath, hfile], hrest⟩
      · rw [update_of_ne hstream]
        exact hold

variable (payloadRef) in
/-- The discovery of the exact difference covers the later snapshot. -/
theorem Discovering.covered (hdiscovering : Discovering h j value plan root did)
    (hj : j.ledger.Sound h) (hcovered : Covered h j.items sources)
    (hbetween : plan.Between (sources value.id) next) :
    Covered h (j.discovered h value plan root payloadRef did).items
      (update sources value.id next) where
  counted stream path version htriggers := by
    by_cases hstream : stream = value.id
    · subst hstream
      rw [update_self] at htriggers
      exact hdiscovering.counted payloadRef hj hcovered hbetween htriggers
    · rw [update_of_ne hstream] at htriggers
      obtain ⟨i, hi, hcounts⟩ := hcovered.counted stream path version htriggers
      have hidentity := (hj.items _ i hi).identity
      rw [key_of_get hi] at hidentity
      obtain ⟨hsame, -, -⟩ := h.item_injective hidentity
      have hstays : ¬ displaces h value.id plan i := by
        simp only [displaces, decide_eq_true_eq]
        rintro ⟨hother, -⟩
        exact hstream (hsame.trans hother)
      obtain ⟨i', hi', heq | ⟨-, hpending⟩⟩ := hdiscovering.moved payloadRef hi
      · exact ⟨i', hi', by rw [heq, if_neg hstays]; exact hcounts⟩
      · exact ⟨i', hi', by rw [hpending]; rfl⟩
  current id i' hi' hlive := hdiscovering.current payloadRef hj hcovered hbetween hi' hlive

end Discovery

section Batches

variable {j : Journal U P}

theorem Claiming.covered {selection : Selection U P} {ref token : U} {s : Stream U}
    {selected : List (Item U P)} (hclaiming : Claiming h j selection s selected)
    (hcovered : Covered h j.items sources) :
    Covered h (j.claimed selection ref token selected).items sources := by
  apply hcovered.of_items _ hclaiming.get_item
  · intro id i hi
    split
    · exact ⟨rfl, rfl, rfl⟩
    · exact ⟨rfl, rfl, rfl⟩
  · intro id i hi hcounts
    split
    · rfl
    · exact hcounts
  · intro id i hi hlive
    split at hlive
    · next hmem => exact .inl (hclaiming.pending i hmem).2.2
    · exact hlive

omit [DecidableEq U] [LinearOrder P] in
theorem settle_counts (outcome : Outcome) (stream : U) (i : Item U P) :
    (outcome.settle stream i).state.counts := by
  cases outcome <;> rfl

omit [DecidableEq U] [LinearOrder P] in
theorem settle_version (outcome : Outcome) (stream : U) (i : Item U P) :
    (outcome.settle stream i).stream = i.stream ∧ (outcome.settle stream i).path = i.path ∧
      (outcome.settle stream i).version = i.version := by
  cases outcome <;> exact ⟨rfl, rfl, rfl⟩

omit [LinearOrder P] in
theorem Closing.covered {b : Batch U} {fields : Batch U → Batch U} {s : Stream U}
    {selection : SelectionFacts U P} {items : List (Item U P)} {outcome : Outcome}
    {generation : Option ℕ} (hclosing : Closing h j b fields s selection items outcome generation)
    (hcovered : Covered h j.items sources) :
    Covered h (j.closed b fields s items outcome generation).items sources := by
  apply hcovered.of_items _ hclosing.get_item
  · intro id i hi
    split
    · exact settle_version outcome s.id i
    · exact ⟨rfl, rfl, rfl⟩
  · intro id i hi hcounts
    split
    · exact settle_counts outcome s.id i
    · exact hcounts
  · intro id i hi hlive
    split at hlive
    · next hbatch => exact .inr (hclosing.owned hi hbatch).1
    · exact hlive

end Batches

/-- What a change of the journal keeps, where a moved cursor shows the exact difference. -/
theorem Change.covered {step : Step U P} {j j' : Journal U P} {moved : Option (U × Plan U P)}
    (hchange : Change h step j moved j') (hj : j.ledger.Sound h)
    (hcovered : Covered h j.items sources) (next : Snapshot U P)
    (hexact : ∀ m ∈ moved, m.2.Between (sources m.1) next) :
    Covered h j'.items (moveSource sources moved next) := by
  cases hchange with
  | discover value plan root payloadRef did horigin hdiscovering =>
    exact hdiscovering.covered payloadRef hj hcovered (hexact (value.id, plan) rfl)
  | commit value plan payloadRef did p hpin hstate hhome hdiscovering =>
    exact hdiscovering.covered payloadRef hj hcovered (hexact (value.id, plan) rfl)
  | claim selection ref token s selected hclaiming => exact hclaiming.covered hcovered
  | close b fields s selection items outcome generation hclosing =>
    exact hclosing.covered hcovered
  | _ => exact hcovered

/-- A current trigger has its item, which accounts for it, and no two pending items of a stream
share a path or an order. -/
structure Observed.Accounts (h : Hasch U P) (s : Observed U P) : Prop where
  counted : ∀ stream path file, s.sources stream path = some file → file.role = .trigger →
    ∃ i, s.db.items.get (itemId h stream path file.toVersion) = some i ∧
      (i.state = .pending ∨ i.state = .claimed ∨ i.state = .processed ∨ i.state = .skipped)
  current : ∀ i, s.db.items.get i.id = some i → i.state = .pending →
    ∃ file, s.sources i.stream i.path = some file ∧ file.role = .trigger ∧
      file.toVersion = i.version
  path : ∀ i i', s.db.items.get i.id = some i → s.db.items.get i'.id = some i' →
    i.state = .pending → i'.state = .pending → i.stream = i'.stream → i.path = i'.path → i = i'
  order : ∀ i i', s.db.items.get i.id = some i → s.db.items.get i'.id = some i' →
    i.state = .pending → i'.state = .pending → i.stream = i'.stream → i.order = i'.order → i = i'

omit [LinearOrder P] in
theorem Covered.accounts {s : Observed U P} (hcovered : Covered h s.db.items s.sources)
    (hsound : s.db.ledger.Sound h) : s.Accounts h where
  counted stream path file hfile hrole := by
    obtain ⟨i, hi, hcounts⟩ := hcovered.counted stream path file.toVersion ⟨file, hfile, hrole, rfl⟩
    refine ⟨i, hi, ?_⟩
    cases hstate : i.state with
    | superseded | removed =>
      rw [hstate] at hcounts
      cases hcounts
    | _ => simp
  current i hi hstate := hcovered.current i.id i hi (.inl hstate)
  path i i' hi hi' hstate hstate' hstream hpath := by
    obtain ⟨file, hfile, -, hversion⟩ := hcovered.current i.id i hi (.inl hstate)
    obtain ⟨file', hfile', -, hversion'⟩ := hcovered.current i'.id i' hi' (.inl hstate')
    rw [hstream, hpath, hfile'] at hfile
    obtain rfl := some.inj hfile
    have hid : i.id = i'.id := by
      rw [(hsound.items i.id i hi).identity, (hsound.items i'.id i' hi').identity, hstream, hpath,
        ← hversion, ← hversion']
    rw [hid, hi'] at hi
    exact (some.inj hi).symm
  order i i' hi hi' _ _ hstream horder := by
    have hid := hsound.orders i.id i i'.id i' hi hi' hstream horder
    rw [hid, hi'] at hi
    exact (some.inj hi).symm

/-- In a run of exact differences no evidence is lost and none waits twice. -/
theorem evidence_accounted (h : Hasch U P) (schedules : Schedules.Db U) (world : World U)
    (events : List (Step U P × Snapshot U P))
    (hexact : Along (Observed.step h) (Observed.Exact h) (.init schedules world) events) :
    (run (Observed.step h) (.init schedules world) events).Accounts h := by
  have hinit : Covered h (Observed.init schedules world : Observed U P).db.items
      (Observed.init schedules world : Observed U P).sources := by
    constructor
    · rintro stream path version ⟨file, hfile, -⟩
      cases hfile
    · intro id i hi
      cases hi
  have hinv := run_preserves_along (Observed.Exact h)
    (fun s : Observed U P ↦ s.db.ledger.Sound h ∧ Covered h s.db.items s.sources)
    (fun s event hs hexact ↦ ⟨step_sound h s.db event.1 hs.1,
      (step_change h s.db event.1).covered hs.1 hs.2 event.2 hexact⟩)
    ⟨Ledger.sound_init, hinit⟩ hexact
  exact hinv.2.accounts hinv.1

/-- A source with one trigger is discovered, and the discovery is repeated. -/
theorem evidence_accounted_example : (run (Observed.step Hasch.sequences) (.init .init World.empty)
      [(exampleDiscovery, fun path ↦ if path = 0 then some exampleFile else none),
        (exampleDiscovery, fun _ ↦ none)]).Accounts Hasch.sequences := by
  apply evidence_accounted Hasch.sequences .init World.empty
  refine ⟨?_, ?_, trivial⟩
  · intro moved hmoved
    obtain rfl : (_, examplePlan) = moved := some.inj hmoved
    refine ⟨?_, ?_, pairwise_singleton _ _⟩
    · intro c hc
      obtain rfl := mem_singleton.mp hc
      exact ⟨rfl, rfl, nofun⟩
    · intro path hpath
      exact if_neg fun hzero ↦ hpath (mem_singleton.mpr hzero)
  · intro moved hmoved
    cases hmoved

/-- An item that was processed or skipped is not touched again. -/
def Item.Settles (i i' : Item U P) : Prop := i.state = .processed ∨ i.state = .skipped → i' = i

variable {j : Journal U P}

theorem Discovering.settles {value : Descriptor U} {plan : Plan U P} {root did : U}
    (hdiscovering : Discovering h j value plan root did) (payloadRef : U) :
    j.items.Grows Item.Settles (j.discovered h value plan root payloadRef did).items := by
  intro id i hi
  obtain ⟨i', hi', hmoved⟩ := hdiscovering.moved payloadRef hi
  refine ⟨i', hi', fun hsettled ↦ ?_⟩
  rcases hmoved with heq | ⟨hstate | hstate, -⟩
  · rw [heq, if_neg fun hdisplaced ↦ ?_]
    simp [(of_decide_eq_true hdisplaced).2.1] at hsettled
  · simp [hstate] at hsettled
  · simp [hstate] at hsettled

theorem Change.settles {step : Step U P} {j' : Journal U P} {moved : Option (U × Plan U P)}
    (hchange : Change h step j moved j') : j.items.Grows Item.Settles j'.items := by
  cases hchange with
  | discover value plan root payloadRef did horigin hdiscovering =>
    exact hdiscovering.settles payloadRef
  | commit value plan payloadRef did p hpin hstate hhome hdiscovering =>
    exact hdiscovering.settles payloadRef
  | claim selection ref token s selected hclaiming =>
    intro id i hi
    refine ⟨_, by rw [hclaiming.get_item, hi, map_some], fun hsettled ↦ if_neg fun hmem ↦ ?_⟩
    simp [(hclaiming.pending i hmem).2.2] at hsettled
  | close b fields s selection items outcome generation hclosing =>
    intro id i hi
    refine ⟨_, by rw [hclosing.get_item, hi, map_some], fun hsettled ↦ if_neg fun hbatch ↦ ?_⟩
    simp [(hclosing.owned hi hbatch).1] at hsettled
  | _ => exact .refl (fun _ _ ↦ rfl) _

/-- No run loses an item, or touches one again that was processed or skipped. -/
theorem run_settles (h : Hasch U P) (db : Db U P) (events : List (Step U P)) :
    db.items.Grows Item.Settles (run (Db.step h) db events).items :=
  run_climbs (fun db db' : Db U P ↦ db.items.Grows Item.Settles db'.items) (fun _ ↦ True)
    (fun db ↦ .refl (fun _ _ ↦ rfl) db.items)
    (fun _ _ _ hab hbc ↦ hab.trans (fun _ _ _ h₁ h₂ hi ↦ by rw [h₂ (by rwa [h₁ hi]), h₁ hi]) hbc)
    (fun _ _ _ ↦ trivial) (fun db step _ ↦ (step_change h db step).settles) trivial events

end Simmis.Knowledge
