import Simmis.Knowledge.Fragments

/-!
# The effect of each step

`step_effect` says of every step that it replays, or makes one change and leaves its marker;
`step_change` forgets the markers. Later modules use nothing else about the fragments.
-/

namespace Simmis.Knowledge

open Table Pin Step Option Journal

variable {U P : Type} [DecidableEq U] [LinearOrder P] {h : Hasch U P}

variable {db : Db U P}

variable {step : Step U P}

theorem Step.moves_eq_none (hstep : step.discovers = none) : step.moves h db = none := by
  unfold moves
  rw [hstep]

variable {writes : Tx U P}

/-- A fragment that moves no cursor replays, or has its effect. -/
theorem effect_of_quiet (hstep : step.discovers = none)
    (heffect : writes = [] ∧ (step.prepares = false → step.Applied h db.toJournal) ∨
      Effect h step db.toJournal none writes) :
    Replay h db step writes ∨ Effect h step db.toJournal (step.moves h db) writes := by
  have hmoves : step.moves h db = none := moves_eq_none hstep
  rw [hmoves]
  exact heffect.imp_left fun ⟨hnil, happlied⟩ ↦ ⟨hnil, hmoves, happlied⟩

variable {j : Journal U P}

variable {b : Batch U}

omit [LinearOrder P] in
theorem HasBatch.of_get {marker : Batch U → Prop} (hb : j.batches.get b.id = some b) :
    j.HasBatch b.id marker ↔ marker b := by
  unfold Journal.HasBatch
  rw [hb]
  simp

theorem Noting.effect {id : U} {marker : Batch U → Prop}
    {fields : Batch U → Batch U} (hmarker : ∀ j, step.Applied h j ↔ j.HasBatch id marker) (hnoting : Noting j id marker fields b)
    (hwrites : j.apply writes = j.write (.patchBatch b.id fields)) :
    Effect h step j none writes := by
  obtain ⟨rfl, hb, hid, hnoted, hfresh, happlied⟩ := hnoting
  have hget : (j.batches.modify b.id fields).get b.id = some (fields b) := by
    rw [get_modify hid, if_pos rfl, hb]
    rfl
  refine ⟨?_, ?_, ?_⟩
  · rw [hwrites]
    exact .note b fields hb hid hnoted
  · rw [hmarker, HasBatch.of_get hb]
    exact hfresh
  · rw [hmarker, hwrites]
    exact ⟨fields b, hget, happlied⟩

variable {s : Stream U}

omit [LinearOrder P] in
theorem Closing.get {fields : Batch U → Batch U}
    {selection : SelectionFacts U P} {items : List (Item U P)} {outcome : Outcome}
    {generation : Option ℕ} (hclosing : Closing h j b fields s selection items outcome generation) :
    (j.closed b fields s items outcome generation).batches.get b.id = some (fields b) := by
  change (j.batches.modify b.id fields).get b.id = some (fields b)
  rw [get_modify hclosing.id, if_pos rfl, hclosing.batch]
  rfl

theorem Closes.effect {id : U}
    (hmarker : ∀ j, step.Applied h j ↔ j.HasBatch id fun b ↦ b.state = .closed)
    (hcases : j.Replays id writes ∨ Closes h j id writes) :
    writes = [] ∧ step.Applied h j ∨ Effect h step j none writes := by
  obtain ⟨hnil, hclosed⟩ | hcloses := hcases
  · exact .inl ⟨hnil, (hmarker j).mpr hclosed⟩
  right
  obtain ⟨b, fields, s, selection, items, outcome, generation, rfl, hclosing, hwrites⟩ := hcloses
  refine ⟨?_, ?_, ?_⟩
  · rw [hwrites]
    exact .close b fields s selection items outcome generation hclosing
  · rw [hmarker, HasBatch.of_get hclosing.batch]
    exact hclosing.before
  · rw [hmarker, hwrites]
    exact ⟨fields b, hclosing.get, hclosing.after⟩

omit [LinearOrder P] in
theorem Pinned.of_get {p : Pin U} {state : PinState} (hp : j.pins.get p.id = some p) :
    j.Pinned p.id state ↔ state.rank ≤ p.state.rank := by
  unfold Journal.Pinned
  rw [hp]
  simp

omit [LinearOrder P] in
theorem Reached.of_get {state : StreamState} (hs : j.streams.get s.id = some s) :
    j.Reached s.id state ↔ state.rank ≤ s.state.rank := by
  unfold Journal.Reached
  rw [hs]
  simp

variable {expected : Option (Stream U)}

variable {root : U} {value : Descriptor U}

theorem prepareTx_effect {payloadId ref token : U}
    (hok : prepareTx h db.toJournal value expected payloadId ref root token = .ok writes) :
    writes = [] ∨
      Effect h (.prepare value expected payloadId ref root token) db.toJournal none writes := by
  obtain hnil | ⟨p, rfl, rfl, hnew, hactive, hstate, hkey, hrecord, hfree⟩ := prepareTx_eq_ok hok
  · exact .inl hnil
  · refine .inr ⟨.prepare p hnew hactive hstate hkey hrecord hfree, ?_, p, ?_, ?_⟩
    · rintro ⟨p', hp', -⟩
      rw [hnew] at hp'
      cases hp'
    · exact (get_put _ _ _).trans (if_pos rfl)
    · simp [hstate]

theorem markPinnedTx_effect {expected : Pin U}
    (hok : markPinnedTx db.toJournal expected = .ok writes) :
    let step : Step U P := .markPinned expected
    writes = [] ∧ step.Applied h db.toJournal ∨ Effect h step db.toJournal none writes := by
  obtain hreplay | ⟨hp, hstate, rfl⟩ := markPinnedTx_eq_ok hok
  · exact .inl hreplay
  · refine .inr ⟨.mark expected hp hstate, ?_, expected.mark, ?_, le_refl _⟩
    · change ¬ db.toJournal.Pinned expected.id .pinned
      rw [Pinned.of_get hp, hstate]
      decide
    · change (db.pins.modify expected.id mark).get expected.id = _
      rw [get_modify mark_id, if_pos rfl, hp]
      rfl

omit [LinearOrder P] in
/-- The pins after `finish-tx`: the committed one is retained and the old one released. -/
theorem Finishing.get_pin {p : Pin U} {event : Discovery U}
    (hfinishing : Finishing j p event s) (id : U) :
    (j.finished p event).pins.get id = if id = p.id then some p.retain
      else if event.beforeRoot = some id then (j.pins.get id).map release else j.pins.get id := by
  have hretain (l : U) : (j.pins.modify p.id retain).get l =
      if l = p.id then some p.retain else j.pins.get l := by
    rw [get_modify retain_id, hfinishing.pin]
    rfl
  unfold finished
  cases hbefore : event.beforeRoot with
  | none => simpa using hretain id
  | some root =>
    obtain ⟨old, hold, hstate, -⟩ := hfinishing.old root hbefore
    have hne : root ≠ p.id := by
      rintro rfl
      rw [hfinishing.pin] at hold
      injection hold with heq
      rw [← heq, hfinishing.state] at hstate
      cases hstate
    change ((j.pins.modify p.id retain).modify root release).get id = _
    rw [get_modify release_id]
    simp only [hretain]
    grind

theorem finishPinTx_effect {expected : Pin U}
    (hok : finishPinTx db.toJournal expected = .ok writes) :
    let step : Step U P := .finishPin expected
    writes = [] ∧ step.Applied h db.toJournal ∨ Effect h step db.toJournal none writes := by
  obtain hreplay | ⟨event, s, hfinishing, hwrites⟩ := finishPinTx_eq_ok hok
  · exact .inl hreplay
  · refine .inr ⟨?_, ?_, ?_⟩
    · rw [hwrites]
      exact .finish expected event s hfinishing
    · change ¬ db.toJournal.Pinned expected.id .retained
      rw [Pinned.of_get hfinishing.pin, hfinishing.state]
      decide
    · rw [hwrites]
      exact ⟨expected.retain, (hfinishing.get_pin expected.id).trans (if_pos rfl), le_refl _⟩

theorem claimTx_effect {selection : Selection U P} {ref token : U}
    (hok : claimTx h db.toJournal selection ref token = .ok writes) :
    let step : Step U P := .claim selection ref token
    writes = [] ∧ step.Applied h db.toJournal ∨ Effect h step db.toJournal none writes := by
  obtain hreplay | ⟨s, selected, hclaiming, hwrites⟩ := claimTx_eq_ok hok
  · exact .inl hreplay
  · refine .inr ⟨?_, ?_, ?_⟩
    · rw [hwrites]
      exact .claim selection ref token s selected hclaiming
    · rintro ⟨b, hb, -⟩
      rw [hclaiming.fresh] at hb
      cases hb
    · rw [hwrites]
      exact ⟨capture selection ref token, (get_put _ _ _).trans (if_pos rfl), trivial⟩

theorem filingTx_effect {expected : Proof U P} {value : Disposition U}
    (hok : filingTx h db expected value = .ok writes) :
    let step : Step U P := .filing expected value
    writes = [] ∧ step.Applied h db.toJournal ∨ Effect h step db.toJournal none writes := by
  obtain hreplay | ⟨b, fields, hwrites, hnoting⟩ |
    ⟨b, s, selection, items, hid, hnone, hclosing, hwrites⟩ := filingTx_eq_ok hok
  · exact .inl hreplay
  · subst hwrites
    exact .inr (hnoting.effect (fun _ ↦ Iff.rfl) rfl)
  · refine .inr ⟨?_, ?_, ?_⟩
    · rw [hwrites]
      exact .close b _ s selection items .noOp none hclosing
    · change ¬ db.toJournal.HasBatch expected.origin.batch _
      rw [← hid, HasBatch.of_get hclosing.batch, hnone]
      simp
    · rw [hwrites]
      change Journal.HasBatch _ expected.origin.batch _
      rw [← hid]
      exact ⟨_, hclosing.get, rfl⟩

theorem beginTx_effect {expected : Retiring U} {value : RetirementDecision U}
    (hok : beginTx h db.toJournal expected value = .ok writes) :
    let step : Step U P := .begin expected value
    writes = [] ∧ step.Applied h db.toJournal ∨ Effect h step db.toJournal none writes := by
  obtain ⟨hnil, s, p, hchecked, hactive, -⟩ | ⟨s, p, recorded, hid, hbeginning, rfl⟩ :=
    beginTx_eq_ok hok
  · obtain ⟨hid, hs, -⟩ := checkedRetirement_eq_ok hchecked
    refine .inl ⟨hnil, ?_⟩
    change db.toJournal.Reached value.stream .retiring
    rw [← hid, Reached.of_get hs]
    cases hstate : s.state with
    | active => exact absurd hstate hactive
    | retiring => decide
    | retired => decide
  · refine .inr ⟨.begin s p recorded hbeginning, ?_, s.setState .retiring, ?_, le_refl _⟩
    · change ¬ db.toJournal.Reached value.stream .retiring
      rw [← hid, Reached.of_get hbeginning.stream, hbeginning.admitted]
      decide
    · change (db.streams.modify s.id (Stream.setState .retiring)).get value.stream = _
      rw [← hid, get_modify (Stream.setState_id _), if_pos rfl, hbeginning.stream]
      rfl

theorem finishRetirementTx_effect {expected : Retiring U} {value : RetirementDecision U}
    (hok : finishRetirementTx h db.toJournal expected value = .ok writes) :
    let step : Step U P := .finishRetirement expected value
    writes = [] ∧ step.Applied h db.toJournal ∨ Effect h step db.toJournal none writes := by
  obtain hreplay | ⟨s, p, hid, hretirement, rfl⟩ := finishRetirementTx_eq_ok hok
  · exact .inl hreplay
  · refine .inr ⟨.retire s p hretirement, ?_, s.setState .retired, ?_, le_refl _⟩
    · change ¬ db.toJournal.Reached value.stream .retired
      rw [← hid, Reached.of_get hretirement.stream, hretirement.fenced]
      decide
    · change (db.streams.modify s.id (Stream.setState .retired)).get value.stream = _
      rw [← hid, get_modify (Stream.setState_id _), if_pos rfl, hretirement.stream]
      rfl

variable {plan : Plan U P}

/-- The move of a discovery that is not recorded yet. -/
theorem Step.moves_eq_some (hstep : step.discovers = some (value, expected, plan, root))
    (hok : step.tx h db = .ok writes) : step.moves h db =
      if db.discoveries.get (discoveryId h value expected plan root) = none then
        some (value.id, plan) else none := by
  unfold moves
  rw [hstep, hok]

theorem get_discovered {payloadRef did : U} :
    (j.discovered h value plan root payloadRef did).discoveries.get did =
      some (discoveryEvent h j value plan root payloadRef did) :=
  (get_put _ _ _).trans (if_pos rfl)

theorem discoveryTx_effect {payloadRef : U}
    (hok : discoveryTx h db.toJournal value expected plan root payloadRef = .ok writes) :
    let step : Step U P := .discovery value expected plan root payloadRef
    Replay h db step writes ∨ Effect h step db.toJournal (step.moves h db) writes := by
  intro step
  have hmoves : step.moves h db = _ := moves_eq_some rfl hok
  obtain ⟨hsome, hnil⟩ | ⟨hdiscovering, hwrites⟩ := discoveryTx_eq_ok hok
  · rw [if_neg (isSome_iff_ne_none.mp hsome)] at hmoves
    exact .inl ⟨hnil, hmoves, fun _ ↦ hsome⟩
  · rw [if_pos hdiscovering.fresh] at hmoves
    rw [hmoves]
    refine .inr ⟨?_, ?_, ?_⟩
    · rw [hwrites db.pins]
      exact .discover value plan root payloadRef _ (.inl ⟨expected, rfl⟩) hdiscovering
    · change ¬ (db.discoveries.get _).isSome
      rw [hdiscovering.fresh]
      simp
    · rw [hwrites db.pins]
      change isSome _
      rw [get_discovered]
      rfl

theorem pinDiscoveryTx_effect {expectedIntent : Pin U}
    {expectedStream : Option (Stream U)} {origin : Origin U} {planRef : U}
    (hok : pinDiscoveryTx h db.toJournal expectedIntent value expectedStream plan origin planRef =
      .ok writes) :
    let step : Step U P := .pinDiscovery expectedIntent value expectedStream plan origin planRef
    Replay h db step writes ∨ Effect h step db.toJournal (step.moves h db) writes := by
  intro step
  have hmoves : step.moves h db = _ := moves_eq_some rfl hok
  obtain ⟨p, hp, hhome, hcases⟩ := pinDiscoveryTx_eq_ok hok
  have hkey := key_of_get hp
  rw [← hkey] at hp hmoves hcases
  obtain ⟨hstate, rest, rfl, hrest⟩ | ⟨hrank, hrecord, hrest⟩ := hcases
  -- the first discovery under the pin commits it, even when its event exists already
  · have hcommitted (j : Journal U P) (hj : j.pins = db.pins.modify p.id (commit
        (discoveryId h value expectedStream plan p.id))) : j.Pinned expectedIntent.id .committed := by
      refine ⟨p.commit (discoveryId h value expectedStream plan p.id), ?_, le_refl _⟩
      rw [hj, ← hkey, get_modify (commit_id _), if_pos rfl, hp]
      rfl
    have hfresh : ¬ step.Applied h db.toJournal := by
      rintro ⟨hpinned, -⟩
      rw [← hkey, Pinned.of_get hp, hstate] at hpinned
      revert hpinned
      decide
    obtain ⟨hsome, rfl⟩ | ⟨hdiscovering, hwrites⟩ := discoveryTx_eq_ok hrest
    · rw [if_neg (isSome_iff_ne_none.mp hsome)] at hmoves
      rw [hmoves]
      refine .inr ⟨.recommit p _ hp hstate hsome, hfresh, hcommitted _ rfl, ?_⟩
      rw [← hkey]
      exact hsome
    · rw [if_pos hdiscovering.fresh] at hmoves
      rw [hmoves]
      have hafter : db.toJournal.apply (.patchPin p.id (commit
          (discoveryId h value expectedStream plan p.id)) :: rest) =
          { db.discovered h value plan p.id planRef
              (discoveryId h value expectedStream plan p.id) with
            pins := db.pins.modify p.id (commit
              (discoveryId h value expectedStream plan p.id)) } := hwrites _
      refine .inr ⟨?_, hfresh, ?_⟩
      · rw [hafter]
        exact .commit value plan planRef _ p hp hstate hhome hdiscovering
      · rw [hafter]
        refine ⟨hcommitted _ rfl, ?_⟩
        rw [← hkey, get_discovered]
        rfl
  -- a later one replays, unless its event is gone
  · obtain ⟨hsome, hnil⟩ | ⟨hdiscovering, hwrites⟩ := discoveryTx_eq_ok hrest
    · rw [if_neg (isSome_iff_ne_none.mp hsome)] at hmoves
      refine .inl ⟨hnil, hmoves, fun _ ↦ ⟨⟨p, by rw [← hkey]; exact hp, hrank⟩, ?_⟩⟩
      rw [← hkey]
      exact hsome
    · rw [if_pos hdiscovering.fresh] at hmoves
      rw [hmoves]
      refine .inr ⟨?_, ?_, ?_, ?_⟩
      · rw [hwrites db.pins]
        exact .discover value plan p.id planRef _ (.inr ⟨p, hp, hrecord⟩) hdiscovering
      · rintro ⟨-, hsome⟩
        rw [← hkey, hdiscovering.fresh] at hsome
        cases hsome
      · rw [hwrites db.pins]
        exact ⟨p, by rw [← hkey]; exact hp, hrank⟩
      · rw [hwrites db.pins, ← hkey, get_discovered]
        rfl

/-- Every accepted step replays, or makes one change and leaves its marker. -/
theorem step_effect (hok : step.tx h db = .ok writes) :
    Replay h db step writes ∨ Effect h step db.toJournal (step.moves h db) writes := by
  have hquiet (hstep : step.discovers = none)
      (heffect : writes = [] ∧ step.Applied h db.toJournal ∨
        Effect h step db.toJournal none writes) :
      Replay h db step writes ∨ Effect h step db.toJournal (step.moves h db) writes :=
    effect_of_quiet hstep (heffect.imp_left fun ⟨hnil, happlied⟩ ↦ ⟨hnil, fun _ ↦ happlied⟩)
  cases step with
  | discovery value expected plan root payloadRef => exact discoveryTx_effect hok
  | pinDiscovery expectedIntent value expectedStream plan origin planRef =>
    exact pinDiscoveryTx_effect hok
  | prepare =>
    exact effect_of_quiet rfl ((prepareTx_effect hok).imp_left fun hnil ↦ ⟨hnil, fun h ↦ nomatch h⟩)
  | markPinned => exact hquiet rfl (markPinnedTx_effect hok)
  | finishPin => exact hquiet rfl (finishPinTx_effect hok)
  | claim => exact hquiet rfl (claimTx_effect hok)
  | freeze expected frozenRef frozenId =>
    refine hquiet rfl ((freezeTx_eq_ok hok).imp_right ?_)
    rintro ⟨b, fields, rfl, hnoting⟩
    exact hnoting.effect (fun _ ↦ Iff.rfl) rfl
  | request origin row intentId =>
    refine hquiet rfl ((requestTx_eq_ok hok).imp_right ?_)
    rintro ⟨b, fields, rfl, hnoting⟩
    exact hnoting.effect (fun _ ↦ Iff.rfl) rfl
  | retention value ref =>
    obtain ⟨b, fields, scheduled, rfl, hnoting⟩ := retentionTx_eq_ok hok
    refine effect_of_quiet rfl (.inr (hnoting.effect (fun _ ↦ Iff.rfl) ?_))
    rw [apply_append, apply_schedule]
    rfl
  | filing => exact hquiet rfl (filingTx_effect hok)
  | acceptance =>
    exact hquiet rfl (Closes.effect (fun _ ↦ Iff.rfl) (acceptanceTx_eq_ok hok))
  | dismissal =>
    exact hquiet rfl (Closes.effect (fun _ ↦ Iff.rfl) (dismissalTx_eq_ok hok))
  | abandon | abandonCapturing | requeueReady | requeueCapturing =>
    exact hquiet rfl (Closes.effect (fun _ ↦ Iff.rfl) (abandonFromTx_eq_ok hok))
  | requeue =>
    exact hquiet rfl (Closes.effect (fun _ ↦ Iff.rfl) (requeueTx_eq_ok hok))
  | begin => exact hquiet rfl (beginTx_effect hok)
  | finishRetirement => exact hquiet rfl (finishRetirementTx_effect hok)
  | elsewhere =>
    injection hok with hnil
    exact effect_of_quiet rfl (.inl ⟨hnil.symm, fun _ ↦ trivial⟩)

theorem step_eq_apply (hok : step.tx h db = .ok writes) :
    (db.step h step).toJournal = db.toJournal.apply writes := by
  unfold Db.step
  split
  · injection hok with hnil
    subst hnil
    rfl
  · rw [hok]
    rfl

/-- A refused step leaves the journal alone. -/
theorem step_eq_self {e : Reason} (herror : step.tx h db = .error e) :
    step.moves h db = none ∧ (db.step h step).toJournal = db.toJournal := by
  constructor
  · unfold moves
    rw [herror]
    cases step.discovers <;> rfl
  · unfold Db.step
    split
    · rfl
    · rw [herror]

/-- What one step can do to the journal. -/
theorem step_change (h : Hasch U P) (db : Db U P) (step : Step U P) :
    Change h step db.toJournal (step.moves h db) (db.step h step).toJournal := by
  cases hok : step.tx h db with
  | error e =>
    obtain ⟨hmoves, hstep⟩ := step_eq_self hok
    rw [hstep, hmoves]
    exact .idle
  | ok writes =>
    rw [step_eq_apply hok]
    obtain ⟨rfl, hmoves, -⟩ | heffect := step_effect hok
    · rw [hmoves]
      exact .idle
    · exact heffect.change

end Simmis.Knowledge
