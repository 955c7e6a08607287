import Simmis.Knowledge.Exclusive

/-!
# Retention of the source

The hosts move the cursor of a stream only through its pin intents. Then the pin of the cursor
retains the source until the stream is retired, and the frozen inputs of a batch are never released.
-/

namespace Simmis.Knowledge

open List Option Runs Table Pin

variable {U P : Type} [DecidableEq U]

/-- The intent locks its stream. -/
def PinState.live : PinState → Bool
  | .creating | .pinned | .committed => true
  | .retained | .released => false

/-- The pin holds the source at the cursor; after a retirement it may be gone. -/
structure Pin.Holds (p : Pin U) (s : Stream U) : Prop where
  stream : p.stream = s.id
  state : p.state = .committed ∨ p.state = .retained ∨ p.state = .released ∧ s.state = .retired
  batch : s.activeBatch ≠ none → p.state = .retained

structure Pinning (streams : Table (fun s : Stream U ↦ s.id)) (pins : Table (Pin.id (U := U)))
    (discoveries : Table (Discovery.id (U := U))) : Prop where
  key : ∀ id p, pins.get id = some p → p.activeStream = if p.state.live then some p.stream else none
  one : ∀ id p id' p', pins.get id = some p → pins.get id' = some p' → p.state.live →
    p'.state.live → p.stream = p'.stream → id = id'
  idle : ∀ id p s, pins.get id = some p → p.state.live → streams.get p.stream = some s →
    s.state = .active ∧ s.activeBatch = none
  cursor : ∀ id s, streams.get id = some s → ∃ p, pins.get s.cursorRoot = some p ∧ p.Holds s
  recorded : ∀ id p did, pins.get id = some p → p.discovery = some did →
    (discoveries.get did).isSome

variable {streams : Table (fun s : Stream U ↦ s.id)} {pins : Table (Pin.id (U := U))}
  {discoveries : Table (Discovery.id (U := U))}

variable {fields : Pin U → Pin U} {p : Pin U}

section

variable (hj : Pinning streams pins discoveries)
include hj

theorem Pinning.set_pin {pins' : Table (id (U := U))} {q : Pin U}
    (hget : ∀ id, pins'.get id = if id = q.id then some q else pins.get id)
    (hkey : q.activeStream = if q.state.live then some q.stream else none)
    (hone : q.state.live → ∀ id p, pins.get id = some p → p.state.live → p.stream = q.stream →
      id = q.id)
    (hidle : q.state.live → ∀ s, streams.get q.stream = some s →
      s.state = .active ∧ s.activeBatch = none)
    (hcursor : ∀ id s, streams.get id = some s → s.cursorRoot = q.id → q.Holds s)
    (hrecorded : ∀ did, q.discovery = some did → (discoveries.get did).isSome) :
    Pinning streams pins' discoveries where
  key := by
    intro id p hp
    rw [hget] at hp
    split at hp
    · injection hp with hp
      subst hp
      exact hkey
    · exact hj.key id p hp
  one := by
    intro id p id' p' hp hp' hlive hlive' hstream
    rw [hget] at hp hp'
    split at hp <;> split at hp'
    · next hid hid' => rw [hid, hid']
    · next hid hid' =>
      injection hp with hp
      subst hp
      rw [hid, hone hlive id' p' hp' hlive' hstream.symm]
    · next hid hid' =>
      injection hp' with hp'
      subst hp'
      rw [hid', hone hlive' id p hp hlive hstream]
    · exact hj.one id p id' p' hp hp' hlive hlive' hstream
  idle := by
    intro id p s hp hlive hs
    rw [hget] at hp
    split at hp
    · injection hp with hp
      subst hp
      exact hidle hlive s hs
    · exact hj.idle id p s hp hlive hs
  cursor := by
    intro id s hs
    rw [hget]
    split
    · next hroot => exact ⟨q, rfl, hcursor id s hs hroot⟩
    · exact hj.cursor id s hs
  recorded := by
    intro id p did hp hdid
    rw [hget] at hp
    split at hp
    · injection hp with hp
      subst hp
      exact hrecorded did hdid
    · exact hj.recorded id p did hp hdid

theorem Pinning.set_stream {streams' : Table (fun s : Stream U ↦ s.id)} {r : Stream U}
    (hget : ∀ id, streams'.get id = if id = r.id then some r else streams.get id)
    (hidle : ∀ id p, pins.get id = some p → p.state.live → p.stream = r.id →
      r.state = .active ∧ r.activeBatch = none)
    (hcursor : ∃ p, pins.get r.cursorRoot = some p ∧ p.Holds r) :
    Pinning streams' pins discoveries where
  key := hj.key
  one := hj.one
  idle := by
    intro id p s hp hlive hs
    rw [hget] at hs
    split at hs
    · next hid =>
      injection hs with hs
      subst hs
      exact hidle id p hp hlive hid
    · exact hj.idle id p s hp hlive hs
  cursor := by
    intro id s hs
    rw [hget] at hs
    split at hs
    · injection hs with hs
      subst hs
      exact hcursor
    · exact hj.cursor id s hs
  recorded := hj.recorded

theorem Pinning.grow
    {discoveries' : Table (Discovery.id (U := U))}
    (hgrows : discoveries.Grows (fun _ _ ↦ True) discoveries') :
    Pinning streams pins discoveries' := by
  refine { hj with recorded := fun id p did hp hdid ↦ ?_ }
  obtain ⟨event, hevent⟩ := isSome_iff_exists.mp (hj.recorded id p did hp hdid)
  obtain ⟨event', hevent', -⟩ := hgrows did event hevent
  rw [hevent']
  rfl

/-- A patch that keeps the stream of a live pin, and leaves it live. -/
theorem Pinning.patch_live (hp : pins.get p.id = some p)
    (hid : ∀ q, (fields q).id = q.id) (hstream : (fields p).stream = p.stream)
    (hkey : (fields p).activeStream = p.activeStream) (hbefore : p.state.live)
    (hlive : (fields p).state.live)
    (hcursor : ∀ id s, streams.get id = some s → s.cursorRoot = p.id → (fields p).Holds s)
    (hrecorded : ∀ did, (fields p).discovery = some did → (discoveries.get did).isSome) :
    Pinning streams (pins.modify p.id fields) discoveries := by
  refine hj.set_pin (q := fields p) (fun id ↦ ?_) ?_ (fun _ id q hq hq' hsame ↦ ?_)
    (fun _ s hs ↦ ?_) (fun id s hs hroot ↦ ?_) hrecorded
  · rw [get_modify_some hid hp, hid]
  · rw [hkey, hj.key p.id p hp, hbefore, hlive, hstream]
  · rw [hid]
    exact hj.one id q p.id p hq hp hq' hbefore (hsame.trans hstream)
  · rw [hstream] at hs
    exact hj.idle p.id p s hp hbefore hs
  · rw [hid] at hroot
    exact hcursor id s hs hroot

/-- A patch after which a pin does not lock its stream. -/
theorem Pinning.patch_idle (hp : pins.get p.id = some p)
    (hid : ∀ q, (fields q).id = q.id) (hkey : (fields p).activeStream = none)
    (hlive : (fields p).state.live = false) (hdiscovery : (fields p).discovery = p.discovery)
    (hcursor : ∀ id s, streams.get id = some s → s.cursorRoot = p.id → (fields p).Holds s) :
    Pinning streams (pins.modify p.id fields) discoveries := by
  refine hj.set_pin (q := fields p) (fun id ↦ ?_) ?_ (fun hyes ↦ ?_) (fun hyes ↦ ?_)
    (fun id s hs hroot ↦ ?_) (fun did hdid ↦ ?_)
  · rw [get_modify_some hid hp, hid]
  · rw [hkey, hlive]
    rfl
  · rw [hlive] at hyes
    cases hyes
  · rw [hlive] at hyes
    cases hyes
  · rw [hid] at hroot
    exact hcursor id s hs hroot
  · rw [hdiscovery] at hdid
    exact hj.recorded p.id p did hp hdid

/-- A live pin other than a committed one is no cursor. -/
theorem Pinning.not_cursor (hp : pins.get p.id = some p)
    (hstate : p.state = .creating ∨ p.state = .pinned) {id : U} {s : Stream U}
    (hs : streams.get id = some s) : s.cursorRoot ≠ p.id := by
  intro hroot
  obtain ⟨q, hq, hholds⟩ := hj.cursor id s hs
  rw [hroot, hp] at hq
  injection hq with hq
  subst hq
  have hcases := hholds.state
  obtain hstate | hstate := hstate <;> simp [hstate] at hcases

/-- The stream of a cursor pin is the one whose cursor it is. -/
theorem Pinning.cursor_stream (hp : pins.get p.id = some p) {id : U} {s : Stream U}
    (hs : streams.get id = some s) (hroot : s.cursorRoot = p.id) : p.Holds s := by
  obtain ⟨q, hq, hholds⟩ := hj.cursor id s hs
  rw [hroot, hp] at hq
  injection hq with hq
  rwa [hq]

end

theorem active_eq_none {j : Journal U P} {stream : U} (hnone : active j stream = none) {id : U}
    (hp : j.pins.get id = some p) : p.activeStream ≠ some stream := by
  unfold active at hnone
  rw [find?_eq_none] at hnone
  simpa using hnone p (get_eq_some_iff.mp hp).1

section Steps

variable [LinearOrder P] {h : Hasch U P} {j : Journal U P}

def Journal.Pinning (j : Journal U P) : Prop := Knowledge.Pinning j.streams j.pins j.discoveries

/-- A discovery without the pin intent of its root. -/
def Step.bare : Step U P → Bool
  | .discovery .. => true
  | _ => false

theorem commit_pinning {value : Descriptor U} {plan : Plan U P} {payloadRef did : U}
    (hpin : j.pins.get p.id = some p) (hstate : p.state = .pinned) (hhome : p.stream = value.id)
    (hdiscovering : Discovering h j value plan p.id did) (hj : j.Pinning) :
    Journal.Pinning { j.discovered h value plan p.id payloadRef did with
      pins := j.pins.modify p.id (commit did) } := by
  have hgrows : j.discoveries.Grows (fun _ _ ↦ True)
      (j.discovered h value plan p.id payloadRef did).discoveries :=
    (discovered_advances hdiscovering).discoveries
  have hcommitted : Knowledge.Pinning j.streams (j.pins.modify p.id (commit did))
      (j.discovered h value plan p.id payloadRef did).discoveries := by
    refine (Pinning.grow hj hgrows).patch_live hpin (commit_id did) rfl rfl (by rw [hstate]; rfl)
      rfl (fun id s hs hroot ↦ ?_) fun did' hdid ↦ ?_
    · exact absurd hroot (Pinning.not_cursor hj hpin (.inr hstate) hs)
    · rw [← show did = did' from some.inj hdid, get_discovered]
      rfl
  have hget : (j.pins.modify p.id (commit did)).get p.id = some (p.commit did) := by
    rw [get_modify_some (commit_id did) hpin, if_pos rfl]
  have hfree : (moveCursor h value (j.streams.get value.id) plan p.id did
      (freshVersions h j value.id plan).length).activeBatch = none := by
    cases hs : j.streams.get value.id with
    | none => rfl
    | some s => exact (hdiscovering.ready s hs).2.1
  refine hcommitted.set_stream (fun id ↦ ?_) (fun _ _ _ _ _ ↦ ⟨rfl, hfree⟩)
    ⟨p.commit did, hget, hhome, .inl rfl, fun hrunning ↦ absurd hfree hrunning⟩
  change (j.discovered h value plan p.id payloadRef did).streams.get id = _
  exact get_stream_discovered id

omit [LinearOrder P] in
theorem finish_pinning {event : Discovery U} {s : Stream U}
    (hfinishing : Finishing j p event s) (hj : j.Pinning) : (j.finished p event).Pinning := by
  have hgrows := (finished_advances hfinishing).discoveries
  have hretained : Knowledge.Pinning j.streams (j.pins.modify p.id retain)
      (j.finished p event).discoveries := by
    refine (Pinning.grow hj hgrows).patch_idle hfinishing.pin retain_id rfl rfl rfl
      fun id r hr hroot ↦ ?_
    obtain ⟨hstream, -, -⟩ := Pinning.cursor_stream hj hfinishing.pin hr hroot
    exact ⟨hstream, .inr (.inl rfl), fun _ ↦ rfl⟩
  unfold Journal.finished Journal.Pinning
  cases hbefore : event.beforeRoot with
  | none => exact hretained
  | some root =>
    obtain ⟨old, hold, hstate, hsame⟩ := hfinishing.old root hbefore
    have hkey : old.id = root := key_of_get hold
    subst hkey
    have hne : old.id ≠ p.id := by
      intro heq
      rw [heq, hfinishing.pin] at hold
      injection hold with hold
      subst hold
      rw [hfinishing.state] at hstate
      cases hstate
    have hget : (j.pins.modify p.id retain).get old.id = some old := by
      rw [get_modify_some retain_id hfinishing.pin, if_neg hne]
      exact hold
    refine hretained.patch_idle hget release_id ?_ rfl rfl fun id r hr hroot ↦ ?_
    · change old.activeStream = none
      rw [hj.key old.id old hold, hstate]
      rfl
    -- the old pin belongs to the same stream, whose cursor is the committed one
    · have hstream := (Pinning.cursor_stream hj hold hr hroot).stream
      have hkey := key_of_get hr
      rw [hsame, hfinishing.home] at hstream
      rw [← hkey, ← hstream, hfinishing.stream] at hr
      injection hr with hr
      subst hr
      exact absurd (hroot.symm.trans hfinishing.cursor.symm) hne

omit [LinearOrder P] in
theorem retire_pinning {s : Stream U} (hretirement : Retirement j s p)
    (hsound : j.ledger.Sound h) (hj : j.Pinning) : Journal.Pinning { j with
      streams := j.streams.modify s.id (Stream.setState .retired)
      pins := j.pins.modify p.id release } := by
  have hfree : s.activeBatch = none := by
    have hfenced : s.state ≠ .active := by simp [hretirement.fenced]
    exact ((hsound.streams s.id s hretirement.stream).clean hfenced).1
  -- the stream is retired first: its released pin may then be its cursor
  have hretired : Knowledge.Pinning (j.streams.modify s.id (Stream.setState .retired)) j.pins
      j.discoveries := by
    refine Pinning.set_stream (r := s.setState .retired) hj (fun id ↦ ?_)
      (fun id q hq hlive hhome ↦ ?_) ?_
    · exact get_modify_some (Stream.setState_id _) hretirement.stream id
    · have hidle := hj.idle id q s hq hlive (by rw [hhome]; exact hretirement.stream)
      rw [hretirement.fenced] at hidle
      exact nomatch hidle.1
    · refine ⟨p, ?_, hretirement.home, .inr (.inl hretirement.retained), fun _ ↦ hretirement.retained⟩
      change j.pins.get s.cursorRoot = _
      rw [← hretirement.cursor]
      exact hretirement.pin
  refine hretired.patch_idle hretirement.pin release_id ?_ rfl rfl fun id r hr hroot ↦ ?_
  · change p.activeStream = none
    rw [hj.key p.id p hretirement.pin, hretirement.retained]
    rfl
  · rw [get_modify_some (Stream.setState_id _) hretirement.stream] at hr
    split at hr
    · injection hr with hr
      subst hr
      exact ⟨hretirement.home, .inr (.inr ⟨rfl, rfl⟩), fun hrunning ↦ absurd hfree hrunning⟩
    · next hid =>
      have hstream := (Pinning.cursor_stream hj hretirement.pin hr hroot).stream
      rw [hretirement.home] at hstream
      exact absurd ((key_of_get hr).symm.trans hstream.symm) hid

variable {j' : Journal U P}

theorem Change.pinning {step : Step U P} {moved : Option (U × Plan U P)}
    (hchange : Change h step j moved j') (hbare : step.bare = false) (hsound : j.ledger.Sound h)
    (hj : j.Pinning) : j'.Pinning := by
  cases hchange with
  | idle => exact hj
  | discover value plan root payloadRef did horigin hdiscovering =>
    obtain ⟨expected, rfl⟩ | ⟨p, hp, hrecorded⟩ := horigin
    · cases hbare
    -- a recorded discovery is there
    · have hsome := hj.recorded root p did hp hrecorded
      rw [hdiscovering.fresh] at hsome
      cases hsome
  | commit value plan payloadRef did p hpin hstate hhome hdiscovering =>
    exact commit_pinning hpin hstate hhome hdiscovering hj
  | recommit p did hpin hstate hevent =>
    refine Pinning.patch_live hj hpin (commit_id did) rfl rfl (by rw [hstate]; rfl) rfl
      (fun id s hs hroot ↦ ?_) fun did' hdid ↦ ?_
    · exact absurd hroot (Pinning.not_cursor hj hpin (.inr hstate) hs)
    · rw [← show did = did' from some.inj hdid]
      exact hevent
  | prepare p hnew hactive hstate hkey hrecord hfree =>
    refine Pinning.set_pin (q := p) hj (fun id ↦ get_put _ _ _) ?_
      (fun _ id q hq hlive hsame ↦ ?_) (fun _ ↦ hfree) (fun id s hs hroot ↦ ?_) fun did hdid ↦ ?_
    · rw [hkey, hstate]
      rfl
    · have hbusy := hj.key id q hq
      rw [if_pos hlive, hsame] at hbusy
      exact absurd hbusy (active_eq_none hactive hq)
    · obtain ⟨q, hq, -⟩ := hj.cursor id s hs
      rw [hroot, hnew] at hq
      cases hq
    · rw [hrecord] at hdid
      cases hdid
  | mark p hpin hstate =>
    refine Pinning.patch_live hj hpin mark_id rfl rfl (by rw [hstate]; rfl) rfl
      (fun id s hs hroot ↦ ?_) fun did hdid ↦ hj.recorded p.id p did hpin hdid
    exact absurd hroot (Pinning.not_cursor hj hpin (.inl hstate) hs)
  | finish p event s hfinishing => exact finish_pinning hfinishing hj
  | claim selection ref token s selected hclaiming =>
    refine Pinning.set_stream (r := s.activate selection.id) hj hclaiming.get_stream
      (fun id q hq hlive hhome ↦ ?_) ?_
    · have hbusy := hj.key id q hq
      rw [if_pos hlive, hhome] at hbusy
      exact absurd hbusy (active_eq_none hclaiming.unpinned hq)
    · obtain ⟨q, hq, hretained⟩ := hclaiming.retained
      obtain ⟨q', hq', hholds⟩ := hj.cursor s.id s hclaiming.stream
      rw [hq] at hq'
      injection hq' with hq'
      subst hq'
      exact ⟨q, hq, hholds.stream, .inr (.inl hretained), fun _ ↦ hretained⟩
  | note => exact hj
  | close b fields s selection items outcome generation hclosing =>
    have hcursor : (Stream.close generation s).cursorRoot = s.cursorRoot := by
      cases generation <;> rfl
    refine Pinning.set_stream (r := Stream.close generation s) hj (fun id ↦ ?_)
      (fun id q hq hlive hhome ↦ ?_) ?_
    · rw [Stream.close_id]
      exact hclosing.get_stream id
    · rw [Stream.close_id] at hhome
      have hidle := hj.idle id q s hq hlive (by rw [hhome]; exact hclosing.stream)
      rw [Stream.close_state, Stream.close_activeBatch]
      exact ⟨hidle.1, rfl⟩
    · obtain ⟨q, hq, hholds⟩ := hj.cursor s.id s hclosing.stream
      refine ⟨q, by rw [hcursor]; exact hq, by rw [Stream.close_id]; exact hholds.stream, ?_,
        fun hrunning ↦ absurd (Stream.close_activeBatch generation s) hrunning⟩
      rw [Stream.close_state]
      exact hholds.state
  | begin s p recorded hbeginning =>
    have hfenced : Knowledge.Pinning (j.streams.modify s.id (Stream.setState .retiring)) j.pins
        j.discoveries := by
      refine Pinning.set_stream (r := s.setState .retiring) hj (fun id ↦ ?_)
        (fun id q hq hlive hhome ↦ ?_) ?_
      · exact get_modify_some (Stream.setState_id _) hbeginning.stream id
      · have hbusy := hj.key id q hq
        rw [if_pos hlive, hhome] at hbusy
        exact absurd hbusy (active_eq_none hbeginning.unpinned hq)
      · obtain ⟨q, hq, hstream, hstate, hbatch⟩ := hj.cursor s.id s hbeginning.stream
        refine ⟨q, hq, hstream, ?_, hbatch⟩
        obtain hstate | hstate | ⟨-, hretired⟩ := hstate
        · exact .inl hstate
        · exact .inr (.inl hstate)
        · rw [hbeginning.admitted] at hretired
          cases hretired
    refine Pinning.set_pin (q := p.recordAudit recorded) hfenced (fun id ↦ ?_) ?_ (fun hlive ↦ ?_)
      (fun hlive ↦ ?_) (fun id r hr hroot ↦ ?_) fun did hdid ↦ ?_
    · exact get_modify_some (recordAudit_id recorded) hbeginning.pin id
    · exact hj.key p.id p hbeginning.pin
    · exact fun id q hq hlive' hsame ↦ hj.one id q p.id p hq hbeginning.pin hlive' hlive hsame
    · exact fun r hr ↦ hfenced.idle p.id p r hbeginning.pin hlive hr
    · obtain ⟨hstream, hstate, hbatch⟩ := hfenced.cursor_stream hbeginning.pin hr hroot
      exact ⟨hstream, hstate, hbatch⟩
    · exact hj.recorded p.id p did hbeginning.pin hdid
  | retire s p hretirement => exact retire_pinning hretirement hsound hj

/-- A pin is released once its successor was committed, or with the stream. -/
def Journal.Releases (j j' : Journal U P) : Prop :=
  ∀ p', j'.pins.get p'.id = some p' → p'.state = .released →
    (∃ p, j.pins.get p'.id = some p ∧ p.state = .released) ∨
      (∃ s successor event, j.streams.get p'.stream = some s ∧ s.cursorRoot = successor.id ∧
        j.pins.get successor.id = some successor ∧ successor.state = .committed ∧
        successor.discovery = some event.id ∧ j.discoveries.get event.id = some event ∧
        event.beforeRoot = some p'.id ∧ event.afterRoot = successor.id) ∨
      ∃ s', j'.streams.get p'.stream = some s' ∧ s'.state = .retired

/-- The cursor of a stream with an active batch stays, and its pin stays retained. -/
def Journal.HoldsCursor (j j' : Journal U P) : Prop :=
  ∀ s, j.streams.get s.id = some s → s.activeBatch ≠ none →
    ∃ s' p, j'.streams.get s.id = some s' ∧ s'.cursorRoot = s.cursorRoot ∧
      j'.pins.get s.cursorRoot = some p ∧ p.state = .retained

/-- A stream that is not active stays so, and gains no batch and no pin intent. -/
structure Journal.Fences (j j' : Journal U P) : Prop where
  stream : ∀ id s, j.streams.get id = some s → s.state ≠ .active →
    ∃ s', j'.streams.get id = some s' ∧ s'.state ≠ .active
  batch : ∀ id s b', j.streams.get id = some s → s.state ≠ .active →
    j'.batches.get b'.id = some b' → b'.stream = id → (j.batches.get b'.id).isSome
  pin : ∀ id s p', j.streams.get id = some s → s.state ≠ .active →
    j'.pins.get p'.id = some p' → p'.stream = id → (j.pins.get p'.id).isSome

section

omit [LinearOrder P]

theorem Journal.Fences.refl (j : Journal U P) : j.Fences j where
  stream _ s hs hstate := ⟨s, hs, hstate⟩
  batch _ _ _ _ _ hb _ := by
    rw [hb]
    rfl
  pin _ _ _ _ _ hp _ := by
    rw [hp]
    rfl

theorem StreamState.rank_pos {state state' : StreamState} (hstate : state ≠ .active)
    (hrank : state.rank ≤ state'.rank) : state' ≠ .active := by
  rintro rfl
  cases state with
  | active => exact hstate rfl
  | retiring => exact absurd hrank (by decide)
  | retired => exact absurd hrank (by decide)

/-- Streams only move forward, so a fence needs only the rows that appear. -/
theorem Journal.Advances.fences {j j' : Journal U P} (hj : j.Advances j')
    (hbatch : ∀ b', j'.batches.get b'.id = some b' → (j.batches.get b'.id).isSome ∨
      ∀ s ∈ j.streams.get b'.stream, s.state = .active)
    (hpin : ∀ p', j'.pins.get p'.id = some p' → (j.pins.get p'.id).isSome ∨
      ∀ s ∈ j.streams.get p'.stream, s.state = .active) : j.Fences j' where
  stream id s hs hstate := by
    obtain ⟨s', hs', hadvances⟩ := hj.streams id s hs
    exact ⟨s', hs', StreamState.rank_pos hstate hadvances.state⟩
  batch id s b' hs hstate hb' hhome := by
    obtain hsome | hactive := hbatch b' hb'
    · exact hsome
    · rw [hhome] at hactive
      exact absurd (hactive s hs) hstate
  pin id s p' hs hstate hp' hhome := by
    obtain hsome | hactive := hpin p' hp'
    · exact hsome
    · rw [hhome] at hactive
      exact absurd (hactive s hs) hstate

theorem Journal.Fences.trans {j₁ j₂ j₃ : Journal U P} (h₁ : j₁.Fences j₂) (h₂ : j₂.Fences j₃)
    (hadvances : j₂.Advances j₃) : j₁.Fences j₃ where
  stream id s hs hstate := by
    obtain ⟨s₂, hs₂, hstate₂⟩ := h₁.stream id s hs hstate
    exact h₂.stream id s₂ hs₂ hstate₂
  batch id s b' hs hstate hb' hhome := by
    obtain ⟨s₂, hs₂, hstate₂⟩ := h₁.stream id s hs hstate
    obtain ⟨b₂, hb₂⟩ := isSome_iff_exists.mp (h₂.batch id s₂ b' hs₂ hstate₂ hb' hhome)
    obtain ⟨b₃, hb₃, hadvances⟩ := hadvances.batches b'.id b₂ hb₂
    rw [hb'] at hb₃
    injection hb₃ with hb₃
    subst hb₃
    have hkey : b₂.id = b'.id := key_of_get hb₂
    rw [← hkey] at hb₂ ⊢
    exact h₁.batch id s b₂ hs hstate hb₂ (hadvances.stream.symm.trans hhome)
  pin id s p' hs hstate hp' hhome := by
    obtain ⟨s₂, hs₂, hstate₂⟩ := h₁.stream id s hs hstate
    obtain ⟨p₂, hp₂⟩ := isSome_iff_exists.mp (h₂.pin id s₂ p' hs₂ hstate₂ hp' hhome)
    obtain ⟨p₃, hp₃, hadvances⟩ := hadvances.pins p'.id p₂ hp₂
    rw [hp'] at hp₃
    injection hp₃ with hp₃
    subst hp₃
    have hkey : p₂.id = p'.id := key_of_get hp₂
    rw [← hkey] at hp₂ ⊢
    exact h₁.pin id s p₂ hs hstate hp₂ (hadvances.stream.symm.trans hhome)

end

theorem Change.fences {step : Step U P} {moved : Option (U × Plan U P)}
    (hchange : Change h step j moved j') : j.Fences j' := by
  have hadvances := hchange.advances
  -- a patch adds no row
  have hmodify {κ ρ : Type} [DecidableEq κ] {key : ρ → κ} (t : Table key) (k : κ) (f : ρ → ρ)
      (hf : ∀ r, key (f r) = key r) (l : κ) (r : ρ) (hr : (t.modify k f).get l = some r) :
      (t.get l).isSome := by
    obtain ⟨q, hq, -⟩ := stems_modify (R := fun _ _ ↦ True) (fun _ ↦ trivial) hf
      (fun _ _ ↦ trivial) l r hr
    rw [hq]
    rfl
  have hsame {κ ρ : Type} [DecidableEq κ] {key : ρ → κ} (t : Table key) (l : κ) (r : ρ)
      (hr : t.get l = some r) : (t.get l).isSome := by
    rw [hr]
    rfl
  cases hchange with
  | idle => exact .refl j
  | discover value plan root payloadRef did horigin hdiscovering =>
    exact hadvances.fences (fun b hb ↦ .inl (hsame _ _ b hb)) fun p hp ↦ .inl (hsame _ _ p hp)
  | commit value plan payloadRef did p hpin hstate hhome hdiscovering =>
    exact hadvances.fences (fun b hb ↦ .inl (hsame _ _ b hb))
      fun q hq ↦ .inl (hmodify _ _ _ (commit_id did) _ q hq)
  | recommit p did hpin hstate hevent =>
    exact hadvances.fences (fun b hb ↦ .inl (hsame _ _ b hb))
      fun q hq ↦ .inl (hmodify _ _ _ (commit_id did) _ q hq)
  | prepare p hnew hactive hstate hkey hrecord hfree =>
    refine hadvances.fences (fun b hb ↦ .inl (hsame _ _ b hb)) fun q hq ↦ ?_
    rw [get_put] at hq
    split at hq
    · injection hq with hq
      subst hq
      exact .inr fun s hs ↦ (hfree s hs).1
    · exact .inl (hsame _ _ q hq)
  | mark p hpin hstate =>
    exact hadvances.fences (fun b hb ↦ .inl (hsame _ _ b hb))
      fun q hq ↦ .inl (hmodify _ _ _ mark_id _ q hq)
  | finish p event s hfinishing =>
    refine hadvances.fences (fun b hb ↦ .inl (hsame _ _ b hb)) fun q hq ↦ .inl ?_
    rw [hfinishing.get_pin] at hq
    split at hq
    · next hid =>
      rw [hid, hfinishing.pin]
      rfl
    · split at hq
      · obtain ⟨old, hold, -⟩ := map_eq_some_iff.mp hq
        rw [hold]
        rfl
      · exact hsame _ _ q hq
  | claim selection ref token s selected hclaiming =>
    refine hadvances.fences (fun b hb ↦ ?_) fun q hq ↦ .inl (hsame _ _ q hq)
    rw [get_batch_claimed] at hb
    split at hb
    · injection hb with hb
      subst hb
      refine .inr fun r hr ↦ ?_
      have hr' : j.streams.get selection.stream.id = some r := hr
      rw [hclaiming.home, hclaiming.stream] at hr'
      injection hr' with hr'
      subst hr'
      exact hclaiming.admitted
    · exact .inl (hsame _ _ b hb)
  | note b fields hb hid hnoted =>
    exact hadvances.fences (fun c hc ↦ .inl (hmodify _ _ _ hid _ c hc))
      fun q hq ↦ .inl (hsame _ _ q hq)
  | close b fields s selection items outcome generation hclosing =>
    exact hadvances.fences (fun c hc ↦ .inl (hmodify _ _ _ hclosing.id _ c hc))
      fun q hq ↦ .inl (hsame _ _ q hq)
  | begin s p recorded hbeginning =>
    exact hadvances.fences (fun b hb ↦ .inl (hsame _ _ b hb))
      fun q hq ↦ .inl (hmodify _ _ _ (recordAudit_id recorded) _ q hq)
  | retire s p hretirement =>
    exact hadvances.fences (fun b hb ↦ .inl (hsame _ _ b hb))
      fun q hq ↦ .inl (hmodify _ _ _ release_id _ q hq)

omit [LinearOrder P] in
/-- A patch that releases nothing. -/
theorem releases_of_patch (hp : j.pins.get p.id = some p)
    (hid : ∀ q, (fields q).id = q.id) (hstate : (fields p).state = .released → p.state = .released)
    (hpins : j'.pins = j.pins.modify p.id fields) : j.Releases j' := by
  intro p' hp' hreleased
  rw [hpins, get_modify_some hid hp] at hp'
  left
  split at hp'
  · next heq =>
    injection hp' with hp'
    rw [← hp'] at hreleased
    exact ⟨p, by rw [heq]; exact hp, hstate hreleased⟩
  · exact ⟨p', hp', hreleased⟩

section

variable {step : Step U P} {moved : Option (U × Plan U P)} (hchange : Change h step j moved j')
include hchange

theorem Change.releases : j.Releases j' := by
  have hkept (hpins : j'.pins = j.pins) : j.Releases j' := by
    intro p' hp' hreleased
    rw [hpins] at hp'
    exact .inl ⟨p', hp', hreleased⟩
  cases hchange with
  | idle | discover | claim | note | close => exact hkept rfl
  | commit value plan payloadRef did p hpin hstate hhome hdiscovering =>
    exact releases_of_patch hpin (commit_id did) (fun h ↦ nomatch h) rfl
  | recommit p did hpin hstate hevent =>
    exact releases_of_patch hpin (commit_id did) (fun h ↦ nomatch h) rfl
  | mark p hpin hstate => exact releases_of_patch hpin mark_id (fun h ↦ nomatch h) rfl
  | begin s p recorded hbeginning =>
    exact releases_of_patch hbeginning.pin (recordAudit_id recorded) (fun h ↦ h) rfl
  | prepare p hnew hactive hstate hkey hrecord hfree =>
    intro p' hp' hreleased
    rw [get_put] at hp'
    split at hp'
    · injection hp' with hp'
      subst hp'
      rw [hstate] at hreleased
      cases hreleased
    · exact .inl ⟨p', hp', hreleased⟩
  | finish p event s hfinishing =>
    intro p' hp' hreleased
    rw [hfinishing.get_pin] at hp'
    split at hp'
    · injection hp' with hp'
      subst hp'
      cases hreleased
    · split at hp'
      · next hbefore =>
        obtain ⟨old, hold, rfl⟩ := map_eq_some_iff.mp hp'
        obtain ⟨q, hq, -, hsame⟩ := hfinishing.old _ hbefore
        rw [hold] at hq
        injection hq with hq
        subst hq
        refine .inr (.inl ⟨s, p, event, ?_, hfinishing.cursor.symm, hfinishing.pin,
          hfinishing.state, hfinishing.recorded, hfinishing.logged, hbefore,
          hfinishing.after.symm⟩)
        change j.streams.get old.stream = some s
        rw [hsame, hfinishing.home]
        exact hfinishing.stream
      · exact .inl ⟨p', hp', hreleased⟩
  | retire s p hretirement =>
    intro p' hp' hreleased
    rw [get_modify_some release_id hretirement.pin] at hp'
    split at hp'
    · injection hp' with hp'
      subst hp'
      refine .inr (.inr ⟨s.setState .retired, ?_, rfl⟩)
      change (j.streams.modify s.id (Stream.setState .retired)).get p.stream = _
      rw [get_modify_some (Stream.setState_id _) hretirement.stream, if_pos hretirement.home]
    · exact .inl ⟨p', hp', hreleased⟩

/-- A stream with an active batch keeps its cursor. -/
theorem Change.cursor (hsound : j.ledger.Sound h) {s : Stream U} (hs : j.streams.get s.id = some s)
    (hbusy : s.activeBatch ≠ none) :
    ∃ s', j'.streams.get s.id = some s' ∧ s'.cursorRoot = s.cursorRoot ∧
      (s'.activeBatch = s.activeBatch ∨ j'.pins = j.pins) := by
  have hkept (hstreams : j'.streams.get s.id = j.streams.get s.id) :
      ∃ s', j'.streams.get s.id = some s' ∧ s'.cursorRoot = s.cursorRoot ∧
        (s'.activeBatch = s.activeBatch ∨ j'.pins = j.pins) :=
    ⟨s, hstreams.trans hs, rfl, .inl rfl⟩
  have hdiscovered {value : Descriptor U} {plan : Plan U P} {root did : U} (payloadRef : U)
      (hdiscovering : Discovering h j value plan root did) :
      (j.discovered h value plan root payloadRef did).streams.get s.id = j.streams.get s.id := by
    rw [get_stream_discovered, if_neg]
    intro heq
    exact hbusy (hdiscovering.ready s (by rw [← heq]; exact hs)).2.1
  have hpatched (r : Stream U) (fields : Stream U → Stream U) (hr : j.streams.get r.id = some r)
      (hid : ∀ q, (fields q).id = q.id) (hfree : r.activeBatch = none) :
      (j.streams.modify r.id fields).get s.id = j.streams.get s.id := by
    rw [get_modify_some hid hr, if_neg]
    intro heq
    rw [heq, hr] at hs
    injection hs with hs
    subst hs
    exact hbusy hfree
  cases hchange with
  | idle | recommit | prepare | mark | finish | note => exact hkept rfl
  | discover value plan root payloadRef did horigin hdiscovering =>
    exact hkept (hdiscovered payloadRef hdiscovering)
  | commit value plan payloadRef did p hpin hstate hhome hdiscovering =>
    exact hkept (hdiscovered payloadRef hdiscovering)
  | claim selection ref token r selected hclaiming =>
    refine hkept ?_
    rw [hclaiming.get_stream, if_neg]
    intro heq
    rw [heq, hclaiming.stream] at hs
    injection hs with hs
    subst hs
    exact hbusy hclaiming.free
  | close b fields r selection items outcome generation hclosing =>
    by_cases heq : s.id = r.id
    · refine ⟨Stream.close generation r, ?_, ?_, .inr rfl⟩
      · rw [hclosing.get_stream, if_pos heq]
      · rw [heq, hclosing.stream] at hs
        injection hs with hs
        subst hs
        cases generation <;> rfl
    · exact hkept ((hclosing.get_stream s.id).trans (if_neg heq))
  | begin r p recorded hbeginning =>
    exact hkept (hpatched r _ hbeginning.stream (Stream.setState_id _) hbeginning.free)
  | retire r p hretirement =>
    have hfenced : r.state ≠ .active := by simp [hretirement.fenced]
    exact hkept (hpatched r _ hretirement.stream (Stream.setState_id _)
      ((hsound.streams r.id r hretirement.stream).clean hfenced).1)

theorem Change.holdsCursor (hsound : j.ledger.Sound h) (hj : j.Pinning) (hj' : j'.Pinning) :
    j.HoldsCursor j' := by
  intro s hs hbusy
  obtain ⟨s', hs', hroot, hcases⟩ := hchange.cursor hsound hs hbusy
  obtain hsame | hpins := hcases
  · obtain ⟨p, hp, hholds⟩ := hj'.cursor s.id s' hs'
    rw [hroot] at hp
    exact ⟨s', p, hs', hroot, hp, hholds.batch (by rw [hsame]; exact hbusy)⟩
  · obtain ⟨p, hp, hholds⟩ := hj.cursor s.id s hs
    exact ⟨s', p, hs', hroot, by rw [hpins]; exact hp, hholds.batch hbusy⟩

end

end Steps

section Runs

variable [LinearOrder P]

/-- What the hosts may ask of the journal: a discovery comes with its pin intent. -/
abbrev HostStep (U P : Type) [DecidableEq U] := { step : Step U P // step.bare = false }

def Db.hostStep (h : Hasch U P) (db : Db U P) (step : HostStep U P) : Db U P := db.step h step.val

/-- What a stream retains. -/
structure Stream.Retains (j : Journal U P) (s : Stream U) : Prop where
  exclusive : ∀ p, j.pins.get p.id = some p → p.stream = s.id → p.state.live → s.activeBatch = none
  cursor : s.state ≠ .retired → ∃ p, j.pins.get s.cursorRoot = some p ∧ p.stream = s.id ∧
    (p.state = .committed ∨ p.state = .retained)
  frozen : s.activeBatch ≠ none → ∃ p, j.pins.get s.cursorRoot = some p ∧ p.state = .retained
  clean : s.state ≠ .active → ∀ id i, j.items.get id = some i → i.stream = s.id →
    i.state ≠ .pending ∧ i.state ≠ .claimed

omit [LinearOrder P] in
theorem Journal.Pinning.retains {h : Hasch U P} {j : Journal U P} (hj : j.Pinning)
    (hsound : j.ledger.Sound h) {s : Stream U} (hs : j.streams.get s.id = some s) :
    s.Retains j where
  exclusive p hp hhome hlive := (hj.idle p.id p s hp hlive (by rw [hhome]; exact hs)).2
  cursor hstate := by
    obtain ⟨p, hp, hholds⟩ := hj.cursor s.id s hs
    refine ⟨p, hp, hholds.stream, ?_⟩
    obtain hcommitted | hretained | ⟨-, hretired⟩ := hholds.state
    · exact .inl hcommitted
    · exact .inr hretained
    · exact absurd hretired hstate
  frozen hbusy := by
    obtain ⟨p, hp, hholds⟩ := hj.cursor s.id s hs
    exact ⟨p, hp, hholds.batch hbusy⟩
  clean hstate := ((hsound.streams s.id s hs).clean hstate).2

omit [LinearOrder P] in
theorem pinning_init : (Journal.init : Journal U P).Pinning where
  key _ _ hp := nomatch hp
  one _ _ _ _ hp := nomatch hp
  idle _ _ _ hp := nomatch hp
  cursor _ _ hs := nomatch hs
  recorded _ _ _ hp := nomatch hp

theorem hostRun_pinning (h : Hasch U P) (db : Db U P) (hsound : db.ledger.Sound h)
    (hdb : db.toJournal.Pinning) (events : List (HostStep U P)) :
    (run (Db.hostStep h) db events).ledger.Sound h ∧
      (run (Db.hostStep h) db events).toJournal.Pinning :=
  run_preserves (fun db ↦ db.ledger.Sound h ∧ db.toJournal.Pinning)
    (fun db step hdb ↦ ⟨step_sound h db step.val hdb.1,
      (step_change h db step.val).pinning step.property hdb.1 hdb.2⟩) ⟨hsound, hdb⟩ events

theorem hostRun_fences (h : Hasch U P) (db : Db U P) (events : List (HostStep U P)) :
    db.toJournal.Advances (run (Db.hostStep h) db events).toJournal ∧
      db.toJournal.Fences (run (Db.hostStep h) db events).toJournal :=
  run_climbs (fun db db' ↦ db.toJournal.Advances db'.toJournal ∧ db.toJournal.Fences db'.toJournal)
    (fun _ ↦ True) (fun _ ↦ ⟨.refl _, .refl _⟩)
    (fun _ _ _ h₁ h₂ ↦ ⟨h₁.1.trans h₂.1, h₁.2.trans h₂.2 h₂.1⟩) (fun _ _ _ ↦ trivial)
    (fun db step _ ↦ ⟨step_advances h db step.val, (step_change h db step.val).fences⟩)
    trivial events

/-- At most one intent of a stream is live, and none beside an active batch; the pin of the cursor
retains the source; and a pin is released once, behind its successor or a retired stream. -/
theorem evidence_retained (h : Hasch U P) (schedules : Schedules.Db U) (world : World U)
    (events : List (HostStep U P)) :
    let db := run (Db.hostStep h) (Db.init schedules world) events
    (∀ p q, db.pins.get p.id = some p → db.pins.get q.id = some q → p.state.live →
        q.state.live → p.stream = q.stream → p = q) ∧
      (∀ s, db.streams.get s.id = some s → s.Retains db.toJournal) ∧
      (∀ step : HostStep U P, db.toJournal.Releases (db.hostStep h step).toJournal ∧
        db.toJournal.HoldsCursor (db.hostStep h step).toJournal) ∧
      ∀ further, let later := run (Db.hostStep h) db further
        (∀ id p, db.pins.get id = some p → p.state = .released →
          ∃ p', later.pins.get id = some p' ∧ p'.state = .released) ∧
        db.toJournal.Fences later.toJournal ∧
        ∀ s, later.streams.get s.id = some s → s.Retains later.toJournal := by
  intro db
  obtain ⟨hsound, hpinning⟩ := hostRun_pinning h (Db.init schedules world) Ledger.sound_init
    pinning_init events
  refine ⟨fun p q hp hq hlive hlive' hsame ↦ ?_, fun s hs ↦ hpinning.retains hsound hs,
    fun step ↦ ?_, fun further ↦ ?_⟩
  · have hid := hpinning.one p.id p q.id q hp hq hlive hlive' hsame
    rw [hid] at hp
    exact some.inj (hp.symm.trans hq)
  · have hchange := step_change h db step.val
    exact ⟨hchange.releases,
      hchange.holdsCursor hsound hpinning (hchange.pinning step.property hsound hpinning)⟩
  · obtain ⟨hadvances, hfences⟩ := hostRun_fences h db further
    obtain ⟨hsound', hpinning'⟩ := hostRun_pinning h db hsound hpinning further
    refine ⟨fun id p hp hreleased ↦ ?_, hfences, fun s hs ↦ hpinning'.retains hsound' hs⟩
    obtain ⟨p', hp', hstate⟩ := hadvances.pins id p hp
    refine ⟨p', hp', ?_⟩
    have hrank := hstate.state
    rw [hreleased] at hrank
    cases hp'state : p'.state with
    | released => rfl
    | creating | pinned | committed | retained =>
      rw [hp'state] at hrank
      exact absurd hrank (by decide)

end Runs

end Simmis.Knowledge
