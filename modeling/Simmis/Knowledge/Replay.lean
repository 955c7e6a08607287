import Simmis.Knowledge.Effects
import Simmis.Knowledge.Hashes

/-!
# Replays

No step takes back the marker of another: batches and discoveries stay, and batches, pins and
streams only move forward. A fragment that was applied finds its marker in every later state and
answers with no datoms.
-/

namespace Simmis.Knowledge

open Runs Table HasBatch Nat Pin

variable {U P : Type} [DecidableEq U] [LinearOrder P] {h : Hasch U P}

/-- What no step takes back from a batch. -/
structure Batch.Advances (b b' : Batch U) : Prop extends Batch.Keeps b b' where
  closed : b.state = .closed → b'.state = .closed

/-- What no step takes back from a stream. -/
structure Stream.Advances (s s' : Stream U) : Prop where
  state : s.state.rank ≤ s'.state.rank
  generation : s.batchGeneration ≤ s'.batchGeneration

/-- What no step takes back from a pin. -/
structure Pin.Advances (p p' : Pin U) : Prop where
  stream : p'.stream = p.stream
  state : p.state.rank ≤ p'.state.rank

/-- What no step takes back from the journal. -/
structure Journal.Advances (j j' : Journal U P) : Prop where
  streams : j.streams.Grows Stream.Advances j'.streams
  batches : j.batches.Grows Batch.Advances j'.batches
  pins : j.pins.Grows Pin.Advances j'.pins
  discoveries : j.discoveries.Grows (fun _ _ ↦ True) j'.discoveries

variable {b : Batch U}

section

omit [DecidableEq U]

theorem Batch.Keeps.refl (b : Batch U) : b.Keeps b := .of_eq rfl rfl rfl rfl rfl

theorem Batch.Keeps.trans {a c : Batch U} (h₁ : a.Keeps b) (h₂ : b.Keeps c) : a.Keeps c where
  stream := h₂.stream.trans h₁.stream
  frozen := h₁.frozen.trans h₂.frozen
  request := h₁.request.trans h₂.request
  occurrence := h₁.occurrence.trans h₂.occurrence
  disposition := h₁.disposition.trans h₂.disposition

theorem Batch.Advances.refl (b : Batch U) : b.Advances b := ⟨.refl b, fun hclosed ↦ hclosed⟩

theorem Batch.Advances.trans {a c : Batch U} (h₁ : a.Advances b) (h₂ : b.Advances c) :
    a.Advances c :=
  ⟨h₁.toKeeps.trans h₂.toKeeps, h₂.closed ∘ h₁.closed⟩

theorem Stream.Advances.refl (s : Stream U) : s.Advances s := ⟨le_refl _, le_refl _⟩

theorem Stream.Advances.trans {a b c : Stream U} (h₁ : a.Advances b) (h₂ : b.Advances c) :
    a.Advances c :=
  ⟨h₁.state.trans h₂.state, h₁.generation.trans h₂.generation⟩

theorem Pin.Advances.refl (p : Pin U) : p.Advances p := ⟨rfl, le_refl _⟩

theorem Pin.Advances.trans {a b c : Pin U} (h₁ : a.Advances b) (h₂ : b.Advances c) : a.Advances c :=
  ⟨h₂.stream.trans h₁.stream, h₁.state.trans h₂.state⟩

end

omit [LinearOrder P] in
theorem Journal.Advances.refl (j : Journal U P) : j.Advances j where
  streams := .refl Stream.Advances.refl _
  batches := .refl Batch.Advances.refl _
  pins := .refl Pin.Advances.refl _
  discoveries := .refl (fun _ ↦ trivial) _

omit [LinearOrder P] in
theorem Journal.Advances.trans {j₁ j₂ j₃ : Journal U P} (h₁ : j₁.Advances j₂)
    (h₂ : j₂.Advances j₃) : j₁.Advances j₃ where
  streams := h₁.streams.trans (fun _ _ _ hab hbc ↦ hab.trans hbc) h₂.streams
  batches := h₁.batches.trans (fun _ _ _ hab hbc ↦ hab.trans hbc) h₂.batches
  pins := h₁.pins.trans (fun _ _ _ hab hbc ↦ hab.trans hbc) h₂.pins
  discoveries := h₁.discoveries.trans (fun _ _ _ _ _ ↦ trivial) h₂.discoveries

theorem discovered_advances {j : Journal U P} {value : Descriptor U} {plan : Plan U P}
    {root payloadRef did : U} (hdiscovering : Discovering h j value plan root did) :
    j.Advances (j.discovered h value plan root payloadRef did) where
  streams := by
    refine grows_put Stream.Advances.refl fun s hs ↦ ?_
    have hget : j.streams.get value.id = some s := hs
    have hstate := (hdiscovering.ready s hget).1
    constructor
    · rw [hstate]
      exact zero_le _
    · simp [moveCursor, hget]
  batches := .refl Batch.Advances.refl _
  pins := .refl Pin.Advances.refl _
  discoveries := grows_put (fun _ ↦ trivial) fun _ _ ↦ trivial

section

omit [LinearOrder P]

variable {j : Journal U P}

variable {s : Stream U}

theorem claimed_advances {selection : Selection U P} {ref token : U}
    {selected : List (Item U P)} (hclaiming : Claiming h j selection s selected) :
    j.Advances (j.claimed selection ref token selected) where
  streams := grows_modify Stream.Advances.refl (fun _ ↦ rfl) fun _ _ ↦ ⟨le_refl _, le_refl _⟩
  batches := by
    refine grows_put Batch.Advances.refl fun b hb ↦ ?_
    have hget : j.batches.get selection.id = some b := hb
    rw [hclaiming.fresh] at hget
    cases hget
  pins := .refl Pin.Advances.refl _
  discoveries := .refl (fun _ ↦ trivial) _

omit [DecidableEq U] in
theorem Stream.close_id (generation : Option ℕ) (s : Stream U) :
    (Stream.close generation s).id = s.id := by
  cases generation <;> rfl

/-- A closing step takes no generation, or the next one. -/
theorem Closing.advances_stream {fields : Batch U → Batch U}
    {selection : SelectionFacts U P} {items : List (Item U P)} {outcome : Outcome}
    {generation : Option ℕ} (hclosing : Closing h j b fields s selection items outcome generation) :
    s.Advances (Stream.close generation s) := by
  have hgenerates := hclosing.generates
  unfold Outcome.Generates at hgenerates
  split at hgenerates
  · obtain ⟨rfl, rfl⟩ := hgenerates
    exact ⟨le_refl _, le_succ _⟩
  · subst hgenerates
    exact ⟨le_refl _, le_refl _⟩

theorem closed_advances {fields : Batch U → Batch U}
    {selection : SelectionFacts U P} {items : List (Item U P)} {outcome : Outcome}
    {generation : Option ℕ} (hclosing : Closing h j b fields s selection items outcome generation) :
    j.Advances (j.closed b fields s items outcome generation) where
  streams := by
    refine grows_modify Stream.Advances.refl (Stream.close_id generation) fun r hr ↦ ?_
    rw [hclosing.stream] at hr
    injection hr with hr
    subst hr
    exact hclosing.advances_stream
  batches := by
    refine grows_modify Batch.Advances.refl hclosing.id fun r hr ↦ ?_
    rw [hclosing.batch] at hr
    injection hr with hr
    subst hr
    exact ⟨hclosing.keeps, fun _ ↦ hclosing.after⟩
  pins := .refl Pin.Advances.refl _
  discoveries := .refl (fun _ ↦ trivial) _

/-- Patching one pin that only moves forward. -/
theorem pins_advance {pins : Table (id (U := U))} {p : Pin U} {fields : Pin U → Pin U}
    (hp : pins.get p.id = some p) (hid : ∀ r, (fields r).id = r.id)
    (hfields : p.Advances (fields p)) : pins.Grows Pin.Advances (pins.modify p.id fields) := by
  refine grows_modify Pin.Advances.refl hid fun r hr ↦ ?_
  rw [hp] at hr
  injection hr with hr
  subst hr
  exact hfields

theorem Journal.Advances.with_pins {j' : Journal U P} (hj : j.Advances j')
    {pins : Table (id (U := U))} (hpins : j.pins.Grows Pin.Advances pins) :
    j.Advances { j' with pins := pins } :=
  { hj with pins := hpins }

theorem finished_advances {p : Pin U} {event : Discovery U}
    (hfinishing : Finishing j p event s) : j.Advances (j.finished p event) where
  streams := .refl Stream.Advances.refl _
  batches := .refl Batch.Advances.refl _
  pins := by
    intro id q hq
    rw [hfinishing.get_pin]
    split
    · next hid =>
      subst hid
      rw [hfinishing.pin] at hq
      injection hq with hq
      subst hq
      exact ⟨_, rfl, rfl, by rw [hfinishing.state]; exact le_succ _⟩
    · split
      · next hold =>
        obtain ⟨old, hget, hstate, -⟩ := hfinishing.old id hold
        rw [hq] at hget
        injection hget with hget
        subst hget
        exact ⟨q.release, by rw [hq]; rfl, rfl, by rw [hstate]; exact le_succ _⟩
      · exact ⟨q, hq, .refl q⟩
  discoveries := grows_modify (fun _ ↦ trivial) Discovery.cleanUp_id fun _ _ ↦ trivial

end

variable {step : Step U P}

theorem Change.advances {j j' : Journal U P} {moved : Option (U × Plan U P)}
    (hchange : Change h step j moved j') : j.Advances j' := by
  cases hchange with
  | idle => exact .refl j
  | discover value plan root payloadRef did horigin hdiscovering =>
    exact discovered_advances hdiscovering
  | commit value plan payloadRef did p hpin hstate hhome hdiscovering =>
    exact (discovered_advances hdiscovering).with_pins
      (pins_advance hpin (commit_id did) ⟨rfl, by rw [hstate]; exact le_succ _⟩)
  | recommit p did hpin hstate hevent =>
    exact (Journal.Advances.refl j).with_pins
      (pins_advance hpin (commit_id did) ⟨rfl, by rw [hstate]; exact le_succ _⟩)
  | prepare p hnew =>
    refine (Journal.Advances.refl j).with_pins
      (grows_put Pin.Advances.refl fun q hq ↦ ?_)
    rw [hnew] at hq
    cases hq
  | mark p hpin hstate =>
    exact (Journal.Advances.refl j).with_pins
      (pins_advance hpin mark_id ⟨rfl, by rw [hstate]; exact le_succ _⟩)
  | finish p event s hfinishing => exact finished_advances hfinishing
  | claim selection ref token s selected hclaiming => exact claimed_advances hclaiming
  | note b fields hb hid hnoted =>
    refine ⟨.refl Stream.Advances.refl _, ?_, .refl Pin.Advances.refl _, .refl (fun _ ↦ trivial) _⟩
    refine grows_modify Batch.Advances.refl hid fun r hr ↦ ?_
    rw [hb] at hr
    injection hr with hr
    subst hr
    exact ⟨hnoted.toKeeps, fun hclosed ↦ absurd hclosed hnoted.before⟩
  | close b fields s selection items outcome generation hclosing => exact closed_advances hclosing
  | begin s p recorded hbeginning =>
    refine ⟨?_, .refl Batch.Advances.refl _,
      pins_advance hbeginning.pin (recordAudit_id recorded) ⟨rfl, le_refl _⟩,
      .refl (fun _ ↦ trivial) _⟩
    refine grows_modify Stream.Advances.refl (Stream.setState_id _) fun r hr ↦ ?_
    rw [hbeginning.stream] at hr
    injection hr with hr
    subst hr
    exact ⟨by rw [hbeginning.admitted]; exact le_succ _, le_refl _⟩
  | retire s p hretirement =>
    refine ⟨?_, .refl Batch.Advances.refl _,
      pins_advance hretirement.pin release_id ⟨rfl, by rw [hretirement.retained]; exact le_succ _⟩,
      .refl (fun _ ↦ trivial) _⟩
    refine grows_modify Stream.Advances.refl (Stream.setState_id _) fun r hr ↦ ?_
    rw [hretirement.stream] at hr
    injection hr with hr
    subst hr
    exact ⟨by rw [hretirement.fenced]; exact le_succ _, le_refl _⟩

theorem step_advances (h : Hasch U P) (db : Db U P) (step : Step U P) :
    db.toJournal.Advances (db.step h step).toJournal :=
  (step_change h db step).advances

/-- No run takes anything back. -/
theorem run_advances (h : Hasch U P) (db : Db U P) (events : List (Step U P)) :
    db.toJournal.Advances (run (Db.step h) db events).toJournal :=
  run_climbs (fun db db' ↦ db.toJournal.Advances db'.toJournal)
    (fun _ ↦ True) (fun db ↦ .refl db.toJournal) (fun _ _ _ ↦ Journal.Advances.trans)
    (fun _ _ _ ↦ trivial) (fun db step _ ↦ step_advances h db step) trivial events

section

omit [LinearOrder P]

variable {j' j : Journal U P}

section

variable (hj : j.Advances j')
include hj

variable {id : U}

theorem HasBatch.mono {marker : Batch U → Prop}
    (hmarker : ∀ b b', b.Advances b' → marker b → marker b') (hbatch : j.HasBatch id marker) :
    j'.HasBatch id marker := by
  obtain ⟨b, hb, hb'⟩ := hbatch
  obtain ⟨b', hget, hadvances⟩ := hj.batches id b hb
  exact ⟨b', hget, hmarker b b' hadvances hb'⟩

theorem Pinned.mono {state : PinState} (hpinned : j.Pinned id state) : j'.Pinned id state := by
  obtain ⟨p, hp, hrank⟩ := hpinned
  obtain ⟨p', hp', hadvances⟩ := hj.pins id p hp
  exact ⟨p', hp', hrank.trans hadvances.state⟩

theorem Reached.mono {state : StreamState} (hreached : j.Reached id state) :
    j'.Reached id state := by
  obtain ⟨s, hs, hrank⟩ := hreached
  obtain ⟨s', hs', hadvances⟩ := hj.streams id s hs
  exact ⟨s', hs', hrank.trans hadvances.state⟩

theorem discovered_mono {did : U} (hevent : (j.discoveries.get did).isSome) :
    (j'.discoveries.get did).isSome := by
  obtain ⟨event, hevent⟩ := Option.isSome_iff_exists.mp hevent
  obtain ⟨event', hevent', -⟩ := hj.discoveries did event hevent
  rw [hevent']
  rfl

/-- A marker stays. -/
theorem Step.Applied.mono (happlied : step.Applied h j) : step.Applied h j' := by
  have hclosed (id : U) (hbatch : j.HasBatch id fun b ↦ b.state = .closed) :
      j'.HasBatch id fun b ↦ b.state = .closed :=
    HasBatch.mono hj (fun _ _ hadvances ↦ hadvances.closed) hbatch
  cases step with
  | discovery => exact discovered_mono hj happlied
  | prepare | markPinned | finishPin => exact Pinned.mono hj happlied
  | pinDiscovery => exact ⟨Pinned.mono hj happlied.1, discovered_mono hj happlied.2⟩
  | claim => exact HasBatch.mono hj (fun _ _ _ _ ↦ trivial) happlied
  | freeze => exact HasBatch.mono hj (fun _ _ hadvances ↦ hadvances.frozen.isSome) happlied
  | request => exact HasBatch.mono hj (fun _ _ hadvances ↦ hadvances.request.isSome) happlied
  | retention => exact HasBatch.mono hj (fun _ _ hadvances ↦ hadvances.occurrence.isSome) happlied
  | filing => exact HasBatch.mono hj (fun _ _ hadvances ↦ hadvances.disposition.isSome) happlied
  | acceptance | dismissal | abandon | abandonCapturing | requeueReady | requeueCapturing
  | requeue => exact hclosed _ happlied
  | begin | finishRetirement => exact Reached.mono hj happlied
  | elsewhere => trivial

end

end

/-- A fragment that finds its marker answers with no datoms. -/
theorem Step.Applied.nil {db : Db U P} {writes : Tx U P}
    (happlied : step.Applied h db.toJournal) (hok : step.tx h db = .ok writes) : writes = [] := by
  obtain hreplay | heffect := step_effect hok
  · exact hreplay.nil
  · exact absurd happlied heffect.fresh

/-- An accepted fragment has left its marker, save a superseded `prepare-tx`. -/
theorem applied_of_ok {db : Db U P} {writes : Tx U P}
    (hok : step.tx h db = .ok writes) (hprepare : step.prepares → writes ≠ []) :
    step.Applied h (db.step h step).toJournal := by
  rw [step_eq_apply hok]
  obtain hreplay | heffect := step_effect hok
  · have hnil := hreplay.nil
    subst hnil
    refine hreplay.applied ?_
    rw [Bool.eq_false_iff]
    exact fun hprepares ↦ hprepare hprepares rfl
  · exact heffect.applied

/-- A fragment that was applied is never applied again, and a batch that was closed stays closed. -/
theorem replay_writes_nothing (h : Hasch U P) (db : Db U P) (step : Step U P) (writes : Tx U P)
    (hok : step.tx h db = .ok writes) (hprepare : step.prepares → writes ≠ [])
    (events : List (Step U P)) :
    let later := run (Db.step h) (db.step h step) events
    (∀ again, step.tx h later = .ok again → again = []) ∧
      ∀ id, db.HasBatch id (fun b ↦ b.state = .closed) →
        later.HasBatch id fun b ↦ b.state = .closed := by
  intro later
  have hadvances : (db.step h step).toJournal.Advances later.toJournal := run_advances h _ events
  have happlied : step.Applied h later.toJournal := (applied_of_ok hok hprepare).mono hadvances
  refine ⟨fun again hagain ↦ happlied.nil hagain, fun id hclosed ↦ ?_⟩
  exact mono ((step_advances h db step).trans hadvances)
    (fun _ _ hadvances ↦ hadvances.closed) hclosed

def exampleFacts : DescriptorFacts (List ℤ) := ⟨[1], [2], [3], [4], [5], [6]⟩

def exampleFile : File (List ℤ) := ⟨⟨[11], 3, 33188⟩, .trigger⟩

def examplePlan : Plan (List ℤ) ℕ :=
  ⟨none, ⟨⟨[7], [8], "yggdrasil", "main", "db", [9]⟩, [10], 1, 1⟩,
    [⟨0, .added, none, some exampleFile⟩]⟩

def exampleDiscovery : Step (List ℤ) ℕ :=
  .discovery ⟨exampleFacts, Hasch.sequences.descriptor exampleFacts⟩ none examplePlan [12] [13]

/-- A discovery is repeated, also after the other journals have moved on. -/
theorem replay_writes_nothing_example :
    let later := run (Db.step Hasch.sequences)
      (Db.step Hasch.sequences (Db.init .init World.empty) exampleDiscovery)
      [exampleDiscovery, .elsewhere .init World.empty]
    (∀ again, exampleDiscovery.tx Hasch.sequences later = .ok again → again = []) ∧
      ∀ id, (Db.init .init World.empty : Db (List ℤ) ℕ).HasBatch id (fun b ↦ b.state = .closed) →
        later.HasBatch id fun b ↦ b.state = .closed :=
  replay_writes_nothing Hasch.sequences (Db.init .init World.empty) exampleDiscovery _ rfl nofun
    [exampleDiscovery, .elsewhere .init World.empty]

end Simmis.Knowledge
