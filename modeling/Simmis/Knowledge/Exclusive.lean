import Simmis.Knowledge.SoundClosing
import Simmis.Knowledge.SoundDiscovery

/-!
# Exclusive batches

Ownership holds in every reachable state: a stream has at most one open batch, the one that it
names, and a closing step moves all of its items together.
-/

namespace Simmis.Knowledge

open Runs Table

variable {U P : Type} [DecidableEq U] [LinearOrder P] {h : Hasch U P}

omit [LinearOrder P] in
/-- A patch that neither opens nor closes a batch. -/
theorem noted_sound {j : Journal U P} {b : Batch U} {fields : Batch U → Batch U}
    (hb : j.batches.get b.id = some b) (hid : ∀ r, (fields r).id = r.id)
    (hnoted : b.Noted (fields b)) (hj : j.ledger.Sound h) :
    ({ j with batches := j.batches.modify b.id fields } : Journal U P).ledger.Sound h := by
  have hget (id : U) : (j.batches.modify b.id fields).get id =
      if id = b.id then some (fields b) else j.batches.get id := by
    rw [get_modify hid, hb]
    rfl
  have hkeeps (id : U) (c : Batch U) (hc : j.batches.get id = some c) :
      ∃ c', (j.batches.modify b.id fields).get id = some c' ∧ c'.stream = c.stream ∧
        (c'.state ≠ .closed ↔ c.state ≠ .closed) := by
    rw [hget]
    split
    · next heq =>
      rw [heq, hb] at hc
      injection hc with hc
      subst hc
      exact ⟨_, rfl, hnoted.stream, iff_of_true hnoted.after hnoted.before⟩
    · exact ⟨c, hc, rfl, Iff.rfl⟩
  refine ⟨fun id i hi ↦ ?_, fun id s hs ↦ ?_, fun id c hc ↦ ?_, hj.orders⟩
  · obtain ⟨hidentity, hindex, hhome, hclaimed, hunowned, howned⟩ := hj.items id i hi
    refine ⟨hidentity, hindex, hhome, hclaimed, hunowned, fun bid hbid ↦ ?_⟩
    obtain ⟨c, hc, hstream, hstate⟩ := howned bid hbid
    obtain ⟨c', hc', hstream', hstate'⟩ := hkeeps bid c hc
    exact ⟨c', hc', hstream'.trans hstream, fun hopen ↦ hstate (hstate'.mp hopen)⟩
  · obtain ⟨hrunning, hclean⟩ := hj.streams id s hs
    refine ⟨fun bid hbid ↦ ?_, hclean⟩
    obtain ⟨c, hc, hstream, hstate⟩ := hrunning bid hbid
    obtain ⟨c', hc', hstream', hstate'⟩ := hkeeps bid c hc
    exact ⟨c', hc', hstream'.trans hstream, hstate'.mpr hstate⟩
  · replace hc : (j.batches.modify b.id fields).get id = some c := hc
    rw [hget] at hc
    split at hc
    · injection hc with hc
      subst hc
      obtain ⟨⟨s, hs, hactive⟩, facts, hhash, hnonempty, hopen, -⟩ := hj.batches b.id b hb
      refine ⟨⟨s, by rw [hnoted.stream]; exact hs, ?_⟩, facts, by rw [hid]; exact hhash, hnonempty,
        fun _ ↦ ?_, fun hclosed ↦ absurd hclosed hnoted.after⟩
      · rw [hid]
        exact ⟨fun _ ↦ hactive.mp hnoted.before, fun _ ↦ hnoted.after⟩
      · rw [hid]
        exact ⟨(hopen hnoted.before).stored, (hopen hnoted.before).listed⟩
    · obtain ⟨hhome, facts, hhash, hnonempty, hopen, hclosed⟩ := hj.batches id c hc
      exact ⟨hhome, facts, hhash, hnonempty,
        fun hstate ↦ ⟨(hopen hstate).stored, (hopen hstate).listed⟩, hclosed⟩

omit [LinearOrder P] in
/-- A stream without evidence in flight moves to another state. -/
theorem setState_sound {j : Journal U P} {s : Stream U} {state : StreamState}
    (hs : j.streams.get s.id = some s) (hfree : s.activeBatch = none)
    (hclean : ∀ id i, j.items.get id = some i → i.stream = s.id →
      i.state ≠ .pending ∧ i.state ≠ .claimed) (hj : j.ledger.Sound h) :
    ({ j with streams := j.streams.modify s.id (Stream.setState state) } :
      Journal U P).ledger.Sound h := by
  have hget (id : U) : (j.streams.modify s.id (Stream.setState state)).get id =
      if id = s.id then some (s.setState state) else j.streams.get id := by
    rw [get_modify (Stream.setState_id state), hs]
    rfl
  have hkeeps (id : U) (r : Stream U) (hr : j.streams.get id = some r) :
      ∃ r', (j.streams.modify s.id (Stream.setState state)).get id = some r' ∧
        r'.nextOrder = r.nextOrder ∧ r'.activeBatch = r.activeBatch ∧
        r'.batchGeneration = r.batchGeneration := by
    rw [hget]
    split
    · next heq =>
      rw [heq, hs] at hr
      injection hr with hr
      subst hr
      exact ⟨_, rfl, rfl, rfl, rfl⟩
    · exact ⟨r, hr, rfl, rfl, rfl⟩
  refine ⟨fun id i hi ↦ ?_, fun id r hr ↦ ?_, fun id c hc ↦ ?_, hj.orders⟩
  · obtain ⟨hidentity, hindex, ⟨r, hr, horder⟩, hclaimed, hunowned, howned⟩ := hj.items id i hi
    obtain ⟨r', hr', hnext, hactive, -⟩ := hkeeps i.stream r hr
    refine ⟨hidentity, hindex, ⟨r', hr', by rw [hnext]; exact horder⟩, fun hstate ↦ ?_, hunowned,
      howned⟩
    obtain ⟨q, bid, hq, hrunning, hbid⟩ := hclaimed hstate
    rw [hr] at hq
    injection hq with hq
    subst hq
    exact ⟨r', bid, hr', hactive.trans hrunning, hbid⟩
  · replace hr : (j.streams.modify s.id (Stream.setState state)).get id = some r := hr
    rw [hget] at hr
    split at hr
    · injection hr with hr
      subst hr
      refine ⟨fun bid hbid ↦ ?_, fun _ ↦ ⟨hfree, hclean⟩⟩
      rw [show s.activeBatch = some bid from hbid] at hfree
      cases hfree
    · obtain ⟨hrunning, hclean⟩ := hj.streams id r hr
      exact ⟨hrunning, hclean⟩
  · obtain ⟨⟨r, hr, hactive⟩, facts, hhash, hnonempty, hopen, hclosed⟩ := hj.batches id c hc
    obtain ⟨r', hr', -, hactive', -⟩ := hkeeps c.stream r hr
    refine ⟨⟨r', hr', by rw [hactive']; exact hactive⟩, facts, hhash, hnonempty,
      fun hstate ↦ ⟨(hopen hstate).stored, (hopen hstate).listed⟩, fun hstate ↦ ?_⟩
    obtain ⟨q, hq, hlt⟩ | hitems := hclosed hstate
    · obtain ⟨q', hq', -, -, hgeneration⟩ := hkeeps _ q hq
      exact .inl ⟨q', hq', by rw [hgeneration]; exact hlt⟩
    · exact .inr hitems

theorem Change.sound {step : Step U P} {j j' : Journal U P} {moved : Option (U × Plan U P)}
    (hchange : Change h step j moved j') (hj : j.ledger.Sound h) : j'.ledger.Sound h := by
  cases hchange with
  | idle => exact hj
  | discover value plan root payloadRef did horigin hdiscovering =>
    exact discovered_sound payloadRef hdiscovering hj
  | commit value plan payloadRef did p hpin hstate hhome hdiscovering =>
    exact discovered_sound payloadRef hdiscovering hj
  | recommit => exact hj
  | prepare => exact hj
  | mark => exact hj
  | finish => exact hj
  | claim selection ref token s selected hclaiming => exact claimed_sound hclaiming hj
  | note b fields hb hid hnoted => exact noted_sound hb hid hnoted hj
  | close b fields s selection items outcome generation hclosing => exact closed_sound hclosing hj
  | begin s p recorded hbeginning =>
    exact setState_sound hbeginning.stream hbeginning.free hbeginning.clean hj
  | retire s p hretirement =>
    have hfenced : s.state ≠ .active := by simp [hretirement.fenced]
    obtain ⟨hfree, hclean⟩ := (hj.streams s.id s hretirement.stream).clean hfenced
    exact setState_sound hretirement.stream hfree hclean hj

theorem step_sound (h : Hasch U P) (db : Db U P) (step : Step U P) (hdb : db.ledger.Sound h) :
    (db.step h step).ledger.Sound h :=
  (step_change h db step).sound hdb

theorem run_sound (h : Hasch U P) (schedules : Schedules.Db U) (world : World U)
    (events : List (Step U P)) :
    (run (Db.step h) (Db.init schedules world) events).ledger.Sound h :=
  run_preserves (fun db ↦ db.ledger.Sound h)
    (fun db step hdb ↦ step_sound h db step hdb) Ledger.sound_init events

/-- The open batch of a stream is the one it names, and owns its claimed items. -/
structure Stream.Exclusive (h : Hasch U P) (db : Db U P) (s : Stream U) : Prop where
  one : ∀ b b', db.batches.get b.id = some b → db.batches.get b'.id = some b' →
    b.stream = s.id → b'.stream = s.id → b.state ≠ .closed → b'.state ≠ .closed → b = b'
  named : ∀ id, s.activeBatch = some id ↔
    ∃ b, db.batches.get id = some b ∧ b.stream = s.id ∧ b.state ≠ .closed
  claimed : ∀ id i, db.items.get id = some i → i.stream = s.id →
    (i.state = .claimed ↔ ∃ b selection, db.batches.get b.id = some b ∧ b.state ≠ .closed ∧
      s.activeBatch = some b.id ∧ i.batch = some b.id ∧ h.selection selection = b.id ∧
      i.portable ∈ selection.items)
  pending : ∀ id i, db.items.get id = some i → i.stream = s.id →
    (i.state = .pending ↔ i.pendingStream.isSome)

/-- A batch that closes takes all of its items along, to where its outcome says. -/
def Db.ClosesTogether (db db' : Db U P) : Prop :=
  ∀ id b b', db.batches.get id = some b → b.state ≠ .closed → db'.batches.get id = some b' →
    b'.state = .closed → ∃ outcome, b'.outcome = some outcome ∧
      ∀ k i, db.items.get k = some i → i.batch = some id →
        db'.items.get k = some (outcome.settle b.stream i)

omit [LinearOrder P] in
theorem Ledger.Sound.exclusive {db : Db U P} (hdb : db.ledger.Sound h) {s : Stream U}
    (hs : db.streams.get s.id = some s) : s.Exclusive h db where
  one := by
    intro b b' hb hb' hstream hstream' hopen hopen'
    have hactive (c : Batch U) (hc : db.batches.get c.id = some c) (hstream : c.stream = s.id)
        (hopen : c.state ≠ .closed) : s.activeBatch = some c.id := by
      obtain ⟨r, hr, hiff⟩ := (hdb.batches c.id c hc).home
      rw [hstream, show db.ledger.streams.get s.id = some s from hs] at hr
      injection hr with hr
      subst hr
      exact hiff.mp hopen
    have hid := (hactive b hb hstream hopen).symm.trans (hactive b' hb' hstream' hopen')
    injection hid with hid
    rw [hid, hb'] at hb
    injection hb with hb
    exact hb.symm
  named := by
    intro id
    constructor
    · exact (hdb.streams s.id s hs).running id
    · rintro ⟨b, hb, hstream, hopen⟩
      obtain ⟨r, hr, hiff⟩ := (hdb.batches id b hb).home
      rw [hstream, show db.ledger.streams.get s.id = some s from hs] at hr
      injection hr with hr
      subst hr
      rw [hiff.mp hopen, key_of_get hb]
  claimed := by
    intro id i hi hhome
    have hsound := hdb.items id i hi
    constructor
    · intro hstate
      obtain ⟨r, bid, hr, hactive, hbatch⟩ := hsound.claimed hstate
      rw [hhome, show db.ledger.streams.get s.id = some s from hs] at hr
      injection hr with hr
      subst hr
      obtain ⟨b, hb, -, hopen⟩ := (hdb.streams s.id s hs).running bid hactive
      have hkey := key_of_get hb
      subst hkey
      obtain ⟨-, facts, hhash, -, howned, -⟩ := hdb.batches b.id b hb
      exact ⟨b, facts, hb, hopen, hactive, hbatch, hhash, (howned hopen).listed id i hi hbatch⟩
    · rintro ⟨b, facts, hb, hopen, -, hbatch, -⟩
      obtain ⟨c, hc, -, hclaimed⟩ := hsound.owned b.id hbatch
      rw [show db.ledger.batches.get b.id = some b from hb] at hc
      injection hc with hc
      subst hc
      exact hclaimed hopen
  pending := by
    intro id i hi _
    rw [(hdb.items id i hi).index]
    split
    · next hstate => exact iff_of_true hstate rfl
    · next hstate => exact iff_of_false hstate (by simp)

/-- A change that keeps the batches closes none. -/
theorem Change.closesTogether {step : Step U P} {db db' : Db U P} {moved : Option (U × Plan U P)}
    (hchange : Change h step db.toJournal moved db'.toJournal) : db.ClosesTogether db' := by
  generalize hj' : db'.toJournal = j' at hchange
  have hkept (hbatches : j'.batches = db.batches) : db.ClosesTogether db' := by
    intro id b b' hb hopen hb' hclosed
    rw [← hj'] at hbatches
    rw [hbatches, hb] at hb'
    injection hb' with hb'
    subst hb'
    exact absurd hclosed hopen
  cases hchange with
  | idle | discover | commit | recommit | prepare | mark | finish | begin
  | retire => exact hkept rfl
  | claim selection ref token s selected hclaiming =>
    intro id b b' hb hopen hb' hclosed
    rw [hj', get_batch_claimed] at hb'
    split at hb'
    · injection hb' with hb'
      subst hb'
      cases hclosed
    · rw [hb] at hb'
      injection hb' with hb'
      subst hb'
      exact absurd hclosed hopen
  | note c fields hc hid hnoted =>
    intro id b b' hb hopen hb' hclosed
    rw [hj'] at hb'
    change (db.batches.modify c.id fields).get id = some b' at hb'
    rw [get_modify hid, hc] at hb'
    split at hb'
    · injection hb' with hb'
      subst hb'
      exact absurd hclosed hnoted.after
    · rw [hb] at hb'
      injection hb' with hb'
      subst hb'
      exact absurd hclosed hopen
  | close c fields s selection items outcome generation hclosing =>
    intro id b b' hb hopen hb' hclosed
    rw [hj', hclosing.get_batch] at hb'
    split at hb'
    · next heq =>
      subst heq
      injection hb' with hb'
      subst hb'
      rw [hclosing.batch] at hb
      injection hb with hb
      subst hb
      refine ⟨outcome, hclosing.recorded, fun k i hi hbatch ↦ ?_⟩
      rw [hj', hclosing.get_item, hi, Option.map_some, if_pos hbatch, hclosing.home]
    · rw [hb] at hb'
      injection hb' with hb'
      subst hb'
      exact absurd hclosed hopen

/-- In every reachable state the batches of a stream are exclusive, and a batch closes with all its
items. -/
theorem batches_exclusive (h : Hasch U P) (schedules : Schedules.Db U) (world : World U)
    (events : List (Step U P)) :
    let db := run (Db.step h) (Db.init schedules world) events
    (∀ s, db.streams.get s.id = some s → s.Exclusive h db) ∧
      ∀ step, db.ClosesTogether (db.step h step) := by
  intro db
  have hdb : db.ledger.Sound h := run_sound h schedules world events
  exact ⟨fun s hs ↦ hdb.exclusive hs, fun step ↦ (step_change h db step).closesTogether⟩

end Simmis.Knowledge
