import Simmis.Knowledge.Changes

/-!
# What each fragment does

For each fragment, what an accepted application has checked and written; otherwise it is a replay
and writes nothing.
-/

namespace Simmis.Knowledge

open List Option PinState Table Kept Batch Journal Selection

variable {U P : Type}

variable {u : Unit}

theorem admissible_eq_ok {row : Option (Stream U)} :
    admissible row = .ok u ↔ ∀ s ∈ row, s.state = .active := by
  exact require_eq_ok

theorem Pin.mark_id (p : Pin U) : p.mark.id = p.id := rfl
theorem Pin.commit_id (did : U) (p : Pin U) : (p.commit did).id = p.id := rfl
theorem Pin.retain_id (p : Pin U) : p.retain.id = p.id := rfl
theorem Pin.release_id (p : Pin U) : p.release.id = p.id := rfl
theorem Pin.recordAudit_id (audit : Audit U) (p : Pin U) : (p.recordAudit audit).id = p.id := rfl
theorem Discovery.cleanUp_id (d : Discovery U) : d.cleanUp.id = d.id := rfl
theorem Stream.setState_id (state : StreamState) (s : Stream U) : (s.setState state).id = s.id := rfl

variable [DecidableEq U] {h : Hasch U P}

variable {j : Journal U P}

variable {ref : U} {writes : Tx U P}

theorem prepareTx_eq_ok {value : Descriptor U} {expected : Option (Stream U)}
    {payloadId root token : U}
    (hok : prepareTx h j value expected payloadId ref root token = .ok writes) :
    writes = [] ∨ ∃ p, writes = [.pin p] ∧ p.id = root ∧ j.pins.get p.id = none ∧
      active j p.stream = none ∧ p.state = .creating ∧ p.activeStream = some p.stream ∧
      p.discovery = none ∧
      ∀ s ∈ j.streams.get p.stream, s.state = .active ∧ s.activeBatch = none := by
  unfold prepareTx at hok
  simp only [bind_eq_ok, require_eq_ok, admissible_eq_ok, exists_const] at hok
  obtain ⟨-, rfl, hactive, hbatch, -, -, hok⟩ := hok
  split at hok
  · rw [require_bind_eq_ok] at hok
    injection hok.2 with hwrites
    exact .inl hwrites.symm
  · next hfree =>
    rw [require_bind_eq_ok] at hok
    injection hok.2 with hwrites
    refine .inr ⟨_, hwrites.symm, rfl, hok.1, hfree, rfl, rfl, rfl, fun s hs ↦ ⟨hactive s hs, ?_⟩⟩
    rw [mem_def] at hs
    simpa [hs] using hbatch

theorem markPinnedTx_eq_ok {expected : Pin U} (hok : markPinnedTx j expected = .ok writes) :
    writes = [] ∧ j.Pinned expected.id .pinned ∨
      j.pins.get expected.id = some expected ∧ expected.state = .creating ∧
      writes = [.patchPin expected.id Pin.mark] := by
  unfold markPinnedTx at hok
  split at hok
  · cases hok
  · next current hcurrent =>
    split at hok
    · next heq =>
      subst heq
      split at hok
      · next hstate =>
        injection hok with hwrites
        exact .inr ⟨hcurrent, hstate, hwrites.symm⟩
      · next hstate =>
        injection hok with hwrites
        exact .inl ⟨hwrites.symm, current, hcurrent, by simp [hstate]⟩
      · cases hok
    · cases hok

theorem finishPinTx_eq_ok {expected : Pin U} (hok : finishPinTx j expected = .ok writes) :
    writes = [] ∧ j.Pinned expected.id .retained ∨ ∃ event s, Finishing j expected event s ∧
      j.apply writes = j.finished expected event := by
  unfold finishPinTx at hok
  split at hok
  · cases hok
  · next current hcurrent =>
    dsimp only at hok
    split at hok
    · next hreplay =>
      injection hok with hwrites
      refine .inl ⟨hwrites.symm, current, hcurrent, ?_⟩
      obtain hstate | hstate := hreplay.1 <;> simp [hstate, rank]
    · rw [require_bind_eq_ok] at hok
      obtain ⟨rfl, hok⟩ := hok
      split at hok
      · next event s hevent hs =>
        rw [require_bind_eq_ok] at hok
        obtain ⟨⟨hstate, hcursor, hafter, -, hold⟩, hok⟩ := hok
        injection hok with hwrites
        obtain ⟨did, hdid, hget⟩ := bind_eq_some_iff.mp hevent
        have hkey := key_of_get hget
        have hskey := key_of_get hs
        refine .inr ⟨event, s, ⟨hcurrent, by rw [hdid, ← hkey], by rw [← hkey] at hget; exact hget,
          by rw [← hskey] at hs; exact hs, hskey.symm, hstate, hcursor, hafter, ?_⟩, ?_⟩
        · intro root hroot
          rw [hevent] at hold
          have hany := hold root hroot
          rw [Option.any_eq_true] at hany
          obtain ⟨old, hget, hfacts⟩ := hany
          simp only [decide_eq_true_eq] at hfacts
          exact ⟨old, hget, hfacts.1, hfacts.2.symm⟩
        · subst hwrites
          rw [hevent, bind_some]
          cases hbefore : event.beforeRoot <;> simp only [finished, hbefore] <;> rfl
      · cases hok

variable [LinearOrder P]

variable {plan : Plan U P}

theorem validatePlan_eq_ok (hok : validatePlan h plan = .ok u) :
    (plan.changes.map (·.path)).Pairwise (· < ·) := by
  unfold validatePlan at hok
  simp only [bind_eq_ok, require_eq_ok, exists_const] at hok
  obtain ⟨-, -, -, -, -, hordered, -⟩ := hok
  exact hordered

/-- A discovery replays, or moves the cursor of its stream; it reads and writes no pin. -/
theorem discoveryTx_eq_ok {value : Descriptor U} {expected : Option (Stream U)}
    {root payloadRef : U} (hok : discoveryTx h j value expected plan root payloadRef = .ok writes) :
    (j.discoveries.get (discoveryId h value expected plan root)).isSome ∧ writes = [] ∨
      Discovering h j value plan root (discoveryId h value expected plan root) ∧
        ∀ pins, apply { j with pins := pins } writes =
          { j.discovered h value plan root payloadRef
              (discoveryId h value expected plan root) with pins := pins } := by
  unfold discoveryTx at hok
  rw [require_bind_eq_ok, bind_eq_ok] at hok
  obtain ⟨-, _, hplan, hok⟩ := hok
  dsimp only at hok
  split at hok
  · next existing hexisting =>
    rw [require_bind_eq_ok] at hok
    injection hok.2 with hwrites
    exact .inl ⟨by rw [hexisting]; rfl, hwrites.symm⟩
  · next hfresh =>
    simp only [bind_eq_ok, require_eq_ok, admissible_eq_ok, exists_const] at hok
    obtain ⟨rfl, hactive, hbatch, hclaimed, -, hvalue, -, hroot, hstates, hok⟩ := hok
    injection hok with hwrites
    refine .inr ⟨⟨hfresh, validatePlan_eq_ok hplan, ?_, ?_, hroot, hstates⟩, ?_⟩
    · intro s hs
      refine ⟨hactive s hs, ?_, hvalue s hs⟩
      rw [mem_def] at hs
      simpa [hs] using hbatch
    · intro id i hi hstream hstate
      have := select_eq_nil_iff.mp hclaimed id i hi
      simp [hstream, hstate] at this
    · intro pins
      subst hwrites
      rfl

/-- The discovery of a pinned intent commits it; later only the discovery is replayed. -/
theorem pinDiscoveryTx_eq_ok {expectedIntent : Pin U} {value : Descriptor U}
    {expectedStream : Option (Stream U)} {origin : Origin U} {planRef : U}
    (hok : pinDiscoveryTx h j expectedIntent value expectedStream plan origin planRef =
      .ok writes) : ∃ p, j.pins.get expectedIntent.id = some p ∧ p.stream = value.id ∧
      ((p.state = .pinned ∧ ∃ rest,
          writes = .patchPin p.id
            (Pin.commit (discoveryId h value expectedStream plan expectedIntent.id)) :: rest ∧
          discoveryTx h j value expectedStream plan expectedIntent.id planRef = .ok rest) ∨
        committed.rank ≤ p.state.rank ∧
          p.discovery = some (discoveryId h value expectedStream plan expectedIntent.id) ∧
          discoveryTx h j value expectedStream plan expectedIntent.id planRef = .ok writes) := by
  unfold pinDiscoveryTx at hok
  rw [bind_eq_ok] at hok
  obtain ⟨_, -, hok⟩ := hok
  dsimp only at hok
  split at hok
  · cases hok
  · next current hcurrent =>
    rw [require_bind_eq_ok] at hok
    obtain ⟨⟨hstream, -⟩, hok⟩ := hok
    refine ⟨current, hcurrent, hstream, ?_⟩
    split at hok
    · next hstate =>
      simp only [bind_eq_ok, require_eq_ok, exists_const] at hok
      obtain ⟨-, rest, hrest, hok⟩ := hok
      injection hok with hwrites
      exact .inl ⟨hstate, rest, hwrites.symm, hrest⟩
    · next hstate =>
      rw [require_bind_eq_ok] at hok
      exact .inr ⟨by simp [hstate, rank], hok⟩
    · next hstate =>
      rw [require_bind_eq_ok] at hok
      exact .inr ⟨by simp [hstate, rank], hok⟩
    · next hstate =>
      rw [require_bind_eq_ok] at hok
      exact .inr ⟨by simp [hstate, rank], hok⟩
    · cases hok

omit [DecidableEq U] in
theorem mem_sortByPlace {rows : List (Item U P)} {i : Item U P} :
    i ∈ sortByPlace rows ↔ i ∈ rows := by
  exact mem_insertionSort _

theorem pendingItems_eq_ok {id : U} {rows : List (Item U P)} (hok : pendingItems h j id = .ok rows)
    {i : Item U P} (hi : i ∈ rows) :
    j.items.get i.id = some i ∧ i.stream = id ∧ i.state = .pending := by
  unfold pendingItems at hok
  simp only [bind_eq_ok, require_eq_ok, exists_const] at hok
  obtain ⟨-, hqueued, hok⟩ := hok
  injection hok with hrows
  subst hrows
  rw [mem_sortByPlace] at hi
  have hfacts := hqueued i hi
  simp only [Item.queued, decide_eq_true_eq] at hfacts
  exact ⟨(mem_select.mp hi).1, hfacts.1, hfacts.2.1⟩

theorem claimTx_eq_ok {selection : Selection U P} {token : U}
    (hok : claimTx h j selection ref token = .ok writes) :
    writes = [] ∧ (j.HasBatch selection.id fun _ ↦ True) ∨ ∃ s selected, Claiming h j selection s selected ∧
      j.apply writes = j.claimed selection ref token selected := by
  unfold claimTx at hok
  rw [bind_eq_ok] at hok
  obtain ⟨_, hvalid, hok⟩ := hok
  split at hok
  · next existing hexisting =>
    rw [require_bind_eq_ok] at hok
    injection hok.2 with hwrites
    exact .inl ⟨hwrites.symm, existing, hexisting, trivial⟩
  · next hfresh =>
    rw [bind_eq_ok] at hok
    obtain ⟨selected, hselected, hok⟩ := hok
    injection hok with hwrites
    unfold validateSelection at hvalid
    rw [require_bind_eq_ok] at hvalid
    obtain ⟨⟨hsealed, -⟩, -⟩ := hvalid
    simp only [sealed, decide_eq_true_eq] at hsealed
    obtain ⟨-, hlength, -, hidentity⟩ := hsealed
    unfold claimable at hselected
    simp only [bind_eq_ok, admissible_eq_ok, exists_const] at hselected
    obtain ⟨pending, hpending, hactive, hselected⟩ := hselected
    split at hselected
    · cases hselected
    · next s hs =>
      simp only [bind_eq_ok, require_eq_ok, exists_const] at hselected
      obtain ⟨⟨hexpected, hfree, hunpinned, hpin, -⟩, ⟨hlisted, -⟩, hselected⟩ := hselected
      injection hselected with hselected
      subst hselected hwrites
      have hkey := key_of_get hs
      rw [Option.any_eq_true] at hpin
      obtain ⟨p, hp, hretained⟩ := hpin
      simp only [decide_eq_true_eq] at hretained
      have hnonempty : selection.items ≠ [] := by
        intro hnil
        simp [hnil] at hlength
      refine .inr ⟨s, _, ⟨hidentity, hnonempty, hfresh, ?_, hkey.symm, hexpected, hfree,
        hactive s hs, ?_, ⟨p, hp, hretained.1⟩, hlisted, ?_⟩, rfl⟩
      · rw [hkey]
        exact hs
      · rw [hkey]
        exact hunpinned
      · intro i hi
        rw [hkey]
        exact pendingItems_eq_ok hpending (mem_of_mem_take hi)

/-- A patch of a batch that writes one marker. -/
structure Noting (j : Journal U P) (id : U) (marker : Batch U → Prop)
    (fields : Batch U → Batch U) (b : Batch U) : Prop where
  key : b.id = id
  batch : j.batches.get b.id = some b
  id : ∀ r, (fields r).id = r.id
  noted : b.Noted (fields b)
  fresh : ¬ marker b
  applied : marker (fields b)

section

omit [LinearOrder P]

theorem freezeTx_eq_ok {j : Journal U P} {expected : Batch U} {frozenRef frozenId : U}
    (hok : freezeTx j expected frozenRef frozenId = .ok writes) :
    writes = [] ∧ (j.HasBatch expected.id fun b ↦ b.frozen.isSome) ∨
      ∃ b fields, writes = [.patchBatch b.id fields] ∧
        Noting j expected.id (fun b ↦ b.frozen.isSome) fields b := by
  unfold freezeTx at hok
  split at hok
  · cases hok
  · next current hcurrent =>
    rw [require_bind_eq_ok] at hok
    replace hok := hok.2
    split at hok
    · next hreplay =>
      injection hok with hwrites
      exact .inl ⟨hwrites.symm, current, hcurrent, by simp [hreplay.2.1]⟩
    · rw [require_bind_eq_ok] at hok
      obtain ⟨⟨rfl, hstate, hfrozen, -, -⟩, hok⟩ := hok
      injection hok with hwrites
      refine .inr ⟨expected, _, hwrites.symm, rfl, hcurrent, fun _ ↦ rfl,
        ⟨⟨rfl, ?_, refl _, refl _, refl _⟩, ?_, ?_⟩, ?_, rfl⟩
      · rw [hfrozen]
        exact of_none _
      · simp [hstate]
      · simp [freeze]
      · simp [hfrozen]

theorem requestTx_eq_ok {db : Db U P} {origin : BatchOrigin U} {row : Schedules.Request U}
    {intentId : U} (hok : requestTx h db origin row intentId = .ok writes) :
    writes = [] ∧ (db.HasBatch origin.batch fun b ↦ b.request.isSome) ∨
      ∃ b fields, writes = [.patchBatch b.id fields] ∧
        Noting db.toJournal origin.batch (fun b ↦ b.request.isSome) fields b := by
  unfold requestTx at hok
  rw [require_bind_eq_ok] at hok
  replace hok := hok.2
  split at hok
  · cases hok
  · next current hcurrent =>
    split at hok
    · cases hok
    · rw [require_bind_eq_ok] at hok
      replace hok := hok.2
      split at hok
      · next linked hrequest =>
        rw [require_bind_eq_ok] at hok
        injection hok.2 with hwrites
        exact .inl ⟨hwrites.symm, current, hcurrent, by simp [hrequest]⟩
      · next hrequest =>
        simp only [bind_eq_ok, require_eq_ok, exists_const] at hok
        obtain ⟨-, ⟨hstate, -⟩, hok⟩ := hok
        injection hok with hwrites
        have hkey := key_of_get hcurrent
        refine .inr ⟨current, _, hwrites.symm, hkey, by rw [hkey]; exact hcurrent, fun _ ↦ rfl,
          ⟨⟨rfl, refl _, ?_, refl _, refl _⟩, ?_, ?_⟩, ?_, rfl⟩
        · rw [hrequest]
          exact of_none _
        · simp [hstate]
        · simp [link]
        · simp [hrequest]

theorem boundOccurrence_none {db : Schedules.Db U} {batch : U} {forward : Option U}
    (hok : Schedules.boundOccurrence db batch forward = .ok none) : forward = none := by
  unfold Schedules.boundOccurrence at hok
  split at hok
  · split at hok <;> cases hok
  · split at hok
    · assumption
    · cases hok

theorem readyBatch_eq_ok {db : Db U P} {value : Schedules.BindingValue U}
    (hok : readyBatch db value = .ok u) :
    ∃ b, db.batches.get value.batch = some b ∧ b.state = .ready := by
  unfold readyBatch at hok
  split at hok
  · cases hok
  · next b hb =>
    split at hok
    · cases hok
    · rw [require_eq_ok] at hok
      exact ⟨b, hb, hok.1⟩

theorem retentionTx_eq_ok {db : Db U P} {value : Schedules.BindingValue U}
    (hok : retentionTx h db value ref = .ok writes) :
    ∃ (b : Batch U) (fields : Batch U → Batch U) (scheduled : Schedules.Tx U),
      writes = scheduled.map .schedule ++ [.patchBatch b.id fields] ∧
      Noting db.toJournal value.batch (fun b ↦ b.scheduledOccurrence.isSome) fields b := by
  unfold retentionTx at hok
  rw [bind_eq_ok] at hok
  obtain ⟨scheduled, hscheduled, hok⟩ := hok
  injection hok with hwrites
  rw [mapError_eq_ok] at hscheduled
  unfold Schedules.retentionTx at hscheduled
  simp only [bind_eq_ok, require_eq_ok, exists_const] at hscheduled
  obtain ⟨_, -, o, -, prior, hprior, _, hready, ⟨-, -, -, -, -, -, hnone⟩, -⟩ := hscheduled
  rw [isNone_iff_eq_none] at hnone
  subst hnone
  have hforward := boundOccurrence_none hprior
  obtain ⟨b, hb, hstate⟩ := readyBatch_eq_ok hready
  rw [hb] at hforward
  have hkey := key_of_get hb
  refine ⟨b, schedule value.occurrence, scheduled, by rw [← hwrites, hkey], hkey,
    by rw [hkey]; exact hb, fun _ ↦ rfl,
    ⟨⟨rfl, refl _, refl _, ?_, refl _⟩, ?_, ?_⟩, ?_, rfl⟩
  · rw [show b.scheduledOccurrence = none from hforward]
    exact of_none _
  · simp [hstate]
  · simp [schedule, hstate]
  · rw [show b.scheduledOccurrence = none from hforward]
    simp

end

omit [DecidableEq U] in
/-- The facts of a batch stay when its other fields change. -/
theorem Batch.Keeps.of_eq {b b' : Batch U} (hstream : b'.stream = b.stream)
    (hfrozen : b'.frozen = b.frozen) (hrequest : b'.request = b.request)
    (hoccurrence : b'.scheduledOccurrence = b.scheduledOccurrence)
    (hdisposition : b'.disposition = b.disposition) : b.Keeps b' := by
  refine ⟨hstream, ?_, ?_, ?_, ?_⟩
  · rw [hfrozen]
    exact refl _
  · rw [hrequest]
    exact refl _
  · rw [hoccurrence]
    exact refl _
  · rw [hdisposition]
    exact refl _

omit [LinearOrder P] in
theorem members_eq_select {batch : U} (hlength : (members j batch).length < 100) :
    members j batch = j.items.select fun i ↦ i.batch = some batch := by
  unfold members at hlength ⊢
  rw [length_take] at hlength
  exact take_of_length_le (by omega)

variable {s : Stream U}

/-- The members that match a selection are all the items of its batch. -/
theorem owning_of_owns {b : Batch U} {selection : Selection U P}
    (hb : j.batches.get b.id = some b) (hs : j.streams.get b.stream = some s)
    (hsealed : selection.sealed h) (hid : selection.id = b.id)
    (howns : selection.owns b.stream (members j b.id)) :
    Owning h j b s selection.toSelectionFacts (sortByPlace (members j b.id)) := by
  simp only [sealed, decide_eq_true_eq] at hsealed
  obtain ⟨-, -, hlength, hidentity⟩ := hsealed
  simp only [owns, decide_eq_true_eq] at howns
  obtain ⟨hlisted, hrows⟩ := howns
  have hkey := key_of_get hs
  have hmembers : members j b.id = j.items.select fun i ↦ i.batch = some b.id := by
    refine members_eq_select ?_
    rw [hlisted, length_map, sortByPlace, length_insertionSort] at hlength
    omega
  refine ⟨hb, by rw [hkey]; exact hs, hkey.symm, by rw [← hid, hidentity], hlisted, ?_, ?_, ?_⟩
  · intro i hi
    rw [mem_sortByPlace, hmembers] at hi
    exact (mem_select.mp hi).1
  · intro id i hi
    have hid := key_of_get hi
    rw [mem_sortByPlace, hmembers, mem_select, hid]
    simp [hi]
  · intro i hi
    rw [mem_sortByPlace] at hi
    rw [(hrows i hi).1, hkey]

variable {expected : Proof U P} {db : Db U P}

variable {value : Disposition U}

/-- What the binding of a processed batch has checked. -/
theorem boundBatch_eq_ok {bound : Bound U P} (hok : boundBatch h db expected value = .ok bound) :
    bound.batch.id = expected.origin.batch ∧
      Owning h db.toJournal bound.batch bound.stream expected.selection.toSelectionFacts
        bound.items := by
  unfold boundBatch at hok
  rw [require_bind_eq_ok] at hok
  obtain ⟨⟨-, hid, hsealed, -⟩, hok⟩ := hok
  dsimp only at hok
  split at hok
  · next row b s hrow hb hs =>
    rw [require_bind_eq_ok] at hok
    obtain ⟨⟨-, -, -, -, -, -, -, -, -, -, -, -, -, -, hhome, -, -, -, howns⟩, hok⟩ := hok
    rw [bind_eq_ok] at hok
    obtain ⟨_, -, hok⟩ := hok
    injection hok with hbound
    subst hbound
    have hkey := key_of_get hb
    refine ⟨hkey, ?_⟩
    rw [← hkey] at hb hid howns ⊢
    rw [hhome] at hs howns
    exact owning_of_owns hb hs hsealed hid.symm howns
  · cases hok

/-- The fragment closes the batch. -/
def Closes (h : Hasch U P) (j : Journal U P) (id : U) (writes : Tx U P) : Prop :=
  ∃ b fields s selection items outcome generation, b.id = id ∧
    Closing h j b fields s selection items outcome generation ∧
    j.apply writes = j.closed b fields s items outcome generation

/-- The fragment finds the batch closed. -/
def Journal.Replays (j : Journal U P) (id : U) (writes : Tx U P) : Prop :=
  writes = [] ∧ j.HasBatch id fun b ↦ b.state = .closed

omit [LinearOrder P] in
theorem filed_eq_ok {bound : Bound U P} (hok : filed h db expected value bound = .ok u) :
    bound.batch.disposition.isSome := by
  unfold filed at hok
  rw [require_bind_eq_ok] at hok
  rw [← hok.1.1]
  rfl

theorem filingTx_eq_ok (hok : filingTx h db expected value = .ok writes) :
    (writes = [] ∧ db.HasBatch expected.origin.batch fun b ↦ b.disposition.isSome) ∨
      (∃ b fields, writes = [.patchBatch b.id fields] ∧
        Noting db.toJournal expected.origin.batch (fun b ↦ b.disposition.isSome) fields b) ∨
      ∃ b s selection items, b.id = expected.origin.batch ∧ b.disposition = none ∧
        Closing h db.toJournal b (fileNoOp value.id) s selection items .noOp none ∧
        db.toJournal.apply writes =
          db.toJournal.closed b (fileNoOp value.id) s items .noOp none := by
  unfold filingTx at hok
  rw [bind_eq_ok] at hok
  obtain ⟨bound, hbound, hok⟩ := hok
  obtain ⟨hid, howning⟩ := boundBatch_eq_ok hbound
  dsimp only at hok
  split at hok
  · rw [bind_eq_ok] at hok
    obtain ⟨_, hfiled, hok⟩ := hok
    injection hok with hwrites
    rw [← hid]
    exact .inl ⟨hwrites.symm, bound.batch, howning.batch, filed_eq_ok hfiled⟩
  · next hunfiled =>
    rw [require_bind_eq_ok] at hok
    obtain ⟨⟨hstate, hrunning, -, -, -, hclaimed⟩, hok⟩ := hok
    have hnone : bound.batch.disposition = none := by
      rw [not_or, not_isSome_iff_eq_none] at hunfiled
      exact hunfiled.1
    have hkeeps (b' : Batch U) (hstream : b'.stream = bound.batch.stream)
        (hfrozen : b'.frozen = bound.batch.frozen) (hrequest : b'.request = bound.batch.request)
        (hoccurrence : b'.scheduledOccurrence = bound.batch.scheduledOccurrence) :
        bound.batch.Keeps b' := by
      refine ⟨hstream, ?_, ?_, ?_, ?_⟩
      · rw [hfrozen]
        exact refl _
      · rw [hrequest]
        exact refl _
      · rw [hoccurrence]
        exact refl _
      · rw [hnone]
        exact of_none _
    split at hok
    · injection hok with hwrites
      refine .inr (.inl ⟨bound.batch, _, hwrites.symm, hid, howning.batch, fun _ ↦ rfl,
        ⟨hkeeps _ rfl rfl rfl rfl, ?_, ?_⟩, ?_, rfl⟩)
      · simp [hstate]
      · simp [file]
      · simp [hnone]
    · injection hok with hwrites
      refine .inr (.inr ⟨bound.batch, bound.stream, _, bound.items, hid, hnone,
        ⟨howning, fun _ ↦ rfl, hkeeps _ rfl rfl rfl rfl, ?_, rfl, rfl, hrunning, hclaimed, rfl⟩, ?_⟩)
      · simp [hstate]
      · subst hwrites
        rfl

theorem acceptanceTx_eq_ok {accepted : Operation U}
    (hok : acceptanceTx h db expected value accepted = .ok writes) :
    db.Replays expected.origin.batch writes ∨
      Closes h db.toJournal expected.origin.batch writes := by
  unfold acceptanceTx at hok
  simp only [bind_eq_ok] at hok
  obtain ⟨_, -, bound, hbound, _, -, hok⟩ := hok
  obtain ⟨hid, howning⟩ := boundBatch_eq_ok hbound
  split at hok
  · next hclosed =>
    simp only [bind_eq_ok] at hok
    obtain ⟨_, -, _, -, _, -, hok⟩ := hok
    injection hok with hwrites
    rw [← hid]
    exact .inl ⟨hwrites.symm, bound.batch, howning.batch, hclosed⟩
  · rw [bind_eq_ok] at hok
    obtain ⟨current, -, hok⟩ := hok
    split at hok
    · cases hok
    · rw [require_bind_eq_ok] at hok
      obtain ⟨⟨hstate, -, -, hrunning, hclaimed, -⟩, hok⟩ := hok
      injection hok with hwrites
      refine .inr ⟨bound.batch, accept accepted.id, bound.stream, _, bound.items, .accepted,
        none, hid, ⟨howning, fun _ ↦ rfl, .of_eq rfl rfl rfl rfl rfl, ?_, rfl, rfl, hrunning,
          hclaimed, rfl⟩, ?_⟩
      · simp [hstate]
      · subst hwrites
        rfl

theorem dismissalTx_eq_ok {by_ : U} {at_ : ℤ}
    (hok : dismissalTx h db expected value by_ at_ = .ok writes) :
    db.Replays expected.origin.batch writes ∨
      Closes h db.toJournal expected.origin.batch writes := by
  unfold dismissalTx at hok
  simp only [bind_eq_ok] at hok
  obtain ⟨_, -, bound, hbound, _, -, hok⟩ := hok
  obtain ⟨hid, howning⟩ := boundBatch_eq_ok hbound
  split at hok
  · next hclosed =>
    simp only [bind_eq_ok] at hok
    obtain ⟨_, -, _, -, _, -, hok⟩ := hok
    injection hok with hwrites
    rw [← hid]
    exact .inl ⟨hwrites.symm, bound.batch, howning.batch, hclosed⟩
  · rw [bind_eq_ok] at hok
    obtain ⟨opened, -, hok⟩ := hok
    split at hok
    · cases hok
    · next filing hfiling =>
      rw [require_bind_eq_ok] at hok
      obtain ⟨⟨hstate, -, -, -, hrunning, hclaimed, -⟩, hok⟩ := hok
      injection hok with hwrites
      refine .inr ⟨bound.batch, dismiss filing, bound.stream, _, bound.items, .dismissed,
        none, hid, ⟨howning, fun _ ↦ rfl, .of_eq rfl rfl rfl rfl rfl, ?_, rfl, rfl, hrunning,
          hclaimed, rfl⟩, ?_⟩
      · simp [hstate]
      · subst hwrites
        rfl

variable {mode : Mode}

/-- What a recovery has checked; after a requeue the members are not compared. -/
theorem checkedRecovery_eq_ok {expected : Abandonment U P} {value : BatchDecision U} {phase : Phase}
    {checked : Recoverable U P}
    (hok : checkedRecovery h db expected value phase mode = .ok checked) :
    checked.batch.id = value.batch ∧ db.batches.get checked.batch.id = some checked.batch ∧
      (checked.batch.state ≠ .closed →
        Owning h db.toJournal checked.batch checked.stream expected.selection.toSelectionFacts
          checked.items) := by
  unfold checkedRecovery at hok
  rw [require_bind_eq_ok] at hok
  replace hok := hok.2
  dsimp only at hok
  split at hok
  · cases hok
  · next b hb =>
    split at hok
    · cases hok
    · next s hs =>
      rw [require_bind_eq_ok] at hok
      obtain ⟨⟨hsealed, hid, -, -, -, -, howns⟩, hok⟩ := hok
      simp only [bind_eq_ok] at hok
      obtain ⟨_, -, _, -, _, -, occurrence, -, _, -, hok⟩ := hok
      injection hok with hchecked
      subst hchecked
      have hkey := key_of_get hb
      rw [← hkey] at hb hid howns ⊢
      refine ⟨rfl, hb, fun hopen ↦ ?_⟩
      rw [if_neg fun hclosed ↦ hopen hclosed.2] at howns
      exact owning_of_owns hb hs hsealed hid howns

variable {before : ℕ}

theorem successor_eq_ok {after : ℕ} (hok : successor before = .ok after) : after = before + 1 := by
  unfold successor at hok
  rw [require_bind_eq_ok] at hok
  injection hok.2 with hafter
  exact hafter.symm

/-- A requeue takes the next generation, and an abandonment none. -/
theorem nextGeneration_eq_ok {after : Option ℕ} (hok : nextGeneration mode before = .ok after) :
    after = if mode = .requeue then some (before + 1) else none := by
  unfold nextGeneration at hok
  split at hok
  · next hmode =>
    rw [if_pos hmode]
    cases hsuccessor : successor before with
    | error e =>
      rw [hsuccessor] at hok
      cases hok
    | ok generation =>
      rw [hsuccessor] at hok
      injection hok with hok
      rw [← hok, successor_eq_ok hsuccessor]
  · next hmode =>
    rw [if_neg hmode]
    injection hok with hok
    exact hok.symm

omit [DecidableEq U] [LinearOrder P] in
theorem Mode.outcome_generates {b : Batch U} {selection : SelectionFacts U P}
    (hunchanged : selection.expected.activate b.id = s) : mode.outcome.Generates b s selection
      (if mode = .requeue then some (selection.expected.batchGeneration + 1) else none) := by
  cases mode with
  | requeue => exact ⟨hunchanged, rfl⟩
  | skip => exact rfl
  | freshUpdate => exact rfl

omit [LinearOrder P] in
/-- The writes of a recovery close the stream and settle the items. -/
theorem recoveryWrites_apply {b : Batch U} {fields : Batch U → Batch U} {items : List (Item U P)} :
    (j.write (.patchBatch b.id fields)).apply (recoveryWrites s.id items
        (if mode = .requeue then some (before + 1) else none)) =
      j.closed b fields s items mode.outcome
        (if mode = .requeue then some (before + 1) else none) := by
  cases mode <;> rfl

theorem abandonFromTx_eq_ok {expected : Abandonment U P} {value : BatchDecision U} {phase : Phase}
    (hok : abandonFromTx h db expected value phase mode = .ok writes) :
    db.Replays value.batch writes ∨ Closes h db.toJournal value.batch writes := by
  unfold abandonFromTx at hok
  rw [bind_eq_ok] at hok
  obtain ⟨checked, hchecked, hok⟩ := hok
  rw [bind_eq_ok] at hok
  obtain ⟨after, hafter, hok⟩ := hok
  obtain ⟨hid, hbatch, howning⟩ := checkedRecovery_eq_ok hchecked
  split at hok
  · next hclosed =>
    rw [require_bind_eq_ok] at hok
    replace hok := hok.2
    rw [← hid]
    split at hok
    · injection hok with hwrites
      exact .inl ⟨hwrites.symm, checked.batch, hbatch, hclosed⟩
    · rw [bind_eq_ok] at hok
      obtain ⟨_, -, hok⟩ := hok
      injection hok with hwrites
      exact .inl ⟨hwrites.symm, checked.batch, hbatch, hclosed⟩
  · next hopen =>
    replace howning := howning hopen
    simp only [bind_eq_ok, require_eq_ok, admissible_eq_ok, exists_const] at hok
    obtain ⟨-, ⟨-, -, -, hunchanged, -, hclaimed⟩, withdrawn, -, hok⟩ := hok
    injection hok with hwrites
    have hrunning : checked.stream.activeBatch = some checked.batch.id := by
      rw [← hunchanged]
      rfl
    obtain ⟨receipt, hreceipt⟩ : ∃ receipt, receipt = abandonReceipt value phase mode
      (after.map fun generation ↦ (expected.selection.expected.batchGeneration, generation)) :=
        ⟨_, rfl⟩
    rw [← hreceipt, nextGeneration_eq_ok hafter] at hwrites
    refine .inr ⟨checked.batch, recover mode.outcome receipt, checked.stream, _,
      checked.items, mode.outcome, _, hid,
      ⟨howning, fun _ ↦ rfl, .of_eq rfl rfl rfl rfl rfl, hopen, rfl, rfl, hrunning, hclaimed,
        Mode.outcome_generates hunchanged⟩, ?_⟩
    rw [← hwrites, apply_cons, apply_append, apply_schedule, howning.home]
    exact recoveryWrites_apply

theorem requeueTx_eq_ok {expected : FailedUpdate U P} {value : SubmittedDecision U}
    (hok : requeueTx h db expected value = .ok writes) :
    db.Replays value.batch writes ∨ Closes h db.toJournal value.batch writes := by
  unfold requeueTx at hok
  simp only [bind_eq_ok] at hok
  obtain ⟨_, -, _, -, _, -, _, -, after, hafter, hok⟩ := hok
  split at hok
  · next batch row hbatch hrow =>
    split at hok
    · cases hok
    · next s hs =>
      simp only [bind_eq_ok, require_eq_ok, exists_const] at hok
      obtain ⟨_, -, occurrence, -, ⟨hsealed, -, -, hid, -⟩, _, -, -, hok⟩ := hok
      have hkey := key_of_get hbatch
      split at hok
      · next hclosed =>
        rw [require_bind_eq_ok] at hok
        injection hok.2 with hwrites
        exact .inl ⟨hwrites.symm, batch, hbatch, hclosed⟩
      · simp only [bind_eq_ok, require_eq_ok, admissible_eq_ok, exists_const] at hok
        obtain ⟨-, ⟨hstate, -, -, hunchanged, -, howns, hclaimed⟩, hok⟩ := hok
        injection hok with hwrites
        rw [← hkey] at hbatch hid howns hunchanged hclaimed hwrites
        have howning := owning_of_owns hbatch hs hsealed hid.symm howns
        have hrunning : s.activeBatch = some batch.id := by
          rw [← hunchanged]
          rfl
        rw [successor_eq_ok hafter] at hwrites
        obtain ⟨receipt, hreceipt⟩ : ∃ receipt, receipt = receiptFields value expected.native
          expected.proof.selection.expected.batchGeneration
          (expected.proof.selection.expected.batchGeneration + 1) := ⟨_, rfl⟩
        rw [← hreceipt] at hwrites
        refine .inr ⟨batch, recover .failedRequeued receipt, s, _,
          sortByPlace (members db.toJournal batch.id), .failedRequeued, _, hkey,
          ⟨howning, fun _ ↦ rfl, .of_eq rfl rfl rfl rfl rfl, ?_, rfl, rfl, hrunning, ?_,
            hunchanged, rfl⟩, ?_⟩
        · simp [hstate]
        · intro i hi
          rw [mem_sortByPlace] at hi
          exact hclaimed i hi
        · rw [← hwrites, howning.home]
          rfl
  · cases hok

section

omit [LinearOrder P]

variable {expected : Retiring U}

theorem checkedRetirement_eq_ok {j : Journal U P} {value : RetirementDecision U}
    {p : Pin U} (hok : checkedRetirement h j expected value = .ok (s, p)) :
    s.id = value.stream ∧ j.streams.get s.id = some s ∧ j.pins.get p.id = some p ∧
      p.id = s.cursorRoot ∧ p.stream = s.id ∧ s.activeBatch = none ∧ active j s.id = none ∧
      ∀ id i, j.items.get id = some i → i.stream = s.id → i.state ≠ .pending ∧ i.state ≠ .claimed := by
  unfold checkedRetirement at hok
  rw [require_bind_eq_ok] at hok
  replace hok := hok.2
  split at hok
  · next s' p' hs hp =>
    simp only [bind_eq_ok, require_eq_ok, exists_const] at hok
    obtain ⟨⟨-, -, -, hhome, hroot, -⟩, _, -, _, -, -, ⟨hfree, hunpinned, -, hclean⟩, hok⟩ := hok
    injection hok with hpair
    injection hpair with hs' hp'
    subst hs' hp'
    have hskey := key_of_get hs
    have hpkey := key_of_get hp
    rw [hskey, hpkey]
    refine ⟨rfl, hs, hp, hroot, hhome.symm, hfree, hunpinned, ?_⟩
    intro id i hi hstream
    have := select_eq_nil_iff.mp hclean id i hi
    simpa [hstream] using this
  · cases hok

theorem beginTx_eq_ok {j : Journal U P} {value : RetirementDecision U}
    (hok : beginTx h j expected value = .ok writes) :
    (writes = [] ∧ ∃ s p, checkedRetirement h j expected value = .ok (s, p) ∧ s.state ≠ .active ∧
        s.state.pinState = p.state) ∨ ∃ s p recorded, s.id = value.stream ∧ Beginning j s p ∧
        writes = [.patchStream s.id (Stream.setState .retiring),
          .patchPin p.id (Pin.recordAudit recorded)] := by
  unfold beginTx at hok
  rw [bind_eq_ok] at hok
  obtain ⟨⟨s, p⟩, hchecked, hok⟩ := hok
  dsimp only at hok
  split at hok
  · next hactive =>
    rw [require_bind_eq_ok] at hok
    injection hok.2 with hwrites
    obtain ⟨hid, hs, hp, hroot, -, hfree, hunpinned, hclean⟩ := checkedRetirement_eq_ok hchecked
    exact .inr ⟨s, p, _, hid, ⟨hs, hp, hroot, hactive, hfree, hunpinned, hclean⟩,
      by rw [hid, ← hwrites]⟩
  · next hactive =>
    simp only [bind_eq_ok, require_eq_ok, exists_const] at hok
    obtain ⟨-, hstate, hok⟩ := hok
    injection hok with hwrites
    exact .inl ⟨hwrites.symm, s, p, hchecked, hactive, hstate⟩

theorem finishRetirementTx_eq_ok {j : Journal U P} {value : RetirementDecision U}
    (hok : finishRetirementTx h j expected value = .ok writes) :
    writes = [] ∧ j.Reached value.stream .retired ∨ ∃ s p, s.id = value.stream ∧ Retirement j s p ∧
      writes = [.patchStream s.id (Stream.setState .retired), .patchPin p.id Pin.release] := by
  unfold finishRetirementTx at hok
  simp only [bind_eq_ok, require_eq_ok, exists_const] at hok
  obtain ⟨begun, hbegun, hempty, ⟨s, p⟩, hchecked, hok⟩ := hok
  dsimp only at hok
  obtain ⟨hid, hs, hp, hroot, hhome, -⟩ := checkedRetirement_eq_ok hchecked
  split at hok
  · next hretired =>
    injection hok with hwrites
    rw [← hid]
    exact .inl ⟨hwrites.symm, s, hs, by simp [hretired]⟩
  · next hretired =>
    injection hok with hwrites
    obtain ⟨-, s', p', hchecked', hactive, hstate⟩ | ⟨s', p', recorded, -, -, rfl⟩ :=
      beginTx_eq_ok hbegun
    · rw [hchecked] at hchecked'
      injection hchecked' with hpair
      injection hpair with hs' hp'
      subst hs' hp'
      have hfenced : s.state = .retiring := by
        cases hs : s.state <;> simp_all
      rw [hfenced] at hstate
      exact .inr ⟨s, p, hid, ⟨hs, hp, hroot, hhome, hfenced, hstate.symm⟩, by rw [hid, ← hwrites]⟩
    · cases hempty

end

end Simmis.Knowledge
