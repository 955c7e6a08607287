import Simmis.Desktop.SlotOwnership

/-!
# Calls and answers of the native resource slot

What the slot calls and what it answers is right at the moment at which it does so, a held slot
opens nothing before a retry, and its worker comes to rest.
-/

namespace Simmis.Desktop.ResourceSlot

open List Option Runs World Nat

/-! ## Calls of the host and answers -/

section

variable {G V E : Type} {w w' : World G V E}

/-- Nothing is opened beside a live resource or a running callback, and nothing shared is disposed
of. -/
def World.Allows (w w' : World G V E) : Call V → Prop
  | .open _ => w.live = [] ∧ (∀ worker ∈ w.workers, worker = .planning) ∧
    w.slot.phase ≠ .held ∧ w.slot.drains = []
  | .dispose op value => (op, value) ∉ w'.shown
  | _ => True

/-- What makes an answer right. -/
def World.Tells (w : World G V E) (ch : ℕ) : Result G V E → Prop
  | .ready value generation => ∃ r, w.slot.resource = some r ∧ r.value = value ∧
    r.owner.id = ch ∧ r.owner.generation = generation ∧ (ch, value) ∈ w.shown
  | .done => w.live = []
  | .failed error => error.isSome

def World.Calls (w w' : World G V E) : Prop :=
  w'.calls = w.calls ∨ ∃ call, w'.calls = call :: w.calls ∧ w.Allows w' call

def World.Answers (w w' : World G V E) : Prop :=
  ∀ ch value, (ch, value) ∈ w'.puts → (ch, value) ∈ w.puts ∨ w'.Tells ch value

theorem calls_of_eq (hcalls : w'.calls = w.calls) : w.Calls w' := .inl hcalls

theorem answers_of_eq (hputs : w'.puts = w.puts) : w.Answers w' :=
  fun _ _ hmem ↦ .inl (hputs ▸ hmem)

theorem mem_complete {op : Option (Op G)} {value value' : Result G V E} {ch : ℕ}
    (hmem : (ch, value') ∈ (w.complete op value).puts) :
    (ch, value') ∈ w.puts ∨ value' = value ∧ op.map Op.id = some ch := by
  unfold complete at hmem
  split at hmem
  · split at hmem
    · exact .inl hmem
    · rcases mem_cons.mp hmem with heq | hmem
      · obtain ⟨rfl, rfl⟩ := Prod.mk.inj heq
        exact .inr ⟨rfl, rfl⟩
      · exact .inl hmem
  · exact .inl hmem

theorem mem_putAll {chs : List ℕ} {value value' : Result G V E} {ch : ℕ} :
    (ch, value') ∈ (w.putAll chs value).puts ↔
      (ch, value') ∈ w.puts ∨ value' = value ∧ ch ∈ chs := by
  induction chs generalizing w with
  | nil => simp [putAll]
  | cons first chs ih =>
    change (ch, value') ∈ ((w.put first value).putAll chs value).puts ↔ _
    simp only [put, mem_cons]
    grind

theorem hold_answers (error : Failure E) (failedOpen : Option (FailedOpen E)) (k : ℕ) :
    w.Answers ((w.hold error failedOpen).exit k) := by
  intro ch value hmem
  rcases mem_putAll.mp hmem with hmem | ⟨rfl, -⟩
  · rcases mem_complete hmem with hold | ⟨rfl, -⟩
    · exact .inl hold
    · exact .inr rfl
  · exact .inr rfl

theorem hold_calls (error : Failure E) (failedOpen : Option (FailedOpen E)) (k : ℕ) :
    w.Calls ((w.hold error failedOpen).exit k) := calls_of_eq (by simp)

theorem withdraw_calls (hw : w.Holds) (k : ℕ) {r : Resource G V} (hr : w.slot.resource = some r)
    (stale : List ℕ) : w.Calls ({ w with stale }.withdraw k r) := by
  unfold withdraw
  split
  · exact .inr ⟨_, rfl, trivial⟩
  · next hpublished =>
    refine .inr ⟨_, rfl, ?_⟩
    rw [hw.unpublished r hr (by simpa using hpublished)]
    exact not_mem_nil

theorem withdraw_answers (k : ℕ) (r : Resource G V) (stale : List ℕ) :
    w.Answers ({ w with stale }.withdraw k r) :=
  answers_of_eq (withdraw_frame (w := { w with stale }) k r).2.2.2

theorem recover_calls (k : ℕ) : w.Calls (w.recover k) := by
  unfold recover
  split
  · exact .inr ⟨_, rfl, trivial⟩
  · exact hold_calls _ _ _

theorem recover_answers (k : ℕ) : w.Answers (w.recover k) := by
  unfold recover
  split
  · exact answers_of_eq rfl
  · exact hold_answers _ _ _

theorem plan_calls [DecidableEq G] (hw : w.Sound) {k : ℕ} (hk : w.workers[k]? = some .planning)
    (valid : Check E) : w.Calls (w.plan k valid) := by
  obtain ⟨-, -, hone, -⟩ := worker_at hw.toOwns hk
  unfold plan
  split
  · exact calls_of_eq rfl
  · next hheld =>
    split
    · exact recover_calls k
    · split
      · next r op hr hop =>
        split
        · split
          · exact hold_calls _ _ _
          · exact withdraw_calls hw.toHolds k hr _
          · split
            · exact calls_of_eq (by simp)
            · exact .inr ⟨_, rfl, trivial⟩
        · exact withdraw_calls hw.toHolds k hr w.stale
      · next r hr _ => exact withdraw_calls hw.toHolds k hr w.stale
      · next hnone =>
        split
        · exact calls_of_eq (by simp)
        · next hdrains =>
          split
          · split
            · exact hold_calls _ _ _
            · refine .inr ⟨_, rfl, ?_, fun worker hworker ↦ ?_, hheld, by simpa using hdrains⟩
              · rw [hw.live, hnone]
                rfl
              · rw [hone] at hworker
                exact mem_singleton.mp hworker
            · exact calls_of_eq (by simp)
          · exact calls_of_eq (by simp)

theorem plan_answers [DecidableEq G] (hw : w.Sound) {k : ℕ} (hk : w.workers[k]? = some .planning)
    (valid : Check E) : w.Answers (w.plan k valid) := by
  obtain ⟨-, -, -, hshows⟩ := worker_at hw.toOwns hk
  unfold plan
  split
  · exact answers_of_eq rfl
  · split
    · exact recover_answers k
    · split
      · next r op hr hop =>
        split
        · next hid =>
          split
          · exact hold_answers _ _ _
          · exact withdraw_answers k r _
          · split
            · next hpublished =>
              intro ch value hmem
              rcases mem_complete hmem with hold | ⟨rfl, hch⟩
              · exact .inl hold
              · obtain rfl : op.id = ch := some.inj hch
                obtain ⟨rfl, -⟩ := hw.fence r op hr hop hid
                refine .inr ⟨r, by simpa using hr, rfl, rfl, rfl, ?_⟩
                simpa using hshows r r.owner hr hop rfl hpublished
            · exact answers_of_eq rfl
        · exact withdraw_answers k r w.stale
      · next r hr _ => exact withdraw_answers k r w.stale
      · next hnone =>
        have hlive : w.live = [] := by
          rw [hw.live, hnone]
          rfl
        split
        · intro ch value hmem
          rcases mem_putAll.mp hmem with hold | ⟨rfl, -⟩
          · exact .inl hold
          · exact .inr (by simpa [World.Tells] using hlive)
        · next hdrains =>
          split
          · split
            · exact hold_answers _ _ _
            · exact answers_of_eq rfl
            · intro ch value hmem
              rcases mem_complete hmem with hold | ⟨rfl, -⟩
              · exact .inl hold
              · exact .inr rfl
          · intro ch value hmem
            rcases mem_putAll.mp hmem with hold | ⟨rfl, -⟩
            · exact .inl hold
            · exact .inr (by simpa [World.Tells] using hlive)

@[simp] theorem pump_frame : w.pump.calls = w.calls ∧ w.pump.puts = w.puts ∧
    w.pump.chans = w.chans ∧ w.pump.slot.phase = w.slot.phase ∧
    w.pump.slot.drains = w.slot.drains := by
  unfold pump
  split <;> simp

theorem answer_answers (purpose : Purpose) (error : Option (Failure E)) (herror : error.isSome) :
    w.Answers (w.answer purpose (.failed error)).pump := by
  intro ch value hmem
  simp only [pump_frame] at hmem
  rcases mem_cons.mp hmem with heq | hmem
  · obtain ⟨rfl, rfl⟩ := Prod.mk.inj heq
    exact .inr herror
  · exact .inl hmem

theorem enter_answers [DecidableEq G] (hw : w.Sound) (r : Request G) :
    w.Answers (w.enter r).pump := by
  unfold enter
  split
  · split
    · next hheld => exact answer_answers _ _ (hw.held hheld).2.2
    · split
      · exact answers_of_eq (by simp)
      · intro ch value hmem
        simp only [pump_frame] at hmem
        rcases mem_complete hmem with hold | ⟨rfl, -⟩
        · exact .inl hold
        · exact .inr rfl
  · exact answer_answers _ _ rfl

theorem retire_answers (hw : w.Sound) : w.Answers w.withdrawAll.pump := by
  intro ch value hmem
  simp only [pump_frame, withdrawAll] at hmem
  have hcancelled (hmem : (ch, value) ∈
      (w.complete w.slot.desired (.failed (some .superseded))).puts) :
      (ch, value) ∈ w.puts ∨ w.withdrawAll.pump.Tells ch value := by
    rcases mem_complete hmem with hold | ⟨rfl, -⟩
    · exact .inl hold
    · exact .inr rfl
  split at hmem
  · next hheld =>
    rcases mem_cons.mp hmem with heq | hmem
    · obtain ⟨rfl, rfl⟩ := Prod.mk.inj heq
      refine .inr ?_
      simpa [World.Tells] using (hw.held hheld).2.2
    · exact hcancelled hmem
  · exact hcancelled hmem

theorem retry_answers : w.Answers w.retry.pump := by
  unfold retry
  split
  · exact answer_answers _ _ rfl
  · split
    · exact answers_of_eq (by simp)
    · exact answer_answers _ _ rfl

theorem enter_calls [DecidableEq G] (r : Request G) : (w.enter r).pump.calls = w.calls := by
  unfold enter
  split
  · split
    · simp [answer]
    · split <;> simp
  · simp [answer]

theorem retire_calls : w.withdrawAll.pump.calls = w.calls := by
  unfold withdrawAll
  split <;> simp

theorem retry_calls : w.retry.pump.calls = w.calls := by
  unfold retry
  split
  · simp [answer]
  · split <;> simp [answer]

variable [DecidableEq G] [DecidableEq V]

theorem step_calls (hw : w.Sound) (event : Event G V E) : w.Calls (w.step event) := by
  refine step_cases event (calls_of_eq rfl) (fun r ↦ calls_of_eq (enter_calls r))
    (calls_of_eq retire_calls) (calls_of_eq retry_calls)
    (fun k valid hk ↦ plan_calls hw hk valid) (fun k _ _ _ _ ↦ hold_calls _ _ k)
    (fun _ _ _ _ ↦ calls_of_eq rfl) (fun k r hk ↦ .inr ⟨_, rfl, ?_⟩)
    (fun _ _ _ ↦ calls_of_eq rfl) (fun _ _ _ ↦ calls_of_eq rfl) (fun _ _ _ _ ↦ calls_of_eq rfl)
    fun _ _ _ _ ↦ calls_of_eq (by simp)
  obtain ⟨-, -, -, -, hr⟩ := worker_at hw.toOwns hk
  change _ ∉ w.shown.erase _
  rw [erase_shown hw.toHolds hr]
  exact not_mem_nil

theorem step_answers (hw : w.Sound) (event : Event G V E) : w.Answers (w.step event) := by
  refine step_cases event (answers_of_eq rfl) (enter_answers hw) (retire_answers hw) retry_answers
    (fun k valid hk ↦ plan_answers hw hk valid) (fun k _ _ _ _ ↦ hold_answers _ _ k)
    (fun _ _ _ _ ↦ answers_of_eq rfl) (fun _ _ _ ↦ answers_of_eq rfl)
    (fun _ _ _ ↦ answers_of_eq rfl) (fun _ _ _ ↦ answers_of_eq rfl)
    (fun _ _ _ _ ↦ answers_of_eq rfl) fun k op hk error ch value hmem ↦ ?_
  rcases mem_complete hmem with hold | ⟨rfl, -⟩
  · exact .inl hold
  · exact .inr rfl

end

/-! ## Quarantine -/

section

variable {G V E : Type} {w w' : World G V E}

/-- The slot is held, or a retry of those since `base` goes on or has succeeded. -/
def World.Quarantines (w : World G V E) (base : ℕ) : Prop :=
  base ≤ w.chans.length ∧
    (w.slot.phase = .held ∨
      (∃ ch, base ≤ ch ∧ w.chans[ch]? = some .retry ∧ ch ∈ w.slot.drains) ∨
        ∃ ch, base ≤ ch ∧ w.chans[ch]? = some .retry ∧ (ch, .done) ∈ w.puts)

/-- A step that keeps the slot held, its drains and its answers. -/
theorem Quarantines.mono {base : ℕ} (hw : w.Quarantines base)
    (hphase : w.slot.phase = .held → w'.slot.phase = .held)
    (hdrains : ∀ ch ∈ w.slot.drains, ch ∈ w'.slot.drains)
    (hputs : ∀ entry ∈ w.puts, entry ∈ w'.puts) (hlength : w.chans.length ≤ w'.chans.length)
    (hchans : ∀ (ch : ℕ) (p : Purpose), w.chans[ch]? = some p → w'.chans[ch]? = some p) :
    w'.Quarantines base := by
  obtain ⟨hbase, hheld | ⟨ch, hle, hch, hdrain⟩ | ⟨ch, hle, hch, hput⟩⟩ := hw
  · exact ⟨Nat.le_trans hbase hlength, .inl (hphase hheld)⟩
  · exact ⟨Nat.le_trans hbase hlength, .inr (.inl ⟨ch, hle, hchans ch _ hch, hdrains ch hdrain⟩)⟩
  · exact ⟨Nat.le_trans hbase hlength, .inr (.inr ⟨ch, hle, hchans ch _ hch, hputs _ hput⟩)⟩

theorem chan_mono (w : World G V E) (purpose : Purpose) (ch : ℕ) (p : Purpose)
    (hch : w.chans[ch]? = some p) : (w.chans ++ [purpose])[ch]? = some p :=
  (List.getElem?_append_left (List.getElem?_eq_some_iff.mp hch).1).trans hch

theorem complete_puts (op : Option (Op G)) (value : Result G V E) (entry : ℕ × Result G V E)
    (hentry : entry ∈ w.puts) : entry ∈ (w.complete op value).puts := by
  unfold complete
  split
  · split
    · exact hentry
    · exact mem_cons_of_mem _ hentry
  · exact hentry

section

variable {base : ℕ} (hw : w.Quarantines base)
include hw

theorem hold_quarantines (error : Failure E) (failedOpen : Option (FailedOpen E)) (k : ℕ) :
    ((w.hold error failedOpen).exit k).Quarantines base :=
  ⟨by simpa using hw.1, .inl (by simp)⟩

theorem enter_quarantines [DecidableEq G] (r : Request G) : (w.enter r).pump.Quarantines base := by
  have hanswer (value : Result G V E) : (w.answer .answered value).pump.Quarantines base := by
    refine Quarantines.mono hw (by simp [answer]) (by simp [answer])
      (fun entry hentry ↦ ?_) (by simp [answer]) (fun ch p hch ↦ ?_)
    · simp [answer, put, hentry]
    · simpa [answer] using chan_mono w _ ch p hch
  unfold enter
  split
  · split
    · exact hanswer _
    · split
      · exact Quarantines.mono hw (by simp) (by simp) (by simp) (by simp) (by simp)
      · refine Quarantines.mono hw (by simp) (by simp) (fun entry hentry ↦ ?_) (by simp)
          (fun ch p hch ↦ ?_)
        · simpa using complete_puts _ _ entry hentry
        · simpa using chan_mono w _ ch p hch
  · exact hanswer _

theorem retire_quarantines : w.withdrawAll.pump.Quarantines base := by
  unfold withdrawAll
  split
  · refine Quarantines.mono hw (by simp) (by simp) (fun entry hentry ↦ ?_) (by simp)
      (fun ch p hch ↦ ?_)
    · simp [put, complete_puts _ _ entry hentry]
    · simpa using chan_mono w _ ch p hch
  · refine Quarantines.mono hw (by simp) (fun ch hch ↦ ?_) (fun entry hentry ↦ ?_) (by simp)
      (fun ch p hch ↦ ?_)
    · simp [hch]
    · simpa using complete_puts _ _ entry hentry
    · simpa using chan_mono w _ ch p hch

/-- A retry that finds its slot held is under way. -/
theorem retry_quarantines : w.retry.pump.Quarantines base := by
  have hanswer (value : Result G V E) : (w.answer .retry value).pump.Quarantines base := by
    refine Quarantines.mono hw (by simp [answer]) (by simp [answer])
      (fun entry hentry ↦ ?_) (by simp [answer]) (fun ch p hch ↦ ?_)
    · simp [answer, put, hentry]
    · simpa [answer] using chan_mono w _ ch p hch
  unfold retry
  dsimp only
  split
  · exact hanswer _
  · split
    · refine ⟨?_, .inr (.inl ⟨w.chans.length, hw.1, ?_, ?_⟩)⟩
      · have := hw.1
        simp
        omega
      · simp
      · simp
    · exact hanswer _

theorem withdraw_quarantines (hphase : w.slot.phase ≠ .held) (k : ℕ) (r : Resource G V)
    (stale : List ℕ) : ({ w with stale }.withdraw k r).Quarantines base := by
  obtain ⟨hslot, hchans, -, hputs⟩ := withdraw_frame (w := { w with stale }) k r
  refine Quarantines.mono hw (fun h ↦ absurd h hphase) ?_ ?_ ?_ ?_
  · rw [hslot.1]
    exact fun _ h ↦ h
  · rw [hputs]
    exact fun _ h ↦ h
  · exact Nat.le_of_eq (congrArg length hchans).symm
  · rw [hchans]
    exact fun _ _ h ↦ h

theorem plan_quarantines [DecidableEq G] (k : ℕ) (valid : Check E) :
    (w.plan k valid).Quarantines base := by
  unfold plan
  split
  · exact Quarantines.mono hw id (fun _ h ↦ h) (fun _ h ↦ h) (Nat.le_refl _) (fun _ _ h ↦ h)
  · next hheld =>
    split
    · unfold recover
      split
      · exact Quarantines.mono hw id (fun _ h ↦ h) (fun _ h ↦ h) (Nat.le_refl _) (fun _ _ h ↦ h)
      · exact hold_quarantines hw _ _ _
    · split
      · split
        · split
          · exact hold_quarantines hw _ _ _
          · exact withdraw_quarantines hw hheld k _ _
          · split
            · refine Quarantines.mono hw (fun h ↦ absurd h hheld) (by simp)
                (fun entry hentry ↦ ?_) (by simp) (by simp)
              exact complete_puts _ _ entry hentry
            · exact Quarantines.mono hw (fun h ↦ absurd h hheld) (by simp) (by simp) (by simp)
                (by simp)
        · exact withdraw_quarantines hw hheld k _ w.stale
      · exact withdraw_quarantines hw hheld k _ w.stale
      · split
        · obtain ⟨hbase, hheld' | ⟨ch, hle, hch, hdrain⟩ | ⟨ch, hle, hch, hput⟩⟩ := hw
          · exact absurd hheld' hheld
          · exact ⟨by simpa using hbase, .inr (.inr ⟨ch, hle, by simpa using hch,
              mem_putAll.mpr (.inr ⟨rfl, hdrain⟩)⟩)⟩
          · exact ⟨by simpa using hbase, .inr (.inr ⟨ch, hle, by simpa using hch,
              mem_putAll.mpr (.inl hput)⟩)⟩
        · next hdrains =>
          have hnone (ch : ℕ) : ch ∉ w.slot.drains := by
            rw [show w.slot.drains = [] by simpa using hdrains]
            exact not_mem_nil
          split
          · split
            · exact hold_quarantines hw _ _ _
            · exact Quarantines.mono hw (fun h ↦ absurd h hheld) (by simp) (by simp) (by simp)
                (by simp)
            · refine Quarantines.mono hw (fun h ↦ absurd h hheld) (by simp)
                (fun entry hentry ↦ ?_) (by simp) (by simp)
              exact complete_puts _ _ entry hentry
          · refine Quarantines.mono hw (fun h ↦ absurd h hheld)
              (fun ch hch ↦ absurd hch (hnone ch)) (fun entry hentry ↦ ?_) (by simp) (by simp)
            exact mem_putAll.mpr (.inl hentry)

/-- A callback returns, in a slot that is not held. -/
theorem return_quarantines (hphase : w.slot.phase ≠ .held)
    (hdrains : w'.slot.drains = w.slot.drains) (hchans : w'.chans = w.chans)
    (hputs : ∀ entry ∈ w.puts, entry ∈ w'.puts) : w'.Quarantines base :=
  Quarantines.mono hw (fun h ↦ absurd h hphase) (fun _ h ↦ hdrains ▸ h) hputs
    (Nat.le_of_eq (congrArg length hchans).symm) fun _ _ h ↦ hchans ▸ h

end

theorem step_quarantines [DecidableEq G] [DecidableEq V] {base : ℕ} (hsound : w.Sound)
    (hw : w.Quarantines base) (event : Event G V E) : (w.step event).Quarantines base := by
  have hreturn {k : ℕ} {worker : Worker G V E} (hk : w.workers[k]? = some worker)
      (hphase : w.At worker → w.slot.phase ≠ .held) (w' : World G V E)
      (hdrains : w'.slot.drains = w.slot.drains) (hchans : w'.chans = w.chans)
      (hputs : ∀ entry ∈ w.puts, entry ∈ w'.puts) : w'.Quarantines base := by
    obtain ⟨-, -, -, hat⟩ := worker_at hsound.toOwns hk
    exact return_quarantines hw (hphase hat) hdrains hchans hputs
  have hopening (op : Op G) (hat : w.At (.opening op)) : w.slot.phase ≠ .held := by
    simp [hat.1]
  refine step_cases (motive := fun w ↦ w.Quarantines base) event hw (enter_quarantines hw)
    (retire_quarantines hw) (retry_quarantines hw)
    (fun k valid _ ↦ plan_quarantines hw k valid) (fun k _ _ _ _ ↦ hold_quarantines hw _ _ k)
    (fun k _ _ hk ↦ hreturn hk And.left _ rfl rfl fun _ h ↦ h)
    (fun k _ hk ↦ hreturn hk And.left _ rfl rfl fun _ h ↦ h)
    (fun k _ hk ↦ hreturn hk And.left _ rfl rfl fun _ h ↦ h)
    (fun k _ hk ↦ hreturn hk And.left _ rfl rfl fun _ h ↦ h)
    (fun k op hk _ ↦ hreturn hk (hopening op) _ rfl rfl fun _ h ↦ h)
    fun k op hk error ↦ ?_
  refine hreturn hk (hopening op) _ ?_ ?_ fun entry hentry ↦ ?_
  · simp only [resume_slot, complete_frame, World.swap]
    split <;> rfl
  · simp
  · exact complete_puts _ _ entry hentry

theorem run_quarantines [DecidableEq G] [DecidableEq V] {base : ℕ} (hsound : w.Sound)
    (hw : w.Quarantines base) (events : List (Event G V E)) :
    (run step w events).Sound ∧ (run step w events).Quarantines base :=
  run_preserves (fun w : World G V E ↦ w.Sound ∧ w.Quarantines base)
    (fun _ event h ↦ ⟨step_sound h.1 event, step_quarantines h.1 h.2 event⟩) ⟨hsound, hw⟩ events

/-- From a held slot on, nothing is opened before a retry has succeeded. -/
theorem held_retries [DecidableEq G] [DecidableEq V] (hsound : w.Sound)
    (hheld : w.slot.phase = .held) (events : List (Event G V E)) {event : Event G V E} {op : ℕ}
    (hopen : ((run step w events).step event).calls = .open op :: (run step w events).calls) :
    ∃ ch, w.chans.length ≤ ch ∧ (run step w events).chans[ch]? = some .retry ∧
      (ch, .done) ∈ (run step w events).puts := by
  obtain ⟨hsound', -, hquarantine⟩ := run_quarantines hsound ⟨Nat.le_refl _, .inl hheld⟩ events
  rcases step_calls hsound' event with hsame | ⟨call, hcall, hallows⟩
  · rw [hsame] at hopen
    exact absurd (congrArg length hopen) (by simp)
  · obtain rfl := (cons.inj (hcall.symm.trans hopen)).1
    obtain ⟨-, -, hphase, hdrains⟩ := hallows
    rcases hquarantine with hheld' | ⟨ch, -, -, hdrain⟩ | hput
    · exact absurd hheld' hphase
    · rw [hdrains] at hdrain
      exact nomatch hdrain
    · exact hput

end

/-! ## Rest -/

section

variable {G V E : Type} {w : World G V E}

/-- The event is the return of the callback that the worker is in, or its next plan. -/
def World.Works (w : World G V E) : Event G V E → Prop
  | .plan k _ => w.workers[k]? = some .planning
  | .published k _ => ∃ op value, w.workers[k]? = some (.publishing op value)
  | .unpublished k _ => ∃ r, w.workers[k]? = some (.unpublishing r)
  | .disposed k _ => ∃ r, w.workers[k]? = some (.disposing r)
  | .recovered k _ => ∃ failedOpen, w.workers[k]? = some (.recovering failedOpen)
  | .opened k _ => ∃ op, w.workers[k]? = some (.opening op)
  | _ => False

/-- A request that was found not to be valid is not found valid later. -/
def World.Steady (w : World G V E) : Event G V E → Prop
  | .plan _ .yes => ∀ op, w.slot.desired = some op → op.id ∉ w.stale
  | _ => True

def World.fresh (w : World G V E) (id : ℕ) : Bool :=
  w.slot.desired.map Op.id = some id && id ∉ w.stale

/-- The number of steps that a worker can take once there is no resource. -/
def World.requestRank (w : World G V E) : ℕ :=
  (if w.slot.drains = [] then 0 else 1) +
    match w.slot.desired with
    | some op => if op.id ∈ w.stale then 2 else 9
    | none => 1

def World.planRank (w : World G V E) : ℕ :=
  if w.slot.phase = .held then 1
  else if w.slot.phase = .recovering then w.requestRank + 2
  else match w.slot.resource with
    | some r => if w.fresh r.owner.id then if r.published then 5 else 7 else w.requestRank + 3
    | none => w.requestRank

def World.workerRank (w : World G V E) : Worker G V E → ℕ
  | .planning => w.planRank
  | .publishing _ _ => w.planRank + 1
  | .unpublishing _ => w.requestRank + 2
  | .disposing _ => w.requestRank + 1
  | .recovering _ => w.requestRank + 1
  | .opening op => if w.fresh op.id then 8 else w.requestRank + 4

/-- A bound on the steps until the worker ends. -/
def World.rank (w : World G V E) : ℕ :=
  match w.workers with
  | worker :: _ => w.workerRank worker
  | [] => 0

theorem requestRank_pos : 0 < w.requestRank := by
  unfold requestRank
  split <;> split <;> (try split) <;> omega

theorem requestRank_le : w.requestRank ≤ 10 := by
  unfold requestRank
  split <;> split <;> (try split) <;> omega

theorem planRank_le : w.planRank ≤ 13 := by
  have hrequest := requestRank_le (w := w)
  unfold planRank
  split
  · omega
  · split
    · omega
    · split
      · split <;> (try split) <;> omega
      · omega

theorem planRank_pos : 0 < w.planRank := by
  have hrequest := requestRank_pos (w := w)
  unfold planRank
  split
  · omega
  · split
    · omega
    · split
      · split <;> (try split) <;> omega
      · exact hrequest

theorem workerRank_pos (worker : Worker G V E) : 0 < w.workerRank worker := by
  cases worker with
  | planning => exact planRank_pos
  | opening op =>
    simp only [workerRank]
    split <;> omega
  | _ => exact succ_pos _

theorem rank_le : w.rank ≤ 14 := by
  have hplan := planRank_le (w := w)
  have hrequest := requestRank_le (w := w)
  unfold rank
  split
  · next worker _ _ =>
    cases worker with
    | opening op =>
      simp only [workerRank]
      split <;> omega
    | _ =>
      simp only [workerRank]
      omega
  · omega

theorem exit_rank {worker : Worker G V E} (hone : w.workers = [worker]) : (w.exit 0).rank = 0 := by
  simp [rank, hone]

theorem resume_rank {worker next : Worker G V E} (hone : w.workers = [worker]) :
    (w.resume 0 next).rank = w.workerRank next := by
  simp only [rank, resume, hone]
  cases next <;> rfl

theorem withdraw_rank {worker : Worker G V E} (hone : w.workers = [worker]) (r : Resource G V) :
    (w.withdraw 0 r).rank ≤ w.requestRank + 2 := by
  unfold withdraw
  split
  · exact Nat.le_of_eq (resume_rank hone)
  · refine Nat.le_trans (Nat.le_of_eq (resume_rank hone)) ?_
    change w.requestRank + 1 ≤ _
    omega

/-- The rank of a slot that plans without a resource. -/
theorem planRank_none (hheld : w.slot.phase ≠ .held) (hrecovering : w.slot.phase ≠ .recovering)
    (hresource : w.slot.resource = none) : w.planRank = w.requestRank := by
  simp only [planRank, if_neg hheld, if_neg hrecovering, hresource]

theorem planRank_some (hheld : w.slot.phase ≠ .held) (hrecovering : w.slot.phase ≠ .recovering)
    {r : Resource G V} (hresource : w.slot.resource = some r) :
    w.planRank = if w.fresh r.owner.id then if r.published then 5 else 7
      else w.requestRank + 3 := by
  simp only [planRank, if_neg hheld, if_neg hrecovering, hresource]

theorem plan_rank [DecidableEq G] (hw : w.Sound) {k : ℕ} (hk : w.workers[k]? = some .planning)
    {valid : Check E} (hsteady : w.Steady (V := V) (.plan k valid)) :
    (w.plan k valid).rank < w.rank := by
  obtain ⟨-, rfl, hone, -⟩ := worker_at hw.toOwns hk
  have hrank : w.rank = w.planRank := by simp [rank, hone, workerRank]
  have hexit (u : World G V E) (hu : u.workers = [.planning]) : (u.exit 0).rank < w.rank := by
    rw [exit_rank hu, hrank]
    exact planRank_pos
  have hhold (error : Failure E) (failedOpen : Option (FailedOpen E)) :
      ((w.hold error failedOpen).exit 0).rank < w.rank := by
    exact hexit _ (by simpa using hone)
  unfold plan
  split
  · exact hexit _ hone
  · next hheld =>
    split
    · next hrecovering =>
      unfold recover
      split
      · refine Nat.lt_of_le_of_lt (Nat.le_of_eq (@resume_rank _ _ _ _ .planning _ hone)) ?_
        change w.requestRank + 1 < _
        rw [hrank, planRank, if_neg hheld, if_pos hrecovering]
        omega
      · exact hhold _ _
    · next hrecovering =>
      split
      · next r op hr hop =>
        have hplan := planRank_some hheld hrecovering hr
        have hfresh : w.fresh r.owner.id =
            (decide (op.id = r.owner.id) && decide (r.owner.id ∉ w.stale)) := by
          simp [fresh, hop]
        split
        · next hid =>
          have hdrains := (hw.fence r op hr hop hid).2
          split
          · exact hhold _ _
          · have hle := withdraw_rank (w := { w with stale := op.id :: w.stale }) hone r
            have hnew : requestRank { w with stale := op.id :: w.stale } = 2 := by
              simp [requestRank, hop, hdrains]
            have hold : w.requestRank = if op.id ∈ w.stale then 2 else 9 := by
              simp [requestRank, hop, hdrains]
            rw [hrank, hplan]
            split <;> (try split) <;> (try split at hold) <;> omega
          · have hmem : op.id ∉ w.stale := hsteady op hop
            have htrue : w.fresh r.owner.id := by
              rw [hfresh]
              simp [← hid, hmem]
            split
            · exact hexit _ (by simpa using hone)
            · next hpublished =>
              refine Nat.lt_of_le_of_lt (Nat.le_of_eq (@resume_rank _ _ _ _ .planning _ hone)) ?_
              rw [hrank, hplan, if_pos htrue, if_neg hpublished]
              have hnext (u : World G V E) (hslot : u.slot =
                  { w.slot with resource := some { r with published := true } })
                  (hstale : u.stale = w.stale) : u.planRank = 5 := by
                have htrue' : u.fresh r.owner.id := by
                  simpa [fresh, hslot, hstale] using htrue
                rw [planRank_some (r := { r with published := true }) (by simpa [hslot] using hheld)
                  (by simpa [hslot] using hrecovering) (by simp [hslot])]
                simp [htrue']
              exact Nat.lt_of_le_of_lt (Nat.succ_le_succ (Nat.le_of_eq (hnext _ rfl rfl)))
                (by decide)
        · next hid =>
          have hle := withdraw_rank hone r
          rw [hrank, hplan, hfresh, if_neg (by simp [hid])]
          omega
      · next r hr hnone =>
        have hle := withdraw_rank hone r
        rw [hrank, planRank_some hheld hrecovering hr, if_neg (by simp [fresh, hnone])]
        omega
      · next hnone =>
        have hplan := planRank_none hheld hrecovering hnone
        split
        · next hdrains =>
          have hnew : rank ((w.swap fun s ↦ { s with drains := [] }).putAll w.slot.drains
              .done) = planRank ((w.swap fun s ↦ { s with drains := [] }).putAll
                w.slot.drains .done) := by
            simp [rank, hone, workerRank]
          rw [hnew, planRank_none (by simpa using hheld) (by simpa using hrecovering)
            (by simpa using hnone), hrank, hplan]
          simp [requestRank, hdrains]
        · next hdrains =>
          have hempty : w.slot.drains = [] := by simpa using hdrains
          split
          · next op hop =>
            split
            · exact hhold _ _
            · have hmem : op.id ∉ w.stale := hsteady op hop
              refine Nat.lt_of_le_of_lt (Nat.le_of_eq (@resume_rank _ _ _ _ .planning _ hone)) ?_
              rw [hrank, hplan]
              have hfresh : fresh ((w.swap fun s ↦ { s with phase := .opening }).call
                  (.open op.id)) op.id := by
                simp [fresh, hop, hmem]
              simp only [workerRank, hfresh, if_true]
              simp [requestRank, hop, hempty, hmem]
            · have hnew : rank (({ w with stale := op.id :: w.stale }.swap fun s ↦
                  { s with desired := none }).complete (some op) (.failed (some .superseded))) =
                  1 := by
                simp [rank, hone, workerRank, planRank, hheld, hrecovering, hnone,
                  requestRank, hempty]
              have hold : w.requestRank = if op.id ∈ w.stale then 2 else 9 := by
                simp [requestRank, hop, hempty]
              rw [hnew, hrank, hplan, hold]
              split <;> omega
          · exact hexit _ (by simpa using hone)

/-- Every step of the worker lowers its rank. -/
theorem works_rank [DecidableEq G] [DecidableEq V] (hw : w.Sound) {event : Event G V E}
    (hworks : w.Works event) (hsteady : w.Steady event) : (w.step event).rank < w.rank := by
  have hexit {worker : Worker G V E} (hone : w.workers = [worker]) (u : World G V E)
      (hu : u.workers = w.workers) : (u.exit 0).rank < w.rank := by
    rw [exit_rank (hu.trans hone)]
    simp only [rank, hone]
    exact workerRank_pos worker
  have hresume {worker next : Worker G V E} (hone : w.workers = [worker]) (u : World G V E)
      (hu : u.workers = w.workers) (hlt : u.workerRank next < w.workerRank worker) :
      (u.resume 0 next).rank < w.rank := by
    rw [resume_rank (hu.trans hone)]
    simpa only [rank, hone] using hlt
  cases event with
  | request r => exact hworks.elim
  | retire => exact hworks.elim
  | retryCleanup => exact hworks.elim
  | plan k valid =>
    have hk : w.workers[k]? = some .planning := hworks
    simp only [step, hk]
    exact plan_rank hw hk hsteady
  | published k thrown =>
    obtain ⟨op, value, hk⟩ := hworks
    obtain ⟨-, rfl, hone, -⟩ := worker_at hw.toOwns hk
    simp only [step, hk]
    cases thrown with
    | none => exact hresume hone w rfl (lt_succ_self _)
    | some e => exact hexit hone _ (by simp)
  | unpublished k thrown =>
    obtain ⟨r, hk⟩ := hworks
    obtain ⟨-, rfl, hone, -⟩ := worker_at hw.toOwns hk
    simp only [step, hk]
    cases thrown with
    | none => exact hresume hone _ (by simp) (lt_succ_self _)
    | some e => exact hexit hone _ (by simp)
  | disposed k cleanup =>
    obtain ⟨r, hk⟩ := hworks
    obtain ⟨-, rfl, hone, hphase, hr, -⟩ := worker_at hw.toOwns hk
    simp only [step, hk]
    cases cleanup with
    | confirmed =>
      refine hresume hone _ rfl ?_
      have hrecovering : w.slot.phase ≠ .recovering := fun h ↦ by
        cases hr.symm.trans (hw.recovering h)
      refine Nat.lt_of_le_of_lt (Nat.le_of_eq (planRank_none hphase hrecovering rfl)) ?_
      exact Nat.lt_succ_self _
    | _ => exact hexit hone _ (by simp)
  | recovered k cleanup =>
    obtain ⟨failedOpen, hk⟩ := hworks
    obtain ⟨-, rfl, hone, -, hresource⟩ := worker_at hw.toOwns hk
    simp only [step, hk]
    cases cleanup with
    | confirmed =>
      refine hresume hone _ rfl ?_
      refine Nat.lt_of_le_of_lt (Nat.le_of_eq (planRank_none (by rintro ⟨⟩)
        (by rintro ⟨⟩) hresource)) ?_
      exact Nat.lt_succ_self _
    | _ => exact hexit hone _ (by simp)
  | opened k opening =>
    obtain ⟨op, hk⟩ := hworks
    obtain ⟨-, rfl, hone, hphase, hresource, -, hsame⟩ := worker_at hw.toOwns hk
    have hheld : w.slot.phase ≠ .held := by simp [hphase]
    have hrecovering : w.slot.phase ≠ .recovering := by simp [hphase]
    simp only [step, hk]
    cases opening with
    | value v =>
      refine hresume hone _ rfl ?_
      refine Nat.lt_of_le_of_lt (Nat.le_of_eq (planRank_some (by exact hheld) (by exact hrecovering)
        (by rfl))) ?_
      change (if w.fresh op.id then 7 else w.requestRank + 3) <
        if w.fresh op.id then 8 else w.requestRank + 4
      split <;> omega
    | error e clean =>
      simp only [opened]
      split
      · cases clean with
        | yes =>
          refine hresume hone _ (by simp) ?_
          have hplan (u : World G V E) (hstale : u.stale = w.stale) (hslot : u.slot =
              if w.slot.desired.map Op.id = some op.id then { w.slot with desired := none }
              else w.slot) : u.planRank =
              if w.slot.desired.map Op.id = some op.id then
                (if w.slot.drains = [] then 0 else 1) + 1 else w.requestRank := by
            by_cases hdesired : w.slot.desired.map Op.id = some op.id
            · rw [if_pos hdesired] at hslot ⊢
              simp [planRank, requestRank, hslot, hphase, hresource]
            · rw [if_neg hdesired] at hslot ⊢
              simp [planRank, requestRank, hslot, hstale, hphase, hresource]
          rw [workerRank, hplan _ (by simp) (by simp only [complete_frame, swap_slot])]
          simp only [workerRank]
          have hmatch (h : w.fresh op.id) : w.slot.desired.map Op.id = some op.id := by
            simp only [fresh, Bool.and_eq_true, decide_eq_true_eq] at h
            exact h.1
          split
          · split <;> split <;> omega
          · next hdesired =>
            rw [if_neg fun h ↦ hdesired (hmatch h)]
            omega
        | _ => exact hexit hone _ (by simp)
      · exact hexit hone _ (by simp)
    | _ => exact hexit hone _ (by simp)

variable [DecidableEq G] [DecidableEq V]

/-- The worker comes to rest, as long as no request becomes valid again. -/
theorem works_rest (hw : w.Sound) {events : List (Event G V E)}
    (halong : Along step (fun w event ↦ w.Works event ∧ w.Steady event) w events) :
    events.length ≤ w.rank := by
  induction events generalizing w with
  | nil => exact zero_le _
  | cons event events ih =>
    obtain ⟨⟨hworks, hsteady⟩, hlater⟩ := halong
    have hlt := works_rank hw hworks hsteady
    have hle := ih (step_sound hw event) hlater
    rw [length_cons]
    omega

omit [DecidableEq G] [DecidableEq V] in
/-- While the slot runs there is a worker with a next step. -/
theorem runs_works (hw : w.Sound) (hruns : w.slot.running) :
    ∃ event : Event G V E, w.Works event ∧ w.Steady event := by
  rcases hw.workers with ⟨hstopped, -⟩ | ⟨-, worker, hone, -⟩
  · exact nomatch hstopped.symm.trans hruns
  · have hk : w.workers[0]? = some worker := by
      rw [hone]
      rfl
    cases worker with
    | planning => exact ⟨.plan 0 .no, hk, trivial⟩
    | publishing op value => exact ⟨.published 0 none, ⟨op, value, hk⟩, trivial⟩
    | unpublishing r => exact ⟨.unpublished 0 none, ⟨r, hk⟩, trivial⟩
    | disposing r => exact ⟨.disposed 0 .confirmed, ⟨r, hk⟩, trivial⟩
    | recovering failedOpen => exact ⟨.recovered 0 .confirmed, ⟨failedOpen, hk⟩, trivial⟩
    | opening op => exact ⟨.opened 0 .nothing, ⟨op, hk⟩, trivial⟩

/-- The slot after any interleaving of calls, worker and host. -/
abbrev reached (events : List (Event G V E)) : World G V E := run World.step {} events

omit w in
theorem reached_sound (events : List (Event G V E)) : (reached events).Sound :=
  run_preserves World.Sound (fun _ event hw ↦ step_sound hw event) init_sound events

example : (reached (G := ℕ) (V := ℕ) (E := ℕ) [.request ⟨some 3, true, false, false⟩,
    .plan 0 .yes, .opened 0 (.value 7), .plan 0 .yes, .published 0 none, .plan 0 .yes]).puts =
    [(0, .ready 7 3)] := by decide

end

end Simmis.Desktop.ResourceSlot
