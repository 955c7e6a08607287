import Simmis.Library.Runs
import Mathlib.Data.List.Range

/-!
# Optimistic writes

A browser write is shown at once, as a prediction on the overlay of its replica, and made durable by
an RPC. The RPCs of one overlay wait for each other, and what an RPC yields settles its prediction.
The overlay comes with the database library and is a parameter here.
-/

namespace Simmis.Desktop.OptimisticWrite

open List Option Runs

/-- What `send!` yields: a map, perhaps with `:max-tx`, an error, nil or other. -/
inductive Answer
  | reply (maxTx : Option ℕ)
  | error
  | nothing
  | other
deriving DecidableEq, Repr

/-- What a rejected prediction or `on-failure` is told: a value as it came, or the
`Write was not acknowledged` error around it. -/
inductive Report
  | plain (answer : Answer)
  | unacknowledged (response : Answer)
deriving DecidableEq, Repr

inductive Status
  | pending
  | acked
  | rejected
  | dropped
deriving DecidableEq, Repr

def Status.isOpen : Status → Bool
  | .pending | .acked => true
  | .rejected | .dropped => false

/-- A prediction carries the number of the write that its predicate closes over. -/
structure Entry where
  test : ℕ
  status : Status
deriving DecidableEq, Repr

def Entry.retest (test : ℕ → Bool) (entry : Entry) : Entry :=
  if entry.status.isOpen && test entry.test then { entry with status := .dropped } else entry

/-- The operations of an optimistic overlay. A prediction is pending until it is acknowledged or
rejected, and tested when the base changes. -/
structure Optimistic (O I T : Type) [DecidableEq I] where
  entry : O → I → Option Entry
  predict : O → T → ℕ → O × I
  ack : O → I → Answer → O
  reject : O → I → Report → O
  abandon : O → I → O
  rebase : O → (ℕ → Bool) → O
  predict_fresh : ∀ o tx k, entry o (predict o tx k).2 = none
  predict_entry : ∀ o tx k j, entry (predict o tx k).1 j =
    if j = (predict o tx k).2 then some ⟨k, .pending⟩ else entry o j
  ack_entry : ∀ o i r k, entry o i = some ⟨k, .pending⟩ → ∀ j, entry (ack o i r) j =
    if j = i then some ⟨k, .acked⟩ else entry o j
  reject_entry : ∀ o i r k, entry o i = some ⟨k, .pending⟩ → ∀ j, entry (reject o i r) j =
    if j = i then some ⟨k, .rejected⟩ else entry o j
  abandon_entry : ∀ o i k, entry o i = some ⟨k, .acked⟩ → ∀ j, entry (abandon o i) j =
    if j = i then some ⟨k, .dropped⟩ else entry o j
  rebase_entry : ∀ o test j, entry (rebase o test) j = (entry o j).map (Entry.retest test)

/-- The overlay that keeps every prediction it was given, in order. -/
def Optimistic.log : Optimistic (List Entry) ℕ Unit where
  entry o i := o[i]?
  predict o _ k := (o ++ [⟨k, .pending⟩], o.length)
  ack o i _ := o.modify i fun e ↦ { e with status := .acked }
  reject o i _ := o.modify i fun e ↦ { e with status := .rejected }
  abandon o i := o.modify i fun e ↦ { e with status := .dropped }
  rebase o test := o.map (Entry.retest test)
  predict_fresh o _ _ := List.getElem?_eq_none (Nat.le_refl _)
  predict_entry o _ k j := by
    dsimp only
    split
    · next heq => rw [heq, List.getElem?_concat_length]
    · next hne => grind
  ack_entry o i _ k hi j := by grind
  reject_entry o i _ k hi j := by grind
  abandon_entry o i k hi j := by grind
  rebase_entry o test j := List.getElem?_map

/-- Does a base at `db` hold the write the server reported at head `maxTx`? -/
def caughtUp (db maxTx : Option ℕ) : Bool :=
  match maxTx, db with
  | some t, some b => t ≤ b
  | _, _ => false

def Answer.maxTx : Answer → Option ℕ
  | .reply t => t
  | _ => none

def failure : Answer → Bool
  | .nothing => true
  | .error => true
  | .other => true
  | .reply t => t.isNone

def asError : Answer → Report
  | .error => .plain .error
  | r => .unacknowledged r

theorem failure_eq (a : Answer) : failure a = a.maxTx.isNone := by
  cases a <;> rfl

/-- `ended none` is a `send!` that threw. -/
inductive Phase
  | queued
  | sent
  | ended (answer : Option Answer)
deriving DecidableEq, Repr

def Phase.isEnded : Phase → Bool
  | .ended _ => true
  | _ => false

/-- One call: its prediction, if any, whether it has an `on-failure`, what it waits for, and what
that yielded. -/
structure Write (I : Type) where
  prediction : Option I
  notify : Bool
  previous : Option ℕ
  phase : Phase := .queued
  head : Option ℕ := none
  result : Option Answer := none

/-- The overlay, the heads of its base, all writes in call order, and what has happened. -/
structure World (O I : Type) where
  overlay : O
  base : Option ℕ
  bases : List (Option ℕ)
  writes : List (Write I)
  tail : Option ℕ
  started : List ℕ
  notified : List (ℕ × Report)

def World.init {O I : Type} (o : O) (base : Option ℕ) : World O I :=
  ⟨o, base, [base], [], none, [], []⟩

inductive Event (T : Type)
  | predictRemote (tx : T) (notify : Bool)
  | sendInOrder (notify : Bool)
  | start (write : ℕ)
  | throw (write : ℕ)
  | answer (write : ℕ) (answer : Answer)
  | sync (base : Option ℕ)

section

variable {O I T : Type} [DecidableEq I] (lib : Optimistic O I T) (w : World O I) (k : ℕ)

def World.update (f : Write I → Write I) : World O I :=
  { w with writes := w.writes.modify k f }

/-- `in-order!` up to its first park. -/
def World.inOrder (prediction : Option I) (notify : Bool) : World O I :=
  { w with
    writes := w.writes ++ [{ prediction, notify, previous := w.tail }]
    tail := some w.writes.length }

/-- The `done` channel of a write is closed. -/
def World.finished : Bool := w.writes[k]?.any fun write ↦ write.phase.isEnded

def World.ready : Bool :=
  w.writes[k]?.any fun write ↦ write.phase = .queued && write.previous.all w.finished

def World.launch (phase : Phase) : World O I :=
  if w.ready k then
    { w with started := w.started ++ [k] }.update k fun write ↦ { write with phase }
  else w

def World.onFailure (notify : Bool) (report : Report) : World O I :=
  if notify then { w with notified := w.notified ++ [(k, report)] } else w

/-- The continuation of `send-in-order!`. -/
def World.settleSend (notify : Bool) (r : Answer) : World O I :=
  if failure r then w.onFailure k notify (asError r)
  else w.update k fun write ↦ { write with result := some r }

/-- The continuation of `predict-remote!`. -/
def World.settlePrediction (i : I) (notify : Bool) (r : Answer) : World O I :=
  if failure r then
    { w with overlay := lib.reject w.overlay i (asError r) }.onFailure k notify (.plain r)
  else
    let acked := lib.ack w.overlay i r
    { w with
      overlay := if caughtUp w.base r.maxTx then lib.abandon acked i else acked }.update k
        fun write ↦ { write with head := r.maxTx, result := some r }

/-- An RPC yields: its `done` channel is closed, and the continuation runs. -/
def World.settle (r : Answer) : World O I :=
  match w.writes[k]? with
  | some write =>
    if write.phase = .sent then
      let done := w.update k fun write ↦ { write with phase := .ended (some r) }
      match write.prediction with
      | none => done.settleSend k write.notify r
      | some i => done.settlePrediction lib k i write.notify r
    else w
  | none => w

/-- The predicate of a prediction reads the head atom of its write. -/
def World.test (base : Option ℕ) (k : ℕ) : Bool :=
  w.writes[k]?.any fun write ↦ caughtUp base write.head

def World.step : Event T → World O I
  | .predictRemote tx notify =>
    let (overlay, i) := lib.predict w.overlay tx w.writes.length
    { w with overlay }.inOrder (some i) notify
  | .sendInOrder notify => w.inOrder none notify
  | .start k => w.launch k .sent
  | .throw k => w.launch k (.ended none)
  | .answer k r => w.settle lib k r
  | .sync base =>
    { w with overlay := lib.rebase w.overlay (w.test base), base, bases := base :: w.bases }

end

/-- The write before in the queue. -/
def before : ℕ → Option ℕ
  | 0 => none
  | k + 1 => some k

/-- The head that an RPC reported. -/
def Phase.head : Phase → Option ℕ
  | .ended (some r) => r.maxTx
  | _ => none

/-- The RPC has yielded something that its continuation takes for a failure. -/
def Phase.refused : Phase → Bool
  | .ended (some r) => failure r
  | _ => false

section

variable {O I T : Type} [DecidableEq I] (lib : Optimistic O I T)

/-- An acknowledged prediction is there until the base reaches its head, and no longer. -/
def World.Reconciles (w : World O I) (t : Option ℕ) (status : Status) : Prop :=
  status = .acked ∧ caughtUp w.base t = false ∨
    status = .dropped ∧ ∃ base ∈ w.bases, caughtUp base t

/-- Where a prediction is once its RPC has come as far as `phase`. -/
def World.Matches (w : World O I) (phase : Phase) (status : Status) : Prop :=
  match phase with
  | .ended (some r) => if failure r then status = .rejected else w.Reconciles r.maxTx status
  | _ => status = .pending

def World.reports (w : World O I) (k : ℕ) : ℕ := (w.notified.map Prod.fst).count k

structure World.Fits (w : World O I) (k : ℕ) (write : Write I) : Prop where
  previous : write.previous = before k
  head : write.prediction.isSome → write.head = write.phase.head
  entry : ∀ i, write.prediction = some i →
    ∃ status, lib.entry w.overlay i = some ⟨k, status⟩ ∧ w.Matches write.phase status
  reports : w.reports k = if write.notify && write.phase.refused then 1 else 0

/-- The writes started are the first ones, all of them but the last have ended, and each write is
where its own answer put it. -/
structure World.Sound (w : World O I) : Prop where
  tail : w.tail = before w.writes.length
  base : w.base ∈ w.bases
  started : w.started = List.range w.started.length
  count : w.started.length ≤ w.writes.length
  waiting : ∀ k write, w.writes[k]? = some write → (write.phase = .queued ↔ w.started.length ≤ k)
  serial : ∀ k write, w.writes[k]? = some write → k + 1 < w.started.length → write.phase.isEnded
  fits : ∀ k write, w.writes[k]? = some write → w.Fits lib k write
  unreported : ∀ k, w.writes.length ≤ k → w.reports k = 0

end

/-! ## Steps -/

theorem retest_eq (test : ℕ → Bool) (entry : Entry) :
    entry.retest test = ⟨entry.test, (entry.retest test).status⟩ := by
  unfold Entry.retest
  split <;> rfl

theorem refused_queued : Phase.queued.refused = false := rfl

theorem Phase.head_of_refused {phase : Phase} (hrefused : phase.refused) : phase.head = none := by
  cases phase with
  | ended answer =>
    cases answer with
    | some r =>
      simp only [Phase.refused, failure_eq, isNone_iff_eq_none] at hrefused
      exact hrefused
    | none => rfl
  | _ => rfl

section

variable {O I : Type} {w : World O I}

@[simp] theorem update_writes (k : ℕ) (f : Write I → Write I) :
    (w.update k f).writes = w.writes.modify k f := rfl

@[simp] theorem update_reports (k j : ℕ) (f : Write I → Write I) :
    (w.update k f).reports j = w.reports j := rfl

@[simp] theorem onFailure_frame (k : ℕ) (notify : Bool) (report : Report) :
    (w.onFailure k notify report).overlay = w.overlay ∧
      (w.onFailure k notify report).base = w.base ∧ (w.onFailure k notify report).bases = w.bases ∧
      (w.onFailure k notify report).writes = w.writes ∧
      (w.onFailure k notify report).tail = w.tail ∧
      (w.onFailure k notify report).started = w.started := by
  unfold World.onFailure
  split <;> simp

theorem onFailure_reports (k j : ℕ) (notify : Bool) (report : Report) :
    (w.onFailure k notify report).reports j = w.reports j + if j = k ∧ notify then 1 else 0 := by
  unfold World.onFailure World.reports
  cases notify with
  | false => simp
  | true =>
    rw [if_pos rfl, map_append, count_append]
    simp only [map_cons, map_nil, count_singleton, beq_iff_eq, and_true, eq_comm (a := k)]

theorem getElem?_update {k j : ℕ} {f : Write I → Write I} {write : Write I} :
    (w.writes.modify k f)[j]? = some write ↔
      ∃ old, w.writes[j]? = some old ∧ write = if k = j then f old else old := by
  rw [getElem?_modify]
  cases w.writes[j]? with
  | none => simp
  | some old => simp [eq_comm]

end

section

variable {O I T : Type} [DecidableEq I] {lib : Optimistic O I T} {w w' : World O I}

theorem init_sound (o : O) (base : Option ℕ) : (World.init o base : World O I).Sound lib where
  tail := rfl
  base := mem_singleton_self _
  started := rfl
  count := Nat.le_refl _
  waiting _ _ hwrite := nomatch hwrite
  serial _ _ hwrite := nomatch hwrite
  fits _ _ hwrite := nomatch hwrite
  unreported _ _ := rfl

/-- The invariant of a write looks at the overlay, the base and the reports only. -/
theorem Fits.congr {k : ℕ} {write : Write I} (hfits : w.Fits lib k write)
    (hentry : ∀ i status, lib.entry w.overlay i = some ⟨k, status⟩ →
      lib.entry w'.overlay i = some ⟨k, status⟩)
    (hbase : w'.base = w.base) (hbases : w'.bases = w.bases)
    (hreports : w'.reports k = w.reports k) : w'.Fits lib k write where
  previous := hfits.previous
  head := hfits.head
  entry i hi := by
    obtain ⟨status, hstatus, hmatches⟩ := hfits.entry i hi
    refine ⟨status, hentry i status hstatus, ?_⟩
    simpa only [World.Matches, World.Reconciles, hbase, hbases] using hmatches
  reports := hreports.trans hfits.reports

section

variable (hw : w.Sound lib)
include hw

theorem inOrder_sound {prediction : Option I} (notify : Bool)
    (hentry : ∀ i, prediction = some i → lib.entry w.overlay i = some ⟨w.writes.length, .pending⟩) :
    (w.inOrder prediction notify).Sound lib := by
  have hcases (k : ℕ) (write : Write I)
      (hwrite : (w.inOrder prediction notify).writes[k]? = some write) :
      w.writes[k]? = some write ∨
        k = w.writes.length ∧ write = { prediction, notify, previous := w.tail } := by
    simp only [World.inOrder] at hwrite
    grind
  have hcount := hw.count
  exact
    { tail := by simp [World.inOrder, before]
      base := hw.base
      started := hw.started
      count := by
        simp only [World.inOrder, length_append]
        omega
      waiting := fun k write hwrite ↦ by
        rcases hcases k write hwrite with hold | ⟨rfl, rfl⟩
        · exact hw.waiting k write hold
        · exact iff_of_true rfl hcount
      serial := fun k write hwrite hk ↦ by
        rcases hcases k write hwrite with hold | ⟨rfl, rfl⟩
        · exact hw.serial k write hold hk
        · exact absurd hk (by simp only [World.inOrder]; omega)
      fits := fun k write hwrite ↦ by
        rcases hcases k write hwrite with hold | ⟨rfl, rfl⟩
        · exact Fits.congr (hw.fits k write hold) (fun _ _ h ↦ h) rfl rfl rfl
        · exact
            { previous := hw.tail
              head := fun _ ↦ rfl
              entry := fun i hi ↦ ⟨.pending, hentry i hi, rfl⟩
              reports := by
                rw [refused_queued, Bool.and_false]
                exact hw.unreported _ (Nat.le_refl _) }
      unreported := fun k hk ↦ by
        simp only [World.inOrder, length_append, length_singleton] at hk
        exact hw.unreported k (by omega) }

theorem predict_sound (tx : T) (notify : Bool) :
    (w.step lib (.predictRemote tx notify)).Sound lib := by
  simp only [World.step]
  generalize hpredict : lib.predict w.overlay tx w.writes.length = predicted
  obtain ⟨o, i⟩ := predicted
  have hfresh := lib.predict_fresh w.overlay tx w.writes.length
  have hentry := lib.predict_entry w.overlay tx w.writes.length
  simp only [hpredict] at hfresh hentry ⊢
  have hkeep (j : I) (e : Entry) (he : lib.entry w.overlay j = some e) :
      lib.entry o j = some e := by
    rw [hentry, if_neg, he]
    rintro rfl
    exact nomatch hfresh.symm.trans he
  have hsound : World.Sound lib { w with overlay := o } :=
    { tail := hw.tail, base := hw.base, started := hw.started, count := hw.count
      waiting := hw.waiting, serial := hw.serial, unreported := hw.unreported
      fits := fun k write hwrite ↦
        Fits.congr (hw.fits k write hwrite) (fun j _ ↦ hkeep j _) rfl rfl rfl }
  refine inOrder_sound hsound notify fun j hj ↦ ?_
  obtain rfl := some.inj hj
  rw [hentry, if_pos rfl]

/-- The write that is ready is the next one, and every write before it has ended. -/
theorem ready_next {k : ℕ} (hready : w.ready k) :
    k = w.started.length ∧ (∃ write, w.writes[k]? = some write ∧ write.phase = .queued) ∧
      ∀ j write, w.writes[j]? = some write → j < k → write.phase.isEnded := by
  simp only [World.ready, Option.any_eq_true, Bool.and_eq_true, decide_eq_true_eq] at hready
  obtain ⟨write, hwrite, hqueued, hprevious⟩ := hready
  have hle : w.started.length ≤ k := (hw.waiting k write hwrite).mp hqueued
  have hfits := (hw.fits k write hwrite).previous
  have hended (j : ℕ) (hj : k = j + 1) : ∃ previous, w.writes[j]? = some previous ∧
      previous.phase.isEnded := by
    subst hj
    rw [hfits] at hprevious
    simpa [before, World.finished, Option.any_eq_true] using hprevious
  have hk : k = w.started.length := by
    cases k with
    | zero => exact (Nat.le_zero.mp hle).symm
    | succ j =>
      obtain ⟨previous, hprevious', hphase⟩ := hended j rfl
      have hnot : previous.phase ≠ .queued := by
        intro heq
        rw [heq] at hphase
        exact nomatch hphase
      have := mt (hw.waiting j previous hprevious').mpr hnot
      omega
  refine ⟨hk, ⟨write, hwrite, hqueued⟩, fun j other hother hj ↦ ?_⟩
  by_cases hlast : k = j + 1
  · obtain ⟨previous, hprevious', hphase⟩ := hended j hlast
    obtain rfl := some.inj (hother.symm.trans hprevious')
    exact hphase
  · exact hw.serial j other hother (by omega)

theorem launch_sound (k : ℕ) {phase : Phase} (hphase : phase = .sent ∨ phase = .ended none) :
    (w.launch k phase).Sound lib := by
  unfold World.launch
  split
  · next hready =>
    obtain ⟨hk, ⟨write, hwrite, hqueued⟩, hended⟩ := ready_next hw hready
    have hlt : k < w.writes.length := (List.getElem?_eq_some_iff.mp hwrite).1
    have hpending : phase.head = none ∧ phase.refused = false ∧ phase ≠ .queued ∧
        ∀ status, w.Matches phase status ↔ status = .pending := by
      rcases hphase with rfl | rfl <;> simp [Phase.head, Phase.refused, World.Matches]
    obtain ⟨hhead, hrefused, hne, hmatches⟩ := hpending
    exact
      { tail := by
          rw [update_writes, length_modify]
          exact hw.tail
        base := hw.base
        started := by
          simp only [World.update, length_append, length_singleton, range_succ,
            ← hk]
          rw [hk, ← hw.started]
        count := by
          simp only [World.update, length_append, length_singleton, length_modify]
          omega
        waiting := fun j other hother ↦ by
          obtain ⟨old, hold, rfl⟩ := getElem?_update.mp hother
          simp only [World.update, length_append, length_singleton]
          have hwait := hw.waiting j old hold
          split
          · next heq => exact iff_of_false hne (by omega)
          · next hjk =>
            rw [hwait]
            omega
        serial := fun j other hother hj ↦ by
          obtain ⟨old, hold, rfl⟩ := getElem?_update.mp hother
          simp only [World.update, length_append, length_singleton] at hj
          rw [if_neg (by omega)]
          exact hended j old hold (by omega)
        fits := fun j other hother ↦ by
          obtain ⟨old, hold, rfl⟩ := getElem?_update.mp hother
          have hfits := hw.fits j old hold
          split
          · next heq =>
            subst heq
            obtain rfl := some.inj (hwrite.symm.trans hold)
            exact
              { previous := hfits.previous
                head := fun hsome ↦ by
                  have := hfits.head hsome
                  rw [hqueued] at this
                  exact this.trans hhead.symm
                entry := fun i hi ↦ by
                  obtain ⟨status, hstatus, hmatch⟩ := hfits.entry i hi
                  rw [hqueued] at hmatch
                  exact ⟨status, hstatus, (hmatches status).mpr hmatch⟩
                reports := by
                  have hreports := hfits.reports
                  rw [hqueued, refused_queued, Bool.and_false] at hreports
                  rw [hrefused, Bool.and_false]
                  exact hreports }
          · exact Fits.congr hfits (fun _ _ h ↦ h) rfl rfl rfl
        unreported := fun j hj ↦ by
          rw [update_writes, length_modify] at hj
          exact hw.unreported j hj }
  · exact hw

/-- The predictions of two writes have different ids. -/
theorem prediction_ne {j k : ℕ} {write : Write I} {i : I} (hwrite : w.writes[k]? = some write)
    (hi : write.prediction = some i) (hne : j ≠ k) (status : Status) :
    lib.entry w.overlay i ≠ some ⟨j, status⟩ := by
  intro heq
  obtain ⟨status', hstatus, -⟩ := (hw.fits k write hwrite).entry i hi
  exact hne (congrArg Entry.test (some.inj (heq.symm.trans hstatus)))

/-- A write that was sent gets its answer; every other write is left alone. -/
theorem answer_sound {k : ℕ} {write : Write I} (f : Write I → Write I)
    (hwrite : w.writes[k]? = some write) (hsent : write.phase = .sent)
    (hended : (f write).phase.isEnded) (hwrites : w'.writes = w.writes.modify k f)
    (htail : w'.tail = w.tail) (hbase : w'.base = w.base) (hbases : w'.bases = w.bases)
    (hstarted : w'.started = w.started)
    (hentry : ∀ j i status, j ≠ k → lib.entry w.overlay i = some ⟨j, status⟩ →
      lib.entry w'.overlay i = some ⟨j, status⟩)
    (hreports : ∀ j, j ≠ k → w'.reports j = w.reports j) (hfits : w'.Fits lib k (f write)) :
    w'.Sound lib := by
  have hlength : w'.writes.length = w.writes.length := by rw [hwrites, length_modify]
  have hlt : k < w.writes.length := (List.getElem?_eq_some_iff.mp hwrite).1
  have hcases (j : ℕ) (other : Write I) (hother : w'.writes[j]? = some other) :
      j = k ∧ other = f write ∨ j ≠ k ∧ w.writes[j]? = some other := by
    rw [hwrites] at hother
    obtain ⟨old, hold, rfl⟩ := getElem?_update.mp hother
    split
    · next heq =>
      subst heq
      exact .inl ⟨rfl, congrArg f (some.inj (hold.symm.trans hwrite))⟩
    · next hne => exact .inr ⟨Ne.symm hne, hold⟩
  have hnot : ¬ w.started.length ≤ k := by
    rw [← hw.waiting k write hwrite, hsent]
    exact fun heq ↦ nomatch heq
  exact
    { tail := by rw [htail, hlength, hw.tail]
      base := by
        rw [hbase, hbases]
        exact hw.base
      started := by rw [hstarted, ← hw.started]
      count := by
        rw [hstarted, hlength]
        exact hw.count
      waiting := fun j other hother ↦ by
        rw [hstarted]
        rcases hcases j other hother with ⟨rfl, rfl⟩ | ⟨-, hold⟩
        · refine iff_of_false (fun heq ↦ ?_) hnot
          rw [heq] at hended
          exact nomatch hended
        · exact hw.waiting j other hold
      serial := fun j other hother hj ↦ by
        rw [hstarted] at hj
        rcases hcases j other hother with ⟨rfl, rfl⟩ | ⟨-, hold⟩
        · exact hended
        · exact hw.serial j other hold hj
      fits := fun j other hother ↦ by
        rcases hcases j other hother with ⟨rfl, rfl⟩ | ⟨hne, hold⟩
        · exact hfits
        · exact Fits.congr (hw.fits j other hold) (fun i status ↦ hentry j i status hne) hbase
            hbases (hreports j hne)
      unreported := fun j hj ↦ by
        rw [hlength] at hj
        rw [hreports j (by omega)]
        exact hw.unreported j hj }

theorem settleSend_sound {k : ℕ} {write : Write I} (hwrite : w.writes[k]? = some write)
    (hsent : write.phase = .sent) (hprediction : write.prediction = none) (hzero : w.reports k = 0)
    (r : Answer) :
    World.Sound lib ((w.update k fun write ↦ { write with phase := .ended (some r) }).settleSend k
      write.notify r) := by
  have hfits := hw.fits k write hwrite
  have hnone (i : I) : write.prediction ≠ some i := by
    rw [hprediction]
    exact fun heq ↦ nomatch heq
  unfold World.settleSend
  split
  · next hfailure =>
    refine answer_sound hw (fun write ↦ { write with phase := .ended (some r) }) hwrite hsent rfl
      (by simp) (by simp [World.update]) (by simp [World.update]) (by simp [World.update])
      (by simp [World.update]) (fun j i status _ hi ↦ by simpa [World.update] using hi)
      (fun j hj ↦ by simp [onFailure_reports, hj]) ?_
    exact
      { previous := hfits.previous
        head := fun hsome ↦ absurd hsome (by simp [hprediction])
        entry := fun i hi ↦ absurd hi (hnone i)
        reports := by simp [onFailure_reports, hzero, Phase.refused, hfailure] }
  · next hfailure =>
    refine answer_sound hw
      (fun write ↦ { write with phase := .ended (some r), result := some r }) hwrite hsent rfl
      (modify_modify_eq _ _ _ _) rfl rfl rfl rfl (fun _ _ _ _ hi ↦ hi) (fun _ _ ↦ rfl) ?_
    exact
      { previous := hfits.previous
        head := fun hsome ↦ absurd hsome (by simp [hprediction])
        entry := fun i hi ↦ absurd hi (hnone i)
        reports := by simp [hzero, Phase.refused, hfailure] }

theorem settlePrediction_sound {k : ℕ} {write : Write I} {i : I}
    (hwrite : w.writes[k]? = some write) (hsent : write.phase = .sent)
    (hprediction : write.prediction = some i) (hzero : w.reports k = 0) (r : Answer) :
    World.Sound lib ((w.update k fun write ↦ { write with phase := .ended (some r) }
      ).settlePrediction lib k i write.notify r) := by
  have hfits := hw.fits k write hwrite
  have hpending : lib.entry w.overlay i = some ⟨k, .pending⟩ := by
    obtain ⟨status, hstatus, hmatch⟩ := hfits.entry i hprediction
    rw [hsent] at hmatch
    rw [hstatus, show status = .pending from hmatch]
  have hne (j : ℕ) (i' : I) (status : Status) (hj : j ≠ k)
      (hi' : lib.entry w.overlay i' = some ⟨j, status⟩) : i' ≠ i := by
    rintro rfl
    exact prediction_ne hw hwrite hprediction hj status hi'
  have hsame (i' : I) (hi' : write.prediction = some i') : i' = i :=
    some.inj (hi'.symm.trans hprediction)
  unfold World.settlePrediction
  split
  · next hfailure =>
    have hentry := lib.reject_entry w.overlay i (asError r) k hpending
    refine answer_sound hw (fun write ↦ { write with phase := .ended (some r) }) hwrite hsent rfl
      (by simp) (by simp [World.update]) (by simp [World.update]) (by simp [World.update])
      (by simp [World.update]) (fun j i' status hj hi' ↦ ?_)
      (fun j hj ↦ by rw [onFailure_reports, if_neg (fun h ↦ hj h.1)]; rfl) ?_
    · simpa [World.update, hentry, hne j i' status hj hi'] using hi'
    · exact
        { previous := hfits.previous
          head := fun _ ↦ by
            have hhead := hfits.head (by simp [hprediction])
            rw [hsent] at hhead
            have hended : (Phase.ended (some r)).head = none := Phase.head_of_refused hfailure
            exact hhead.trans hended.symm
          entry := fun i' hi' ↦ ⟨.rejected, by
            rw [hsame i' hi']
            simp [World.update, hentry], by simp [World.Matches, hfailure]⟩
          reports := by
            rw [onFailure_reports]
            change w.reports k + _ = _
            simp [hzero, Phase.refused, hfailure] }
  · next hfailure =>
    have hacked := lib.ack_entry w.overlay i r k hpending
    have habandoned := lib.abandon_entry (lib.ack w.overlay i r) i k (by simp [hacked])
    have hentry (i' : I) (hi' : i' ≠ i) : lib.entry (if caughtUp w.base r.maxTx then
        lib.abandon (lib.ack w.overlay i r) i else lib.ack w.overlay i r) i' =
        lib.entry w.overlay i' := by
      split <;> simp [habandoned, hacked, hi']
    refine answer_sound hw (fun write ↦
        { write with phase := .ended (some r), head := r.maxTx, result := some r })
      hwrite hsent rfl (modify_modify_eq _ _ _ _) rfl rfl rfl rfl
      (fun j i' status hj hi' ↦ ?_) (fun _ _ ↦ rfl) ?_
    · exact (hentry i' (hne j i' status hj hi')).trans hi'
    · refine
        { previous := hfits.previous
          head := fun _ ↦ rfl
          entry := fun i' hi' ↦ ?_
          reports := by
            simp only [Phase.refused, hfailure, Bool.and_false]
            exact hzero }
      rw [hsame i' hi']
      cases hcaught : caughtUp w.base r.maxTx with
      | true =>
        refine ⟨.dropped, by simp [World.update, hcaught, habandoned], ?_⟩
        simp only [World.Matches, hfailure]
        exact .inr ⟨rfl, w.base, hw.base, hcaught⟩
      | false =>
        refine ⟨.acked, by simp [World.update, hcaught, hacked], ?_⟩
        simp only [World.Matches, hfailure]
        exact .inl ⟨rfl, hcaught⟩

theorem settle_sound (k : ℕ) (r : Answer) : (w.settle lib k r).Sound lib := by
  unfold World.settle
  split
  · next write hwrite =>
    split
    · next hsent =>
      have hzero : w.reports k = 0 := by
        rw [(hw.fits k write hwrite).reports, hsent]
        simp [Phase.refused]
      split
      · next hprediction => exact settleSend_sound hw hwrite hsent hprediction hzero r
      · next i hprediction => exact settlePrediction_sound hw hwrite hsent hprediction hzero r
    · exact hw
  · exact hw

end

omit [DecidableEq I] in
theorem sync_reconciles {base t : Option ℕ} {k : ℕ} {status : Status}
    (hreconciles : w.Reconciles t status) (hbase : w'.base = base)
    (hbases : w'.bases = base :: w.bases) :
    w'.Reconciles t (if status.isOpen && caughtUp base t then (⟨k, .dropped⟩ : Entry)
      else ⟨k, status⟩).status := by
  unfold World.Reconciles
  rw [hbase, hbases]
  rcases hreconciles with ⟨rfl, -⟩ | ⟨rfl, b, hb, hcaught⟩
  · by_cases hcaught : caughtUp base t
    · simp [Status.isOpen, hcaught]
    · simp [Status.isOpen, hcaught]
  · right
    exact ⟨rfl, b, mem_cons_of_mem _ hb, hcaught⟩

/-- A new base drops the predictions it has caught up with, and no other. -/
theorem sync_sound (hw : w.Sound lib) (base : Option ℕ) : (w.step lib (.sync base)).Sound lib where
  tail := hw.tail
  base := mem_cons_self
  started := hw.started
  count := hw.count
  waiting := hw.waiting
  serial := hw.serial
  unreported := hw.unreported
  fits k write hwrite := by
    have hfits := hw.fits k write hwrite
    refine
      { previous := hfits.previous
        head := hfits.head
        reports := hfits.reports
        entry := fun i hi ↦ ?_ }
    obtain ⟨status, hstatus, hmatch⟩ := hfits.entry i hi
    have hhead : write.head = write.phase.head := hfits.head (by simp [hi])
    have htest : w.test base k = caughtUp base write.phase.head := by
      simp [World.test, show w.writes[k]? = some write from hwrite, hhead]
    refine ⟨(Entry.retest (w.test base) ⟨k, status⟩).status, ?_, ?_⟩
    · refine (lib.rebase_entry _ _ _).trans ?_
      rw [hstatus]
      exact congrArg some (retest_eq _ _)
    · simp only [Entry.retest, htest]
      unfold World.Matches at hmatch ⊢
      split at hmatch
      · next r hphase =>
        rw [hphase]
        split at hmatch
        · next hfailure => simp [hmatch, hfailure, Status.isOpen]
        · next hfailure =>
          simp only [hfailure]
          exact sync_reconciles hmatch rfl rfl
      · next hphase =>
        subst hmatch
        generalize hcase : write.phase = phase at hphase ⊢
        cases phase with
        | ended answer =>
          cases answer with
          | some r => exact absurd rfl (hphase r)
          | none => rfl
        | _ => rfl

theorem step_sound (hw : w.Sound lib) (event : Event T) : (w.step lib event).Sound lib := by
  cases event with
  | predictRemote tx notify => exact predict_sound hw tx notify
  | sendInOrder notify => exact inOrder_sound hw notify fun i hi ↦ (nomatch hi)
  | start k => exact launch_sound hw k (.inl rfl)
  | throw k => exact launch_sound hw k (.inr rfl)
  | answer k r => exact settle_sound hw k r
  | sync base => exact sync_sound hw base

end

/-- The head that a call was told; a `send!` that threw told none. -/
def acknowledged (answer : Option Answer) : Option ℕ := answer.bind Answer.maxTx

/-- No `send!` of a call with a prediction or an `on-failure` throws. -/
def World.Yields {O I T : Type} (w : World O I) : Event T → Prop
  | .throw k => ∀ write : Write I, w.writes[k]? = some write → w.ready k = true →
    write.prediction = none ∧ write.notify = false
  | _ => True

/-- A `send!` that threw had nothing to settle. -/
def World.Clean {O I : Type} (w : World O I) : Prop :=
  ∀ (k : ℕ) (write : Write I), w.writes[k]? = some write → write.phase = .ended none →
    write.prediction = none ∧ write.notify = false

section

variable {O I T : Type} [DecidableEq I] (lib : Optimistic O I T)

/-- The prediction of an ended call is acknowledged and then gone, or rejected and reported. -/
structure World.Resolved (w : World O I) (k : ℕ) (write : Write I) (answer : Option Answer) :
    Prop where
  prediction : ∀ i, write.prediction = some i → ∃ status,
    lib.entry w.overlay i = some ⟨k, status⟩ ∧
      if (acknowledged answer).isSome then w.Reconciles (acknowledged answer) status
      else status = .rejected
  reports : w.reports k = if write.notify && (acknowledged answer).isNone then 1 else 0

/-- The RPCs start in call order, none is stuck behind an ended one, and ended calls are resolved.
-/
structure World.Kept (w : World O I) : Prop where
  order : w.started = List.range w.started.length
  serial : ∀ j k, j < k → k ∈ w.started → w.finished j
  live : ∀ k write, w.writes[k]? = some write → write.phase = .queued →
    ∃ j, j ≤ k ∧ (w.ready j ∨ w.writes[j]?.any fun other ↦ other.phase = .sent)
  resolved : ∀ k write answer, w.writes[k]? = some write → write.phase = .ended answer →
    w.Resolved lib k write answer
  waiting : ∀ k write, w.writes[k]? = some write → write.phase.isEnded = false →
    w.reports k = 0 ∧ ∀ i, write.prediction = some i → lib.entry w.overlay i = some ⟨k, .pending⟩

end

section

variable {O I T : Type} [DecidableEq I] {lib : Optimistic O I T} {w : World O I}

theorem sound_live (hw : w.Sound lib) {k : ℕ} {write : Write I}
    (hwrite : w.writes[k]? = some write) (hqueued : write.phase = .queued) :
    ∃ j, j ≤ k ∧ (w.ready j ∨ w.writes[j]?.any fun other ↦ other.phase = .sent) := by
  have hle : w.started.length ≤ k := (hw.waiting k write hwrite).mp hqueued
  have hlt : k < w.writes.length := (List.getElem?_eq_some_iff.mp hwrite).1
  obtain ⟨next, hnext⟩ : ∃ next, w.writes[w.started.length]? = some next :=
    ⟨_, getElem?_eq_getElem (by omega)⟩
  have hqueued' : next.phase = .queued := (hw.waiting _ next hnext).mpr (Nat.le_refl _)
  have hprevious := (hw.fits _ next hnext).previous
  generalize hj : w.started.length = j at hle hnext hprevious
  cases j with
  | zero =>
    refine ⟨0, Nat.zero_le k, .inl ?_⟩
    simp [World.ready, hnext, hqueued', hprevious, before]
  | succ j =>
    obtain ⟨last, hlast⟩ : ∃ last, w.writes[j]? = some last :=
      ⟨_, getElem?_eq_getElem (by omega)⟩
    have hnot : last.phase ≠ .queued := by
      rw [ne_eq, hw.waiting j last hlast]
      omega
    cases hphase : last.phase with
    | queued => exact absurd hphase hnot
    | sent => exact ⟨j, by omega, .inr (by simp [hlast, hphase])⟩
    | ended answer =>
      refine ⟨j + 1, hle, .inl ?_⟩
      simp [World.ready, World.finished, hnext, hqueued', hprevious, before, hlast, hphase,
        Phase.isEnded]

theorem ended_resolved (hw : w.Sound lib) {k : ℕ} {write : Write I} {answer : Option Answer}
    (hwrite : w.writes[k]? = some write) (hended : write.phase = .ended answer)
    (hraised : answer = none → write.prediction = none ∧ write.notify = false) :
    w.Resolved lib k write answer := by
  have hfits := hw.fits k write hwrite
  cases answer with
  | none =>
    obtain ⟨hprediction, hnotify⟩ := hraised rfl
    exact
      { prediction := fun i hi ↦ absurd hi (by simp [hprediction])
        reports := by
          rw [hfits.reports, hnotify]
          rfl }
  | some r =>
    refine
      { prediction := fun i hi ↦ ?_
        reports := by
          rw [hfits.reports, hended, Phase.refused, failure_eq]
          rfl }
    obtain ⟨status, hstatus, hmatch⟩ := hfits.entry i hi
    refine ⟨status, hstatus, ?_⟩
    rw [hended] at hmatch
    simp only [World.Matches, failure_eq] at hmatch
    change if r.maxTx.isSome then w.Reconciles r.maxTx status else status = .rejected
    cases hhead : r.maxTx with
    | none => simpa [hhead] using hmatch
    | some t => simpa [hhead] using hmatch

theorem kept_iff (hw : w.Sound lib) : w.Kept lib ↔ w.Clean := by
  constructor
  · intro hkept k write hwrite hended
    obtain ⟨hprediction, hreports⟩ := hkept.resolved k write none hwrite hended
    have hfits := hw.fits k write hwrite
    constructor
    · cases hcase : write.prediction with
      | none => rfl
      | some i =>
        obtain ⟨status, hstatus, hrejected⟩ := hprediction i hcase
        obtain ⟨status', hstatus', hpending⟩ := hfits.entry i hcase
        rw [hended] at hpending
        obtain rfl : status = .rejected := hrejected
        obtain rfl : status' = .pending := hpending
        exact nomatch hstatus.symm.trans hstatus'
    · rw [hfits.reports, hended] at hreports
      cases hcase : write.notify with
      | false => rfl
      | true => simp [hcase, Phase.refused, acknowledged] at hreports
  · intro hclean
    refine
      { order := hw.started
        serial := fun j k hjk hk ↦ ?_
        live := fun k write ↦ sound_live hw
        resolved := fun k write answer hwrite hended ↦ ended_resolved hw hwrite hended fun hnone ↦
          hclean k write hwrite (by rw [hended, hnone])
        waiting := fun k write hwrite hnot ↦ ?_ }
    · rw [hw.started, mem_range] at hk
      have hcount := hw.count
      have hj : w.writes[j]? = some w.writes[j] := getElem?_eq_getElem (by omega)
      simp only [World.finished, hj, any_some]
      exact hw.serial j _ hj (by omega)
    · have hfits := hw.fits k write hwrite
      have hphase : write.phase = .queued ∨ write.phase = .sent := by
        cases hcase : write.phase with
        | ended answer => simp [hcase, Phase.isEnded] at hnot
        | _ => simp
      refine ⟨?_, fun i hi ↦ ?_⟩
      · rw [hfits.reports]
        rcases hphase with hphase | hphase <;> simp [hphase, Phase.refused]
      · obtain ⟨status, hstatus, hmatch⟩ := hfits.entry i hi
        have hpending : status = .pending := by
          rcases hphase with hphase | hphase <;>
          · rw [hphase] at hmatch
            exact hmatch
        rw [hstatus, hpending]

end

section

variable {O I T : Type} [DecidableEq I] {lib : Optimistic O I T} {w : World O I}

omit [DecidableEq I] in
theorem launch_clean (hclean : w.Clean) (k : ℕ) {phase : Phase}
    (hphase : phase = .ended none → ∀ write : Write I, w.writes[k]? = some write →
      w.ready k → write.prediction = none ∧ write.notify = false) : (w.launch k phase).Clean := by
  unfold World.launch
  split
  · next hready =>
    intro j write hwrite hended
    obtain ⟨old, hold, rfl⟩ := getElem?_update.mp hwrite
    split at hended
    · next heq =>
      subst heq
      rw [if_pos rfl]
      exact hphase hended old hold hready
    · next hne =>
      rw [if_neg hne]
      exact hclean j old hold hended
  · exact hclean

theorem settle_clean (hclean : w.Clean) (k : ℕ) (r : Answer) : (w.settle lib k r).Clean := by
  have hupdate (u : World O I) (hu : u.Clean) (f : Write I → Write I)
      (hf : ∀ write, (f write).phase = .ended none → write.phase = .ended none ∧
        (f write).prediction = write.prediction ∧ (f write).notify = write.notify) :
      (u.update k f).Clean := by
    intro j write hwrite hended
    obtain ⟨old, hold, rfl⟩ := getElem?_update.mp hwrite
    split at hended
    · next heq =>
      obtain ⟨hended', hprediction, hnotify⟩ := hf old hended
      rw [if_pos heq, hprediction, hnotify]
      exact hu j old hold hended'
    · next hne =>
      rw [if_neg hne]
      exact hu j old hold hended
  have hreport (u : World O I) (hu : u.Clean) (notify : Bool) (report : Report) :
      (u.onFailure k notify report).Clean := by
    unfold World.Clean
    rw [(onFailure_frame k notify report).2.2.2.1]
    exact hu
  unfold World.settle
  split
  · split
    · have hdone : World.Clean (w.update k fun write ↦ { write with phase := .ended (some r) }) :=
        hupdate w hclean _ fun _ hended ↦ nomatch hended
      split
      · unfold World.settleSend
        split
        · exact hreport _ hdone _ _
        · exact hupdate _ hdone _ fun _ hended ↦ ⟨hended, rfl, rfl⟩
      · unfold World.settlePrediction
        split
        · refine hreport _ ?_ _ _
          exact hdone
        · exact hupdate _ hdone _ fun _ hended ↦ ⟨hended, rfl, rfl⟩
    · exact hclean
  · exact hclean

omit [DecidableEq I] in
theorem inOrder_clean (hclean : w.Clean) (prediction : Option I) (notify : Bool) :
    (w.inOrder prediction notify).Clean := by
  intro k write hwrite hended
  have hcases : w.writes[k]? = some write ∨ write = { prediction, notify, previous := w.tail } := by
    simp only [World.inOrder] at hwrite
    grind
  rcases hcases with hold | rfl
  · exact hclean k write hold hended
  · exact nomatch hended

theorem step_clean (hclean : w.Clean) {event : Event T} (hyields : w.Yields event) :
    (w.step lib event).Clean := by
  cases event with
  | predictRemote tx notify =>
    exact inOrder_clean (w := { w with overlay := _ }) hclean _ notify
  | sendInOrder notify => exact inOrder_clean hclean _ notify
  | start k => exact launch_clean hclean k fun heq ↦ nomatch heq
  | throw k => exact launch_clean hclean k fun _ ↦ hyields
  | answer k r => exact settle_clean hclean k r
  | sync base => exact hclean

/-- A `send!` that throws leaves its call unsettled. -/
theorem clean_yields {event : Event T} (hclean : (w.step lib event).Clean) : w.Yields event := by
  cases event with
  | throw k =>
    intro write hwrite hready
    refine hclean k { write with phase := .ended none } ?_ rfl
    simp only [World.step, World.launch, if_pos hready]
    exact getElem?_update.mpr ⟨write, hwrite, (if_pos rfl).symm⟩
  | _ => trivial

variable (lib)

/-- The state after any interleaving of calls, answers and syncs. -/
abbrev reached (o : O) (base : Option ℕ) (events : List (Event T)) : World O I :=
  run (World.step lib) (World.init o base) events

variable {lib}

theorem reached_sound (o : O) (base : Option ℕ) (events : List (Event T)) :
    (reached lib o base events).Sound lib :=
  run_preserves (World.Sound lib) (fun _ event hw ↦ step_sound hw event) (init_sound o base) events

variable (lib) in
/-- Writes are ordered and resolved in every state of a run exactly if no `send!` of a call with a
prediction or an `on-failure` throws in it. -/
theorem writes_resolved (o : O) (base : Option ℕ) (events : List (Event T)) :
    (∀ early late, events = early ++ late → (reached lib o base early).Kept lib) ↔
      Along (World.step lib) World.Yields (World.init o base) events := by
  constructor
  · intro hkept
    rw [along_iff]
    intro early event late heq
    have hafter := hkept (early ++ [event]) late (by simpa using heq)
    have hsound : (reached lib o base (early ++ [event])).Sound lib := reached_sound o base _
    rw [reached, run_append] at hsound hafter
    exact clean_yields ((kept_iff hsound).mp hafter)
  · intro halong early late heq
    rw [heq, along_append] at halong
    have hclean : (reached lib o base early).Clean :=
      run_preserves_along World.Yields World.Clean (fun _ _ hw hyields ↦ step_clean hw hyields)
        (fun _ _ hwrite ↦ nomatch hwrite) halong.1
    exact (kept_iff (reached_sound o base early)).mpr hclean

/-- A `send!` that throws leaves its prediction pending. -/
theorem thrown_pending :
    ¬ (reached Optimistic.log [] none [.predictRemote () true, .throw 0]).Kept Optimistic.log := by
  intro hkept
  have hresolved := hkept.resolved 0 ⟨some 0, true, none, .ended none, none, none⟩ none rfl rfl
  exact absurd hresolved.reports (by decide)

end

end Simmis.Desktop.OptimisticWrite
