import Simmis.Library.Runs
import Mathlib.Data.List.Basic
import Mathlib.Order.Lattice

/-!
# The coalescing refresh gate

A request starts its own fetch, or is pending behind the running fetch of its epoch, and the
completion of that fetch starts the request remembered last. A fetch may call `done` any number of
times, at once or late, and may throw.
-/

namespace Simmis.Desktop.Aggregate

open List Option Runs

variable {E : Type} [LinearOrder E]

/-- The atom of one gate. Closures and tokens stand for themselves. -/
structure Gate (E : Type) where
  epoch : Option E := none
  token : Option ℕ := none
  pending : Option (E × ℕ) := none
  latest : Option ℕ := none
deriving DecidableEq, Repr

structure Fetch (E : Type) where
  epoch : E
  request : ℕ
deriving DecidableEq, Repr

/-- The gate, the connection, the `run!` calls, and the fetches that started and ended. -/
structure World (E : Type) where
  gate : Gate E
  now : E
  online : Bool
  requests : ℕ
  last : Option E
  started : List (Fetch E)
  ended : List ℕ

def World.init (now : E) : World E := ⟨{}, now, true, 0, none, [], []⟩

/-- `valid?` of a request made in epoch `e`. -/
def World.valid (w : World E) (e : E) : Bool := w.online && e = w.now

/-- `current?` of the `k`-th fetch. -/
def World.current (w : World E) (k : ℕ) : Bool :=
  w.gate.token = some k && w.started[k]?.any fun f ↦ w.valid f.epoch

def Gate.busy (gate : Gate E) (e : E) : Bool := gate.epoch = some e && gate.token.isSome

/-- `run!`: remembered behind a running fetch, started with a fresh token otherwise. -/
def World.enter (w : World E) (e : E) (r : ℕ) : World E :=
  if w.gate.busy e then
    { w with gate := { w.gate with pending := some (e, r), latest := some r } }
  else
    { w with
      gate := ⟨some e, some w.started.length, none, some r⟩
      started := w.started ++ [⟨e, r⟩] }

/-- `done` of the `k`-th fetch. -/
def World.done (w : World E) (k : ℕ) : World E :=
  if w.gate.token = some k then
    let cleared := { w with gate := { w.gate with token := none, pending := none } }
    match w.gate.pending with
    | some (e, r) => if w.valid e then cleared.enter e r else cleared
    | none => cleared
  else w

/-- A fetch that throws is done, too. -/
inductive Event (E : Type) where
  | run (epoch : E)
  | done (fetch : ℕ)
  | throw (fetch : ℕ)
  | epoch (next : E)
  | online (up : Bool)

/-- A request's epoch was reached, and is not below that of an earlier one. -/
def World.admits (w : World E) (e : E) : Bool := e ≤ w.now && w.last.all (· ≤ e)

/-- Only a fetch that was started can call anything. -/
def World.finish (w : World E) (k : ℕ) : World E :=
  if k < w.started.length then { w with ended := k :: w.ended }.done k else w

def World.step (w : World E) : Event E → World E
  | .run e =>
    if w.admits e then { w with requests := w.requests + 1, last := some e }.enter e w.requests
    else w
  | .done k => w.finish k
  | .throw k => w.finish k
  | .epoch next => if w.now < next then { w with now := next } else w
  | .online up => { w with online := up }

def Event.ends (event : Event E) (k : ℕ) : Prop := event = .done k ∨ event = .throw k

@[simp] theorem enter_now (w : World E) (e : E) (r : ℕ) : (w.enter e r).now = w.now := by
  unfold World.enter
  split <;> rfl

@[simp] theorem enter_requests (w : World E) (e : E) (r : ℕ) :
    (w.enter e r).requests = w.requests := by
  unfold World.enter
  split <;> rfl

variable {k : ℕ}

theorem done_of_ne {w : World E} (htoken : w.gate.token ≠ some k) : w.done k = w :=
  if_neg htoken

theorem done_frame (w : World E) (k : ℕ) :
    (w.done k).now = w.now ∧ (w.done k).requests = w.requests := by
  unfold World.done
  split
  · split
    · split <;> simp
    · exact ⟨rfl, rfl⟩
  · exact ⟨rfl, rfl⟩

theorem finish_frame (w : World E) (k : ℕ) :
    (w.finish k).now = w.now ∧ (w.finish k).requests = w.requests := by
  unfold World.finish
  split
  · exact done_frame { w with ended := k :: w.ended } k
  · exact ⟨rfl, rfl⟩

/-- A held token belongs to an unfinished fetch of its epoch, as a pending request does to the
epoch. -/
structure World.Sound (w : World E) : Prop where
  holder : ∀ k, w.gate.token = some k → k ∉ w.ended ∧
    ∃ f, w.started[k]? = some f ∧ w.gate.epoch = some f.epoch
  pending : ∀ e r, w.gate.pending = some (e, r) → w.gate.epoch = some e
  last : w.gate.epoch = w.last
  reached : ∀ e, w.last = some e → e ≤ w.now
  ended : ∀ k ∈ w.ended, k < w.started.length
  unfinished : ∀ k f, w.started[k]? = some f → k ∉ w.ended →
    w.gate.token = some k ∨ ∃ e, w.last = some e ∧ f.epoch < e
  single : ∀ j k f g, w.started[j]? = some f → w.started[k]? = some g → j ∉ w.ended →
    k ∉ w.ended → f.epoch = g.epoch → j = k

variable {w : World E}

theorem sound_init (now : E) : (World.init now).Sound where
  holder _ htoken := nomatch htoken
  pending _ _ hpending := nomatch hpending
  last := rfl
  reached _ hlast := nomatch hlast
  ended _ hk := nomatch hk
  unfinished _ _ hstarted := nomatch hstarted
  single _ _ _ _ hstarted := nomatch hstarted

variable {e : E}

/-- A fetch starts when no unfinished one is of its epoch. -/
theorem start_sound {r : ℕ} (hlast : w.last = some e) (hreached : e ≤ w.now)
    (hended : ∀ k ∈ w.ended, k < w.started.length)
    (hbelow : ∀ k f, w.started[k]? = some f → k ∉ w.ended → f.epoch < e)
    (hsingle : ∀ j k f g, w.started[j]? = some f → w.started[k]? = some g → j ∉ w.ended →
      k ∉ w.ended → f.epoch = g.epoch → j = k) : World.Sound { w with
      gate := ⟨some e, some w.started.length, none, some r⟩
      started := w.started ++ [⟨e, r⟩] } := by
  have hcases (k : ℕ) (f : Fetch E) (hf : (w.started ++ [⟨e, r⟩])[k]? = some f) :
      w.started[k]? = some f ∨ k = w.started.length ∧ f = ⟨e, r⟩ := by
    grind
  have hfresh : w.started.length ∉ w.ended := fun hmem ↦ Nat.lt_irrefl _ (hended _ hmem)
  refine
    { holder := fun k hk ↦ ?_
      pending := fun _ _ hpending ↦ (nomatch hpending)
      last := hlast.symm
      reached := fun e' he' ↦ ?_
      ended := fun k hk ↦ ?_
      unfinished := fun k f hf hk ↦ ?_
      single := fun j k f g hf hg hj hk hepoch ↦ ?_ }
  · obtain rfl := some.inj hk
    exact ⟨hfresh, ⟨e, r⟩, getElem?_concat_length, rfl⟩
  · obtain rfl := some.inj (hlast.symm.trans he')
    exact hreached
  · have hlt := hended k hk
    rw [length_append]
    omega
  · rcases hcases k f hf with hold | ⟨rfl, -⟩
    · exact .inr ⟨e, hlast, hbelow k f hold hk⟩
    · exact .inl rfl
  · rcases hcases j f hf with hold | ⟨rfl, rfl⟩
    · rcases hcases k g hg with hold' | ⟨rfl, rfl⟩
      · exact hsingle j k f g hold hold' hj hk hepoch
      · exact absurd hepoch (hbelow j f hold hj).ne
    · rcases hcases k g hg with hold' | ⟨rfl, rfl⟩
      · exact absurd hepoch.symm (hbelow k g hold' hk).ne
      · rfl

theorem run_sound (hw : w.Sound) (hadmits : w.admits e) :
    ({ w with requests := w.requests + 1, last := some e }.enter e w.requests).Sound := by
  simp only [World.admits, Bool.and_eq_true, decide_eq_true_eq] at hadmits
  obtain ⟨hreached, hlast⟩ := hadmits
  have hle (e' : E) (he' : w.last = some e') : e' ≤ e := by simpa [he'] using hlast
  unfold World.enter
  split
  · next hbusy =>
    simp only [Gate.busy, Bool.and_eq_true, decide_eq_true_eq] at hbusy
    have hsame : w.last = some e := hw.last.symm.trans hbusy.1
    exact
      { holder := hw.holder
        pending := fun e' r' hpending ↦ by
          obtain ⟨rfl, rfl⟩ := some.inj hpending
          exact hbusy.1
        last := hbusy.1
        reached := fun e' he' ↦ some.inj he' ▸ hreached
        ended := hw.ended
        unfinished := fun k f hf hk ↦ hsame ▸ hw.unfinished k f hf hk
        single := hw.single }
  · next hbusy =>
    refine start_sound rfl hreached hw.ended (fun k f hf hk ↦ ?_) hw.single
    rcases hw.unfinished k f hf hk with htoken | ⟨e', he', hlt⟩
    · obtain ⟨-, f', hf', hepoch⟩ := hw.holder k htoken
      obtain rfl := some.inj (hf.symm.trans hf')
      refine lt_of_le_of_ne (hle _ (hw.last.symm.trans hepoch)) ?_
      rintro rfl
      exact hbusy (by simp [Gate.busy, hepoch, htoken])
    · exact hlt.trans_le (hle e' he')

theorem done_sound (hw : w.Sound) (hk : k < w.started.length) :
    ({ w with ended := k :: w.ended }.done k).Sound := by
  have hended : ∀ j ∈ k :: w.ended, j < w.started.length := forall_mem_cons.mpr ⟨hk, hw.ended⟩
  have hsingle (i j : ℕ) (f g : Fetch E) (hf : w.started[i]? = some f)
      (hg : w.started[j]? = some g) (hi : i ∉ k :: w.ended) (hj : j ∉ k :: w.ended)
      (hepoch : f.epoch = g.epoch) : i = j :=
    hw.single i j f g hf hg (fun h ↦ hi (mem_cons_of_mem _ h))
      (fun h ↦ hj (mem_cons_of_mem _ h)) hepoch
  unfold World.done
  split
  · next htoken =>
    have hother (j : ℕ) (f : Fetch E) (hf : w.started[j]? = some f) (hj : j ∉ k :: w.ended) :
        ∃ e, w.last = some e ∧ f.epoch < e := by
      rw [mem_cons, not_or] at hj
      rcases hw.unfinished j f hf hj.2 with htoken' | hlater
      · exact absurd (some.inj (htoken'.symm.trans htoken)) hj.1
      · exact hlater
    have hcleared : World.Sound { w with
        gate := { w.gate with token := none, pending := none }, ended := k :: w.ended } :=
      { holder := fun _ h ↦ (nomatch h)
        pending := fun _ _ h ↦ (nomatch h)
        last := hw.last
        reached := hw.reached
        ended := hended
        unfinished := fun j f hf hj ↦ .inr (hother j f hf hj)
        single := hsingle }
    split
    · next e r hpending =>
      have hlast : w.last = some e := hw.last.symm.trans (hw.pending e r hpending)
      split
      · rw [World.enter, if_neg (by simp [Gate.busy])]
        refine start_sound hlast (hw.reached e hlast) hended (fun j f hf hj ↦ ?_) hsingle
        obtain ⟨e', he', hlt⟩ := hother j f hf hj
        obtain rfl := some.inj (hlast.symm.trans he')
        exact hlt
      · exact hcleared
    · exact hcleared
  · next htoken =>
    exact
      { holder := fun j hj ↦ by
          obtain ⟨hunfinished, hstarted⟩ := hw.holder j hj
          refine ⟨not_mem_cons_of_ne_of_not_mem ?_ hunfinished, hstarted⟩
          rintro rfl
          exact htoken hj
        pending := hw.pending
        last := hw.last
        reached := hw.reached
        ended := hended
        unfinished := fun j f hf hj ↦
          hw.unfinished j f hf fun h ↦ hj (mem_cons_of_mem _ h)
        single := hsingle }

theorem step_sound (hw : w.Sound) (event : Event E) : (w.step event).Sound := by
  have hfinish (k : ℕ) : (w.finish k).Sound := by
    unfold World.finish
    split
    · next hk => exact done_sound hw hk
    · exact hw
  cases event with
  | run e =>
    simp only [World.step]
    split
    · next hadmits => exact run_sound hw hadmits
    · exact hw
  | done k => exact hfinish k
  | throw k => exact hfinish k
  | epoch next =>
    simp only [World.step]
    split
    · next hlt =>
      exact
        { holder := hw.holder, pending := hw.pending, last := hw.last, ended := hw.ended
          reached := fun e he ↦ (hw.reached e he).trans hlt.le
          unfinished := hw.unfinished, single := hw.single }
    · exact hw
  | online up =>
    exact
      { holder := hw.holder, pending := hw.pending, last := hw.last, ended := hw.ended
        reached := hw.reached, unfinished := hw.unfinished, single := hw.single }

/-- The state after any interleaving of calls, completions and epoch changes. -/
abbrev reached (now : E) (events : List (Event E)) : World E :=
  run World.step (World.init now) events

theorem reached_sound (now : E) (events : List (Event E)) : (reached now events).Sound :=
  run_preserves World.Sound (fun _ event hw ↦ step_sound hw event) (sound_init now) events

/-- A fetch without the token changes nothing, and a finished fetch never has it again. -/
theorem done_unchanged (hw : w.Sound) (hk : w.gate.token ≠ some k ∨ k ∈ w.ended) {event : Event E}
    (hends : event.ends k) : (w.step event).gate = w.gate ∧ (w.step event).started = w.started := by
  have htoken : w.gate.token ≠ some k := by
    rcases hk with hk | hk
    · exact hk
    · exact fun htoken ↦ (hw.holder k htoken).1 hk
  have hfinish : (w.finish k).gate = w.gate ∧ (w.finish k).started = w.started := by
    unfold World.finish
    split
    · rw [done_of_ne (w := { w with ended := k :: w.ended }) htoken]
      exact ⟨rfl, rfl⟩
    · exact ⟨rfl, rfl⟩
  rcases hends with rfl | rfl <;> exact hfinish

/-- The `k`-th fetch holds the token of `e`, with a request from `r` on behind it. -/
def World.Awaits (w : World E) (e : E) (k r : ℕ) : Prop :=
  w.gate.token = some k ∧ w.gate.epoch = some e ∧ ∃ r', w.gate.pending = some (e, r') ∧ r ≤ r'

/-- Until the running fetch ends, the request stays behind it or its epoch is over. -/
structure World.Remembers (w : World E) (e : E) (k r : ℕ) : Prop where
  sound : w.Sound
  made : r < w.requests
  passed : e ≤ w.now
  awaits : w.now = e → w.Awaits e k r

theorem finish_awaits {j r : ℕ} (hj : j ≠ k) (hw : w.Awaits e k r) : (w.finish j).Awaits e k r := by
  have htoken : w.gate.token ≠ some j := by
    intro hj'
    exact hj (some.inj (hj'.symm.trans hw.1))
  unfold World.finish
  split
  · rw [done_of_ne (w := { w with ended := j :: w.ended }) htoken]
    exact hw
  · exact hw

/-- A later request of the same epoch takes the place of the one that waits. -/
theorem run_awaits {e' : E} {r : ℕ} (hw : w.Sound) (hmade : r < w.requests) (hadmits : w.admits e')
    (hnow : w.now = e) (hawaits : w.Awaits e k r) :
    ({ w with requests := w.requests + 1, last := some e' }.enter e' w.requests).Awaits e k r := by
  simp only [World.admits, Bool.and_eq_true, decide_eq_true_eq] at hadmits
  obtain ⟨htoken, hepoch, -⟩ := hawaits
  have hle : e ≤ e' := by simpa [hw.last.symm.trans hepoch] using hadmits.2
  obtain rfl : e' = e := le_antisymm (hnow ▸ hadmits.1) hle
  rw [World.enter, if_pos (by simp [Gate.busy, hepoch, htoken])]
  exact ⟨htoken, hepoch, w.requests, rfl, Nat.le_of_lt hmade⟩

section

variable {r : ℕ} (hw : w.Remembers e k r)
include hw

theorem step_remembers {event : Event E} (hends : ¬ event.ends k) :
    (w.step event).Remembers e k r := by
  have hfinish (j : ℕ) (hj : j ≠ k) (hsound : (w.finish j).Sound) :
      (w.finish j).Remembers e k r := by
    obtain ⟨hnow, hrequests⟩ := finish_frame w j
    exact
      { sound := hsound
        made := hrequests ▸ hw.made
        passed := hnow ▸ hw.passed
        awaits := fun heq ↦ finish_awaits hj (hw.awaits (hnow ▸ heq)) }
  have hsound := step_sound hw.sound event
  cases event with
  | run e' =>
    simp only [World.step] at hsound ⊢
    split
    · next hadmits =>
      rw [if_pos hadmits] at hsound
      exact
        { sound := hsound
          made := by
            rw [enter_requests]
            exact Nat.lt_succ_of_lt hw.made
          passed := by simpa using hw.passed
          awaits := fun heq ↦ by
            have hnow : w.now = e := by simpa using heq
            exact run_awaits hw.sound hw.made hadmits hnow (hw.awaits hnow) }
    · exact hw
  | done j => exact hfinish j (fun hj ↦ hends (.inl (hj ▸ rfl))) hsound
  | throw j => exact hfinish j (fun hj ↦ hends (.inr (hj ▸ rfl))) hsound
  | epoch next =>
    simp only [World.step] at hsound ⊢
    split
    · next hlt =>
      rw [if_pos hlt] at hsound
      exact
        { sound := hsound
          made := hw.made
          passed := hw.passed.trans hlt.le
          awaits := fun heq ↦ absurd heq (hw.passed.trans_lt hlt).ne' }
    · exact hw
  | online up =>
    exact { sound := hsound, made := hw.made, passed := hw.passed, awaits := hw.awaits }

theorem run_remembers {events : List (Event E)} (hends : ∀ event ∈ events, ¬ event.ends k) :
    (run World.step w events).Remembers e k r := by
  induction events generalizing w with
  | nil => exact hw
  | cons event events ih =>
    exact ih (step_remembers hw (hends event mem_cons_self))
      fun event' hevent ↦ hends event' (mem_cons_of_mem _ hevent)

/-- The end of the fetch that the request waits behind starts one that is no older. -/
theorem ends_starts (hvalid : w.valid e) {event : Event E} (hends : event.ends k) :
    ∃ r', r ≤ r' ∧ (w.step event).started = w.started ++ [⟨e, r'⟩] := by
  have hnow : w.now = e := by
    simp only [World.valid, Bool.and_eq_true, decide_eq_true_eq] at hvalid
    exact hvalid.2.symm
  obtain ⟨htoken, -, r', hpending, hle⟩ := hw.awaits hnow
  refine ⟨r', hle, ?_⟩
  obtain ⟨-, f, hf, -⟩ := hw.sound.holder k htoken
  obtain ⟨hk, -⟩ := List.getElem?_eq_some_iff.mp hf
  have hfinish : (w.finish k).started = w.started ++ [⟨e, r'⟩] := by
    rw [World.finish, if_pos hk, World.done, if_pos htoken]
    have hvalid' : World.valid { w with ended := k :: w.ended } e := hvalid
    simp only [hpending, hvalid', if_true, World.enter]
    rw [if_neg (by simp [Gate.busy])]
  rcases hends with rfl | rfl <;> exact hfinish

end

/-- A request at a busy gate is remembered behind the fetch of its epoch. -/
theorem busy_remembers (hw : w.Sound) (hadmits : w.admits e) (hbusy : w.gate.busy e) :
    ∃ k f, w.gate.token = some k ∧ w.started[k]? = some f ∧ f.epoch = e ∧
      (w.step (.run e)).Remembers e k w.requests := by
  have hsound := step_sound hw (.run e)
  have hstep : w.step (.run e) = { w with
      requests := w.requests + 1, last := some e
      gate := { w.gate with pending := some (e, w.requests), latest := some w.requests } } := by
    rw [World.step, if_pos hadmits, World.enter, if_pos hbusy]
  simp only [Gate.busy, Bool.and_eq_true, decide_eq_true_eq, isSome_iff_exists] at hbusy
  obtain ⟨hepoch, k, htoken⟩ := hbusy
  obtain ⟨-, f, hf, hfEpoch⟩ := hw.holder k htoken
  refine ⟨k, f, htoken, hf, some.inj (hfEpoch.symm.trans hepoch), ?_⟩
  simp only [World.admits, Bool.and_eq_true, decide_eq_true_eq] at hadmits
  rw [hstep] at hsound ⊢
  exact
    { sound := hsound
      made := Nat.lt_succ_self _
      passed := hadmits.1
      awaits := fun _ ↦ ⟨htoken, hepoch, w.requests, rfl, Nat.le_refl _⟩ }

/-- The gate runs no two fetches of an epoch at once and loses no refresh: an accepted request
starts its fetch or is followed by one requested no earlier. -/
theorem refresh_gate (now : E) (events : List (Event E)) :
    (∀ j k, (reached now events).current j → (reached now events).current k → j = k) ∧
    (∀ k, (reached now events).gate.token = some k → ∃ f, (reached now events).started[k]? = some f ∧
      (reached now events).gate.epoch = some f.epoch ∧ k ∉ (reached now events).ended) ∧
    (∀ j k f g, (reached now events).started[j]? = some f →
      (reached now events).started[k]? = some g → j ∉ (reached now events).ended →
      k ∉ (reached now events).ended → f.epoch = g.epoch → j = k) ∧
    (∀ k (event : Event E), event.ends k →
      (reached now events).gate.token ≠ some k ∨ k ∈ (reached now events).ended →
      ((reached now events).step event).gate = (reached now events).gate ∧
        ((reached now events).step event).started = (reached now events).started) ∧
    ∀ e, (reached now events).admits e → ((reached now events).step (.run e)).started =
          (reached now events).started ++ [⟨e, (reached now events).requests⟩] ∨
        ∃ k f, (reached now events).gate.token = some k ∧
          (reached now events).started[k]? = some f ∧ f.epoch = e ∧
          ∀ later : List (Event E), (∀ event ∈ later, ¬ event.ends k) →
            (reached now (events ++ .run e :: later)).valid e → ∀ last : Event E, last.ends k →
            ∃ r, (reached now events).requests ≤ r ∧
              ((reached now (events ++ .run e :: later)).step last).started =
                (reached now (events ++ .run e :: later)).started ++ [⟨e, r⟩] := by
  have hw := reached_sound now events
  refine ⟨fun j k hj hk ↦ ?_, fun k hk ↦ ?_, hw.single, fun k event hends hk ↦ ?_,
    fun e hadmits ↦ ?_⟩
  · simp only [World.current, Bool.and_eq_true, decide_eq_true_eq] at hj hk
    exact some.inj (hj.1.symm.trans hk.1)
  · obtain ⟨hunfinished, f, hf, hepoch⟩ := hw.holder k hk
    exact ⟨f, hf, hepoch, hunfinished⟩
  · exact done_unchanged hw hk hends
  · by_cases hbusy : (reached now events).gate.busy e
    · right
      obtain ⟨k, f, htoken, hf, hepoch, hremembers⟩ := busy_remembers hw hadmits hbusy
      refine ⟨k, f, htoken, hf, hepoch, fun later hlater hvalid last hends ↦ ?_⟩
      have hrun : reached now (events ++ .run e :: later) =
          run World.step ((reached now events).step (.run e)) later := run_append _ _ _ _
      rw [hrun] at hvalid ⊢
      exact ends_starts (run_remembers hremembers hlater) hvalid hends
    · left
      simp only [World.step, if_pos hadmits, World.enter]
      rw [if_neg hbusy]

end Simmis.Desktop.Aggregate
