import Simmis.Library.Runs
import Mathlib.Data.List.Nodup

/-!
# Generation-aware observation

The interface offers a slot the epoch and the generation that it depends on now, and fetches what
the offer requests. Replies come in any order, late, twice or not at all, and with a new epoch the
slot forgets the old one.
-/

namespace Simmis.Desktop.Observation

open List Option Runs

/-- What is requested, and what a reply brings back; a foreign frame may lack an epoch. -/
structure Frame (E G T : Type) where
  epoch : Option E
  generation : G
  token : T
deriving DecidableEq

structure State (E G T : Type) where
  epoch : Option E := none
  wanted : Option G := none
  active : Option (Frame E G T) := none
  completed : Option G := none
deriving DecidableEq

variable {E G T : Type} [DecidableEq E] [DecidableEq G] [DecidableEq T] (s : State E G T)

/-- A new epoch starts without a fetch and without an answer. -/
def enter (epoch : Option E) : State E G T :=
  if epoch = s.epoch then s else { epoch }

def offer (epoch : Option E) (generation : G) (token : T) : State E G T × Option (Frame E G T) :=
  let s := { enter s epoch with wanted := some generation }
  if epoch.isNone ∨ s.active.isSome ∨ s.completed = some generation then (s, none)
  else
    let request : Frame E G T := ⟨epoch, generation, token⟩
    ({ s with active := some request }, some request)

variable (frame : Option (Frame E G T))

def owns : Bool := frame.any fun f ↦ s.active = some f ∧ f.epoch = s.epoch

def current : Bool := owns s frame ∧ frame.map Frame.generation = s.wanted

/-- Without a flag the reply is published if it is current. -/
def finish (published : Option Bool) : State E G T :=
  if owns s frame then
    { s with
      active := none
      completed := if published.getD (current s frame) then frame.map Frame.generation else none }
  else s

inductive Event (E G T : Type)
  | offer (epoch : Option E) (generation : G) (token : T)
  | finish (frame : Option (Frame E G T)) (published : Option Bool)

/-- The state with the tokens, the offers, the frames requested and the replies acknowledged. -/
structure History (E G T : Type) where
  state : State E G T := {}
  tokens : List T := []
  offers : List (Option E × G) := []
  issued : List (Frame E G T) := []
  acknowledged : List (Frame E G T × Bool) := []

def step (h : History E G T) : Event E G T → History E G T
  | .offer epoch generation token =>
    let result := offer h.state epoch generation token
    { h with
      state := result.1
      tokens := h.tokens ++ [token]
      offers := h.offers ++ [(epoch, generation)]
      issued := h.issued ++ result.2.toList }
  | .finish frame published =>
    let acknowledged := if owns h.state frame then
      frame.toList.map fun f ↦ (f, published.getD (current h.state frame)) else []
    { h with
      state := finish h.state frame published
      acknowledged := h.acknowledged ++ acknowledged }

/-- An offer comes with a token that was never used before. -/
def Fresh (h : History E G T) : Event E G T → Prop
  | .offer _ _ token => token ∉ h.tokens
  | .finish _ _ => True

instance (h : History E G T) (e : Event E G T) : Decidable (Fresh h e) := by
  cases e <;> unfold Fresh <;> infer_instance

omit [DecidableEq T] in
theorem offer_cases (epoch : Option E) (generation : G) (token : T) :
    offer s epoch generation token =
      ({ enter s epoch with wanted := some generation }, none) ∨
    (epoch ≠ none ∧ (enter s epoch).active = none ∧ (enter s epoch).completed ≠ some generation ∧
      offer s epoch generation token =
        ({ enter s epoch with
            wanted := some generation
            active := some ⟨epoch, generation, token⟩ }, some ⟨epoch, generation, token⟩)) := by
  unfold offer
  dsimp only
  split
  · exact .inl rfl
  · next hstarts =>
    simp only [not_or, isNone_iff_eq_none, not_isSome_iff_eq_none] at hstarts
    obtain ⟨hepoch, hactive, hcompleted⟩ := hstarts
    exact .inr ⟨hepoch, hactive, hcompleted, rfl⟩

variable {epoch : Option E} {f : Frame E G T}

section

omit [DecidableEq G] [DecidableEq T]

theorem enter_epoch (s : State E G T) (epoch : Option E) : (enter s epoch).epoch = epoch := by
  unfold enter
  split
  · next hsame => exact hsame.symm
  · rfl

theorem enter_active {s : State E G T} (h : (enter s epoch).active = some f) : enter s epoch = s := by
  unfold enter at h ⊢
  by_cases hsame : epoch = s.epoch
  · rw [if_pos hsame]
  · rw [if_neg hsame] at h
    cases h

theorem enter_completed {s : State E G T} {g : G}
    (h : (enter s epoch).completed = some g) : enter s epoch = s := by
  unfold enter at h ⊢
  by_cases hsame : epoch = s.epoch
  · rw [if_pos hsame]
  · rw [if_neg hsame] at h
    cases h

end

theorem owns_iff {s : State E G T} : owns s (some f) ↔ s.active = some f ∧ f.epoch = s.epoch := by
  simp [owns]

theorem owns_some {s : State E G T} {frame : Option (Frame E G T)} (h : owns s frame) :
    ∃ f, frame = some f ∧ s.active = some f ∧ f.epoch = s.epoch := by
  cases frame with
  | none => cases h
  | some f => exact ⟨f, rfl, owns_iff.mp h⟩

theorem finish_of_not_owns {s : State E G T} {frame : Option (Frame E G T)}
    (h : owns s frame = false) (published : Option Bool) : finish s frame published = s := by
  unfold finish
  rw [if_neg (by rw [h]; exact Bool.false_ne_true)]

structure History.Sound (h : History E G T) : Prop where
  owner : ∀ f, h.state.active = some f →
    f ∈ h.issued ∧ f.epoch = h.state.epoch ∧ h.state.epoch ≠ none
  wanted : ∀ g, h.state.wanted = some g → h.offers.getLast? = some (h.state.epoch, g)
  completed : ∀ g, h.state.completed = some g → ∃ f, h.acknowledged.getLast? = some (f, true) ∧
    f.generation = g ∧ f.epoch = h.state.epoch
  tokens : ∀ f ∈ h.issued, f.token ∈ h.tokens
  distinct : (h.issued.map Frame.token).Nodup

omit [DecidableEq E] [DecidableEq G] [DecidableEq T] in
theorem sound_init : History.Sound ({} : History E G T) :=
  ⟨nofun, nofun, nofun, nofun, nodup_nil⟩

variable {h : History E G T}

theorem History.Sound.offer (hs : h.Sound) {generation : G} {token : T}
    (hfresh : token ∉ h.tokens) : (step h (.offer epoch generation token)).Sound := by
  have hcompleted (g : G) (hg : (enter h.state epoch).completed = some g) :
      ∃ f, h.acknowledged.getLast? = some (f, true) ∧ f.generation = g ∧ f.epoch = epoch := by
    have hsame := enter_completed hg
    rw [hsame] at hg
    obtain ⟨f, hlast, hgeneration, hepoch⟩ := hs.completed g hg
    refine ⟨f, hlast, hgeneration, hepoch.trans ?_⟩
    rw [← hsame, enter_epoch]
  have htokens (f : Frame E G T) (hf : f ∈ h.issued) : f.token ∈ h.tokens ++ [token] :=
    mem_append_left _ (hs.tokens f hf)
  obtain hidle | ⟨hepoch, hactive, -, hstart⟩ := offer_cases h.state epoch generation token
  · simp only [step, hidle, toList_none, append_nil]
    refine ⟨fun f hf ↦ ?_, fun g hg ↦ ?_, fun g hg ↦ ?_, htokens, hs.distinct⟩
    · have hsame := enter_active hf
      rw [hsame] at hf ⊢
      exact hs.owner f hf
    · obtain rfl := some.inj hg
      simp [enter_epoch]
    · rw [enter_epoch]
      exact hcompleted g hg
  · simp only [step, hstart, toList_some]
    refine ⟨fun f hf ↦ ?_, fun g hg ↦ ?_, fun g hg ↦ ?_, fun f hf ↦ ?_, ?_⟩
    · obtain rfl := some.inj hf
      refine ⟨mem_append_right _ (mem_singleton_self _), ?_, ?_⟩
      · exact (enter_epoch h.state epoch).symm
      · rw [enter_epoch]
        exact hepoch
    · obtain rfl := some.inj hg
      simp [enter_epoch]
    · rw [enter_epoch]
      exact hcompleted g hg
    · obtain hold | hnew := mem_append.mp hf
      · exact htokens f hold
      · obtain rfl := mem_singleton.mp hnew
        exact mem_append_right _ (mem_singleton_self _)
    · rw [map_append, nodup_append]
      refine ⟨hs.distinct, nodup_singleton _, fun t ht t' ht' ↦ ?_⟩
      obtain ⟨f, hf, rfl⟩ := mem_map.mp ht
      obtain rfl := mem_singleton.mp ht'
      rintro rfl
      exact hfresh (hs.tokens f hf)

theorem History.Sound.finish (hs : h.Sound) (frame : Option (Frame E G T))
    (published : Option Bool) : (step h (.finish frame published)).Sound := by
  cases howns : owns h.state frame with
  | false =>
    simp only [step, finish_of_not_owns howns, howns, Bool.false_eq_true, if_false, append_nil]
    exact hs
  | true =>
    obtain ⟨f, rfl, hactive, hepoch⟩ := owns_some howns
    simp only [step, Observation.finish, howns, if_true, toList_some, map_singleton]
    refine ⟨nofun, hs.wanted, fun g hg ↦ ?_, hs.tokens, hs.distinct⟩
    split at hg
    · next hpublished =>
      refine ⟨f, ?_, some.inj hg, hepoch⟩
      rw [getLast?_concat, hpublished]
    · cases hg

theorem History.Sound.step (hs : h.Sound) {e : Event E G T} (he : Fresh h e) :
    (step h e).Sound := by
  cases e with
  | offer epoch generation token => exact hs.offer he
  | finish frame published => exact hs.finish frame published

theorem sound_run {events : List (Event E G T)} (hfresh : Along step Fresh {} events) :
    (run step {} events).Sound :=
  run_preserves_along Fresh History.Sound (fun _ _ hs he ↦ hs.step he) sound_init hfresh

/-- The frame was requested and does not own the slot. -/
def History.Lost (h : History E G T) (f : Frame E G T) : Prop :=
  f ∈ h.issued ∧ owns h.state (some f) = false

theorem History.Lost.step (hs : h.Sound) (hlost : h.Lost f) {e : Event E G T}
    (he : Fresh h e) : (step h e).Lost f := by
  obtain ⟨hissued, hnot⟩ := hlost
  rw [← Bool.not_eq_true, owns_iff] at hnot
  cases e with
  | offer epoch generation token =>
    refine ⟨mem_append_left _ hissued, ?_⟩
    rw [← Bool.not_eq_true, owns_iff]
    rintro ⟨hactive, -⟩
    obtain hidle | ⟨-, -, -, hstart⟩ := offer_cases h.state epoch generation token
    · simp only [Observation.step, hidle] at hactive
      rw [enter_active hactive] at hactive
      exact hnot ⟨hactive, (hs.owner f hactive).2.1⟩
    · simp only [Observation.step, hstart] at hactive
      obtain rfl := some.inj hactive
      exact he (hs.tokens _ hissued)
  | finish frame published =>
    refine ⟨hissued, ?_⟩
    rw [← Bool.not_eq_true, owns_iff]
    cases howns : owns h.state frame with
    | false =>
      simp only [Observation.step, finish_of_not_owns howns]
      exact hnot
    | true =>
      simp only [Observation.step, Observation.finish, howns, if_true]
      rintro ⟨hactive, -⟩
      cases hactive

theorem lost_run (hs : h.Sound) (hlost : h.Lost f) {events : List (Event E G T)}
    (hfresh : Along step Fresh h events) :
    (run step h events).Lost f :=
  (run_preserves_along Fresh (fun h ↦ h.Sound ∧ h.Lost f)
    (fun _ _ hboth he ↦ ⟨hboth.1.step he, hboth.2.step hboth.1 he⟩) ⟨hs, hlost⟩ hfresh).2

/-- At most one request owns the slot, of the observed epoch; no other frame changes anything; and
an offer to a free slot fetches its generation unless that was published last. -/
theorem observation_is_exact (events : List (Event E G T)) (hfresh : Along step Fresh {} events) :
    let h := run step {} events
    (∀ (i j : ℕ) (f f' : Frame E G T), h.issued[i]? = some f → h.issued[j]? = some f' →
      owns h.state (some f) = true → owns h.state (some f') = true →
      i = j ∧ f.epoch = h.state.epoch) ∧
    (∀ frame published, owns h.state frame = false → finish h.state frame published = h.state) ∧
    (∀ f : Frame E G T, current h.state (some f) = true →
      h.offers.getLast? = some (f.epoch, f.generation)) ∧
    (∀ g, h.state.completed = some g → ∃ f, h.acknowledged.getLast? = some (f, true) ∧
      f.generation = g ∧ f.epoch = h.state.epoch) ∧
    (∀ (e : E) (g : G) (token : T), (h.state.epoch = some e → h.state.active = none) →
      ((offer h.state (some e) g token).2 = some ⟨some e, g, token⟩ ↔
        ¬ (h.state.epoch = some e ∧ h.state.completed = some g)) ∧
      ((offer h.state (some e) g token).2 = none ↔
        h.state.epoch = some e ∧ h.state.completed = some g)) ∧
    ∀ f ∈ h.issued, owns h.state (some f) = false → ∀ later, Along step Fresh h later →
      owns (run step h later).state (some f) = false := by
  intro h
  have hs : h.Sound := sound_run hfresh
  refine ⟨fun i j f f' hi hj hf hf' ↦ ?_, fun frame published hnot ↦
    finish_of_not_owns hnot published, fun f hf ↦ ?_, hs.completed, fun e g token hfree ↦ ?_,
    fun f hf hnot later hlater ↦ (lost_run hs ⟨hf, hnot⟩ hlater).2⟩
  · obtain ⟨hactive, hepoch⟩ := owns_iff.mp hf
    obtain ⟨hactive', -⟩ := owns_iff.mp hf'
    obtain rfl : f = f' := some.inj (hactive.symm.trans hactive')
    have hnodup : h.issued.Nodup := hs.distinct.of_map _
    obtain ⟨hlt, hget⟩ := List.getElem?_eq_some_iff.mp hi
    refine ⟨?_, hepoch⟩
    exact (getElem?_inj hlt hnodup).mp (hi.trans hj.symm)
  · simp only [current, decide_eq_true_eq] at hf
    obtain ⟨hf, hwanted⟩ := hf
    rw [(owns_iff.mp hf).2]
    exact hs.wanted _ hwanted.symm
  · have hactive : (enter h.state (some e)).active = none := by
      unfold enter
      split
      · next hsame => exact hfree hsame.symm
      · rfl
    have hcompleted : (enter h.state (some e)).completed = some g ↔
        h.state.epoch = some e ∧ h.state.completed = some g := by
      unfold enter
      split
      · next hsame => simp [← hsame]
      · next hother => simp [Ne.symm hother]
    rw [← hcompleted]
    unfold offer
    simp only [isNone_some, hactive, isSome_none, Bool.false_eq_true, false_or]
    split
    · next hsame => simp [hsame]
    · next hother => simp [hother]

/-- A reply to an old generation is not published; the next offer fetches again. -/
theorem observation_is_exact_example :
    let events : List (Event ℕ ℕ ℕ) := [.offer (some 1) 7 0, .offer (some 1) 8 1,
      .finish (some ⟨some 1, 7, 0⟩) none, .offer (some 1) 7 2]
    let h := run step {} events
    h.state.completed = none ∧ h.state.active = some ⟨some 1, 7, 2⟩ ∧
      ∀ f : Frame ℕ ℕ ℕ, current h.state (some f) = true →
        h.offers.getLast? = some (f.epoch, f.generation) :=
  ⟨by decide, by decide, (observation_is_exact _ (by decide)).2.2.1⟩

end Simmis.Desktop.Observation
