import Simmis.Library.Runs
import Mathlib.Data.Int.Notation
import Mathlib.Data.List.Basic

/-!
# Sampling of a shared screen

A frame is uploaded when it differs from the last one that was accepted and the interval since the
last upload has passed. An upload is answered at any time, or never, and every refresh forgets what
was accepted.
-/

namespace Simmis.Sampling

open List Option

def minimumIntervalMs : ℤ := 20000

/-- A grayscale signature, or none. -/
abbrev Signature := Option (List ℤ)

/-- `changed?`; the two quotients are compared exactly. -/
def changed (before after : Signature) : Bool :=
  match before with
  | none => true
  | some before =>
    let after := after.getD []
    if before.length ≠ after.length then true
    else if after = [] then false
    else
      let (total, count) := (before.zip after).foldl (fun (total, count) (a, b) ↦
        let delta := (a - b).natAbs
        (total + delta, if 24 ≤ delta then count + 1 else count)) (0, 0)
      6 * after.length ≤ total || after.length ≤ 50 * count

/-- `due?` -/
def due (now : ℤ) (lastPost : Option ℤ) (before after : Signature) : Bool :=
  decide (∀ last ∈ lastPost, minimumIntervalMs ≤ now - last) && changed before after

structure Attempt (C : Type) where
  captureId : C
  generation : ℕ
  at_ : ℤ
  signature : Signature
deriving DecidableEq

structure State (C : Type) where
  captureId : C
  generation : ℕ
  signature : Signature
  lastAttempt : Option ℤ
  pending : Option (Attempt C)

variable {C : Type}

def initial (captureId : C) : State C := ⟨captureId, 0, none, none, none⟩

def refresh (state : State C) : State C :=
  { state with generation := state.generation + 1, signature := none }

def request (state : State C) (now : ℤ) (signature : Signature) : State C :=
  if state.pending = none ∧ due now state.lastAttempt state.signature signature = true then
    { state with
      lastAttempt := some now
      pending := some ⟨state.captureId, state.generation, now, signature⟩ }
  else state

/-- The generation of an answer that answers nothing is none. -/
def acknowledge [DecidableEq C] (state : State C) (attempt : Option (Attempt C)) (accepted : Bool) :
    State C :=
  if state.pending = attempt then
    if accepted = true ∧ some state.generation = attempt.map Attempt.generation then
      { state with pending := none, signature := attempt.bind Attempt.signature }
    else { state with pending := none }
  else state

inductive Event (C : Type)
  | refresh
  | request (now : ℤ) (signature : Signature)
  | acknowledge (attempt : Option (Attempt C)) (accepted : Bool)

/-- The sampler with its attempts, and the answers of some, oldest first. -/
structure History (C : Type) where
  state : State C
  attempts : List (Attempt C) := []
  answered : List (Attempt C × Bool) := []

/-- The attempts that were accepted in the generation that is current. -/
def History.accepted (h : History C) : List (Attempt C) :=
  (h.answered.filter fun a ↦ a.2 && a.1.generation = h.state.generation).map Prod.fst

variable [DecidableEq C]

def History.step (h : History C) : Event C → History C
  | .refresh => { h with state := refresh h.state }
  | .request now signature =>
    let state := request h.state now signature
    { h with
      state
      attempts := h.attempts ++ if state.pending = h.state.pending then [] else state.pending.toList }
  | .acknowledge attempt accepted =>
    { h with
      state := acknowledge h.state attempt accepted
      answered := h.answered ++
        if h.state.pending = attempt then attempt.toList.map (·, accepted) else [] }

/-- What the sampler keeps. -/
structure History.Sound (h : History C) : Prop where
  answered : h.attempts = h.answered.map Prod.fst ++ h.state.pending.toList
  last : h.state.lastAttempt = h.attempts.getLast?.map Attempt.at_
  spaced : h.attempts.Pairwise fun a b ↦ a.at_ + minimumIntervalMs ≤ b.at_
  generations : ∀ a ∈ h.attempts, a.generation ≤ h.state.generation
  baseline : h.state.signature = h.accepted.getLast?.bind Attempt.signature
  differs : ∀ a, h.state.pending = some a → changed h.state.signature a.signature = true

variable {h : History C}

theorem History.Sound.refresh (hh : h.Sound) : (h.step .refresh).Sound where
  answered := hh.answered
  last := hh.last
  spaced := hh.spaced
  generations a ha := Nat.le_succ_of_le (hh.generations a ha)
  baseline := by
    have hnone : (h.step .refresh).accepted = [] := by
      refine map_eq_nil_iff.mpr (filter_eq_nil_iff.mpr fun a ha ↦ ?_)
      have hmem : a.1 ∈ h.attempts := by
        rw [hh.answered]
        exact mem_append_left _ (mem_map_of_mem ha)
      have hne : a.1.generation ≠ h.state.generation + 1 :=
        Nat.ne_of_lt (Nat.lt_succ_of_le (hh.generations a.1 hmem))
      simp [History.step, Sampling.refresh, hne]
    rw [hnone]
    rfl
  differs _ _ := rfl

omit [DecidableEq C] in
theorem request_cases (state : State C) (now : ℤ) (signature : Signature) :
    request state now signature = state ∨
      state.pending = none ∧ (∀ last ∈ state.lastAttempt, last + minimumIntervalMs ≤ now) ∧
        changed state.signature signature ∧ request state now signature = { state with
            lastAttempt := some now
            pending := some ⟨state.captureId, state.generation, now, signature⟩ } := by
  unfold request
  split
  · next hfree =>
    obtain ⟨hinterval, hchanged⟩ := Bool.and_eq_true_iff.mp hfree.2
    refine .inr ⟨hfree.1, fun last hlast ↦ ?_, hchanged, rfl⟩
    have hpassed := of_decide_eq_true hinterval last hlast
    omega
  · exact .inl rfl

theorem History.Sound.request (hh : h.Sound) (now : ℤ) (signature : Signature) :
    (h.step (.request now signature)).Sound := by
  obtain heq | ⟨hpending, hinterval, hchanged, heq⟩ := request_cases h.state now signature
  · have hsame : h.step (.request now signature) = h := by
      simp [History.step, heq]
    rwa [hsame]
  · have hattempts := hh.answered
    simp only [hpending, toList_none, append_nil] at hattempts
    simp only [History.step, heq, hpending, reduceCtorEq, if_false, toList_some]
    refine ⟨by rw [hattempts]; rfl, by simp, pairwise_append.mpr ⟨hh.spaced, pairwise_singleton _ _, ?_⟩,
      ?_, hh.baseline, ?_⟩
    · intro a ha b hb
      obtain rfl := mem_singleton.mp hb
      -- the last attempt is the latest one
      obtain ⟨earlier, latest, hsplit⟩ := (eq_nil_or_concat' h.attempts).resolve_left
        (ne_nil_of_mem ha)
      have hspaced := hh.spaced
      have hlast := hh.last
      rw [hsplit] at ha hspaced hlast
      rw [getLast?_concat] at hlast
      have hlate := hinterval latest.at_ hlast
      change a.at_ + minimumIntervalMs ≤ now
      obtain hearlier | hlatest := mem_append.mp ha
      · have hgap := (pairwise_append.mp hspaced).2.2 a hearlier latest (mem_singleton_self _)
        have hpos : 0 < minimumIntervalMs := by decide
        omega
      · rwa [mem_singleton.mp hlatest]
    · intro a ha
      obtain hold | hnew := mem_append.mp ha
      · exact hh.generations a hold
      · obtain rfl := mem_singleton.mp hnew
        exact Nat.le_refl _
    · intro a ha
      obtain rfl := some.inj ha
      exact hchanged

theorem acknowledge_of_ne {state : State C} {attempt : Option (Attempt C)}
    (hne : attempt ≠ state.pending) (accepted : Bool) :
    acknowledge state attempt accepted = state :=
  if_neg hne.symm

theorem acknowledge_pending {state : State C} {a : Attempt C} (hpending : state.pending = some a)
    (accepted : Bool) : acknowledge state (some a) accepted = { state with
        pending := none
        signature := if accepted ∧ a.generation = state.generation then a.signature
          else state.signature } := by
  simp only [acknowledge, if_pos hpending, map_some, some.injEq, eq_comm]
  split_ifs <;> rfl

theorem History.Sound.acknowledge (hh : h.Sound) (attempt : Option (Attempt C)) (accepted : Bool) :
    (h.step (.acknowledge attempt accepted)).Sound := by
  by_cases hpending : h.state.pending = attempt
  · cases attempt with
    | none =>
      have hsame : h.step (.acknowledge none accepted) = h := by
        obtain ⟨⟨captureId, generation, signature, lastAttempt, pending⟩, attempts, answered⟩ := h
        obtain rfl : pending = none := hpending
        simp [History.step, Sampling.acknowledge]
      rwa [hsame]
    | some a =>
      have hattempts := hh.answered
      simp only [hpending, toList_some] at hattempts
      simp only [History.step, acknowledge_pending hpending, hpending, if_true, toList_some,
        map_cons, map_nil]
      refine ⟨by simp [hattempts], hh.last, hh.spaced, hh.generations, ?_, fun _ hb ↦ nomatch hb⟩
      have hbaseline := hh.baseline
      by_cases hcounts : accepted ∧ a.generation = h.state.generation
      · simp [History.accepted, hcounts]
      · have hdropped : (accepted && decide (a.generation = h.state.generation)) = false := by
          simpa using hcounts
        simpa [History.accepted, hcounts, filter_cons, hdropped] using hbaseline
  · have hsame : h.step (.acknowledge attempt accepted) = h := by
      simp [History.step, acknowledge_of_ne (Ne.symm hpending), hpending]
    rwa [hsame]

theorem History.Sound.step (hh : h.Sound) (event : Event C) : (h.step event).Sound := by
  cases event with
  | refresh => exact hh.refresh
  | request now signature => exact hh.request now signature
  | acknowledge attempt accepted => exact hh.acknowledge attempt accepted

omit [DecidableEq C] in
theorem request_of_due {state : State C} {now : ℤ} {signature : Signature}
    (hpending : state.pending = none)
    (hinterval : ∀ last ∈ state.lastAttempt, last + minimumIntervalMs ≤ now)
    (hchanged : changed state.signature signature) : (request state now signature).pending =
      some ⟨state.captureId, state.generation, now, signature⟩ := by
  have hdue : due now state.lastAttempt state.signature signature := by
    rw [due, hchanged, Bool.and_true]
    refine decide_eq_true fun last hlast ↦ ?_
    have hpassed := hinterval last hlast
    omega
  rw [request, if_pos ⟨hpending, hdue⟩]

/-- The baseline is the last frame accepted in this generation, attempts are an interval apart, and
when nothing is pending every frame that differs from the baseline is requested once the interval
has passed. -/
theorem sampling_drops_no_change (captureId : C) (events : List (Event C)) :
    let h := Runs.run History.step ⟨initial captureId, [], []⟩ events
    h.attempts = h.answered.map Prod.fst ++ h.state.pending.toList ∧
    (h.attempts.Pairwise fun a b ↦ a.at_ + minimumIntervalMs ≤ b.at_) ∧
    h.state.signature = h.accepted.getLast?.bind Attempt.signature ∧
    (∀ attempt accepted, attempt ≠ h.state.pending →
      acknowledge h.state attempt accepted = h.state) ∧
    (∀ now signature, h.state.pending = none →
      (∀ a ∈ h.attempts, a.at_ + minimumIntervalMs ≤ now) →
      changed h.state.signature signature = true →
      (request h.state now signature).pending =
        some ⟨h.state.captureId, h.state.generation, now, signature⟩) ∧
    ∀ a accepted now, h.state.pending = some a → a.at_ + minimumIntervalMs ≤ now →
      accepted = false ∨ a.generation ≠ h.state.generation →
      (request (acknowledge h.state (some a) accepted) now a.signature).pending =
        some ⟨h.state.captureId, h.state.generation, now, a.signature⟩ := by
  intro h
  have hfirst : History.Sound ⟨initial captureId, [], []⟩ :=
    ⟨rfl, rfl, .nil, fun _ ha ↦ (nomatch ha), rfl, fun _ ha ↦ (nomatch ha)⟩
  have hh : h.Sound :=
    Runs.run_preserves History.Sound (fun _ event hh ↦ hh.step event) hfirst events
  refine ⟨hh.answered, hh.spaced, hh.baseline, fun _ _ hne ↦ acknowledge_of_ne hne _,
    fun now signature hpending hinterval ↦ request_of_due hpending fun last hlast ↦ ?_,
    fun a accepted now hpending hlate hlost ↦ ?_⟩
  · rw [hh.last] at hlast
    obtain ⟨a, ha, rfl⟩ := map_eq_some_iff.mp hlast
    exact hinterval a (mem_of_getLast? ha)
  · have hnot : ¬ (accepted = true ∧ a.generation = h.state.generation) := by
      rintro ⟨rfl, hsame⟩
      exact hlost.elim (by simp) fun hne ↦ hne hsame
    have hlast : h.state.lastAttempt = some a.at_ := by
      rw [hh.last, hh.answered, hpending, toList_some, getLast?_concat]
      rfl
    rw [acknowledge_pending hpending, if_neg hnot]
    refine request_of_due rfl (fun last hmem ↦ ?_) (hh.differs a hpending)
    obtain rfl := some.inj (hlast.symm.trans hmem)
    exact hlate

end Simmis.Sampling
