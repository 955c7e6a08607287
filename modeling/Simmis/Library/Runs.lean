import Mathlib.Tactic.Tauto

/-!
# Runs of a serialized writer

A step is a total function of the state and the event; an event that the writer refuses leaves the
state alone. A run is the left fold of the events.
-/

namespace Simmis.Runs

open List

variable {σ ε : Type*} (step : σ → ε → σ)

/-- The state after all events, oldest first. -/
def run (s : σ) (events : List ε) : σ := events.foldl step s

@[simp] theorem run_nil (s : σ) : run step s [] = s := rfl

@[simp] theorem run_cons (s : σ) (e : ε) (events : List ε) :
    run step s (e :: events) = run step (step s e) events := rfl

theorem run_append (s : σ) (first second : List ε) :
    run step s (first ++ second) = run step (run step s first) second :=
  foldl_append

/-- Every event meets `guard` in the state in which it arrives. -/
def Along (guard : σ → ε → Prop) : σ → List ε → Prop
  | _, [] => True
  | s, e :: events => guard s e ∧ Along guard (step s e) events

section

variable (guard : σ → ε → Prop) (s : σ)

@[simp] theorem along_nil : Along step guard s [] := trivial

@[simp] theorem along_cons (e : ε) (events : List ε) :
    Along step guard s (e :: events) ↔ guard s e ∧ Along step guard (step s e) events := Iff.rfl

theorem along_append (first second : List ε) : Along step guard s (first ++ second) ↔
      Along step guard s first ∧ Along step guard (run step s first) second := by
  induction first generalizing s with
  | nil => simp
  | cons e first ih => simp [ih, and_assoc]

end

instance decidableAlong (guard : σ → ε → Prop) [∀ s e, Decidable (guard s e)] :
    (s : σ) → (events : List ε) → Decidable (Along step guard s events)
  | _, [] => isTrue trivial
  | s, e :: events =>
    have := decidableAlong guard (step s e) events
    inferInstanceAs (Decidable (guard s e ∧ Along step guard (step s e) events))

theorem along_iff (guard : σ → ε → Prop) (s : σ) (events : List ε) : Along step guard s events ↔
      ∀ early e late, events = early ++ e :: late → guard (run step s early) e := by
  induction events generalizing s with
  | nil => simp
  | cons e events ih =>
    rw [along_cons, ih]
    constructor
    · rintro ⟨hguard, hlater⟩ early e' late heq
      cases early with
      | nil =>
        obtain ⟨rfl, -⟩ := cons.inj heq
        exact hguard
      | cons first early =>
        obtain ⟨rfl, htail⟩ := cons.inj heq
        exact hlater early e' late htail
    · intro h
      exact ⟨h [] e events rfl, fun early e' late heq ↦ h (e :: early) e' late (by rw [heq]; rfl)⟩

theorem along_and (guard guard' : σ → ε → Prop) (s : σ) (events : List ε) :
    Along step (fun s e ↦ guard s e ∧ guard' s e) s events ↔
      Along step guard s events ∧ Along step guard' s events := by
  induction events generalizing s with
  | nil => simp
  | cons e events ih =>
    simp only [along_cons, ih]
    tauto

variable {step}

/-- The run rule for guarded steps. -/
theorem run_preserves_along (guard : σ → ε → Prop) (inv : σ → Prop)
    (hstep : ∀ s e, inv s → guard s e → inv (step s e)) {s : σ} {events : List ε}
    (hs : inv s) (halong : Along step guard s events) : inv (run step s events) := by
  induction events generalizing s with
  | nil => exact hs
  | cons e events ih => exact ih (hstep s e hs halong.1) halong.2

/-- Two guards that agree in the states of an invariant allow the same runs. -/
theorem along_congr {guard guard' : σ → ε → Prop} (inv : σ → Prop)
    (hguard : ∀ s e, inv s → (guard s e ↔ guard' s e))
    (hstep : ∀ s e, inv s → guard' s e → inv (step s e)) {s : σ} (hs : inv s) (events : List ε) :
    Along step guard s events ↔ Along step guard' s events := by
  induction events generalizing s with
  | nil => exact Iff.rfl
  | cons e events ih =>
    rw [along_cons, along_cons, hguard s e hs]
    exact and_congr_right fun hallowed ↦ ih (hstep s e hs hallowed)

/-- The run rule: what every step preserves holds after every run. -/
theorem run_preserves (inv : σ → Prop) (hstep : ∀ s e, inv s → inv (step s e)) {s : σ}
    (hs : inv s) (events : List ε) : inv (run step s events) := by
  induction events generalizing s with
  | nil => exact hs
  | cons e events ih => exact ih (hstep s e hs)

/-- A preorder that every step climbs is climbed by every run. -/
theorem run_climbs (rel : σ → σ → Prop) (inv : σ → Prop) (hrefl : ∀ s, rel s s)
    (htrans : ∀ s t u, rel s t → rel t u → rel s u)
    (hinv : ∀ s e, inv s → inv (step s e)) (hstep : ∀ s e, inv s → rel s (step s e))
    {s : σ} (hs : inv s) (events : List ε) : rel s (run step s events) := by
  induction events generalizing s with
  | nil => exact hrefl s
  | cons e events ih => exact htrans _ _ _ (hstep s e hs) (ih (hinv s e hs))

/-- Where events of other owners are invisible, a run is related to the run of the owner's events
alone. -/
theorem run_filter_related {α : Type*} [DecidableEq α] (owner : ε → α) (a : α)
    (guard : σ → ε → Prop) (rel : σ → σ → Prop)
    (hother : ∀ s t e, owner e ≠ a → guard s e → rel s t → rel (step s e) t)
    (hown : ∀ s t e, owner e = a → guard s e → rel s t → rel (step s e) (step t e))
    {s t : σ} {events : List ε} (hrel : rel s t) (halong : Along step guard s events) :
    rel (run step s events) (run step t (events.filter fun e ↦ owner e = a)) := by
  induction events generalizing s t with
  | nil => exact hrel
  | cons e events ih =>
    by_cases howner : owner e = a
    · rw [filter_cons_of_pos (by simpa using howner)]
      exact ih (hown s t e howner halong.1 hrel) halong.2
    · rw [filter_cons_of_neg (by simpa using howner)]
      exact ih (hother s t e howner halong.1 hrel) halong.2

end Simmis.Runs

namespace Simmis

/-- A recorded value is never changed or removed. -/
def Kept {α : Type} (old new : Option α) : Prop := ∀ value, old = some value → new = some value

theorem Kept.refl {α : Type} (field : Option α) : Kept field field := fun _ hfield ↦ hfield

theorem Kept.trans {α : Type} {a b c : Option α} (h₁ : Kept a b) (h₂ : Kept b c) : Kept a c :=
  fun value hvalue ↦ h₂ value (h₁ value hvalue)

theorem Kept.of_none {α : Type} (field : Option α) : Kept none field :=
  fun _ hvalue ↦ nomatch hvalue

theorem Kept.isSome {α : Type} {old new : Option α} (hkept : Kept old new)
    (hold : old.isSome) : new.isSome := by
  obtain ⟨value, hvalue⟩ := Option.isSome_iff_exists.mp hold
  rw [hkept value hvalue]
  rfl

end Simmis
