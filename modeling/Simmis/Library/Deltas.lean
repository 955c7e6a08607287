import Simmis.Library.Maps

/-!
# Deltas of a keyed map

A delta adds, removes or replaces the item of one key. It is replayed strictly, on a map that holds
what the delta says was there. Deltas of distinct keys replay in every order.
-/

namespace Simmis.Deltas

open List Maps

inductive Delta (V : Type)
  | add (value : V)
  | remove (oldValue : V)
  | update (oldValue value : V)
deriving DecidableEq

namespace Delta

variable {V : Type}

/-- What the delta says was there. -/
def before : Delta V → Option V
  | .add _ => none
  | .remove oldValue => some oldValue
  | .update oldValue _ => some oldValue

/-- What the delta leaves there. -/
def after : Delta V → Option V
  | .add value => some value
  | .remove _ => none
  | .update _ value => some value

/-- The item that shows the key. -/
def item : Delta V → V
  | .add value => value
  | .remove oldValue => oldValue
  | .update _ value => value

end Delta

variable {κ V : Type} [DecidableEq κ] [DecidableEq V] (keyFn : V → κ)

def key (d : Delta V) : κ := keyFn d.item

variable (m : List (κ × V))

/-- The map with or without an item at a key. -/
def put (k : κ) : Option V → List (κ × V)
  | none => dissoc m k
  | some v => assoc m k v

/-- A delta is refused where the map does not hold what it says was there. -/
def apply (d : Delta V) : Option (List (κ × V)) :=
  if get? m (key keyFn d) = d.before then some (put m (key keyFn d) d.after) else none

def replay (deltas : List (Delta V)) : Option (List (κ × V)) := deltas.foldlM (apply keyFn) m

omit [DecidableEq V] in
theorem get?_put (k l : κ) (v : Option V) : get? (put m k v) l = if k = l then v else get? m l := by
  cases v with
  | none => exact get?_dissoc m k l
  | some v => exact get?_assoc m k l v

variable {keyFn} {m : List (κ × V)}

/-- Deltas of distinct keys replay on a map that holds what each of them says was there. -/
theorem replay_of_fits {deltas : List (Delta V)} (hkeys : (deltas.map (key keyFn)).Nodup)
    (hfits : ∀ d ∈ deltas, get? m (key keyFn d) = d.before) :
    ∃ n, replay keyFn m deltas = some n ∧ (∀ d ∈ deltas, get? n (key keyFn d) = d.after) ∧
      ∀ k, k ∉ deltas.map (key keyFn) → get? n k = get? m k := by
  induction deltas generalizing m with
  | nil => exact ⟨m, rfl, by simp, fun k _ ↦ rfl⟩
  | cons d deltas ih =>
    rw [map_cons, nodup_cons] at hkeys
    obtain ⟨hnew, hkeys⟩ := hkeys
    have hstep : apply keyFn m d = some (put m (key keyFn d) d.after) :=
      if_pos (hfits d (mem_cons_self ..))
    have hlater : ∀ e ∈ deltas, get? (put m (key keyFn d) d.after) (key keyFn e) = e.before := by
      intro e he
      have hother : key keyFn d ≠ key keyFn e :=
        fun hsame ↦ hnew (mem_map.mpr ⟨e, he, hsame.symm⟩)
      rw [get?_put, if_neg hother]
      exact hfits e (mem_cons_of_mem _ he)
    obtain ⟨n, hreplay, hafter, hframe⟩ := ih hkeys hlater
    have hrun : replay keyFn m (d :: deltas) = some n := by
      unfold replay at hreplay ⊢
      rw [foldlM_cons, hstep]
      exact hreplay
    have hfirst : get? n (key keyFn d) = d.after := by
      rw [hframe _ hnew, get?_put, if_pos rfl]
    refine ⟨n, hrun, ?_, ?_⟩
    · intro e he
      obtain rfl | he := mem_cons.mp he
      · exact hfirst
      · exact hafter e he
    · intro k hk
      rw [map_cons, mem_cons, not_or] at hk
      rw [hframe k hk.2, get?_put, if_neg fun h ↦ hk.1 h.symm]

/-- Deltas whose keys are the keys at which two maps differ replay the one to the other. -/
theorem replay_to {n : List (κ × V)} {deltas : List (Delta V)}
    (hkeys : (deltas.map (key keyFn)).Nodup)
    (hbefore : ∀ d ∈ deltas, get? m (key keyFn d) = d.before)
    (hafter : ∀ d ∈ deltas, get? n (key keyFn d) = d.after)
    (hsame : ∀ k, k ∉ deltas.map (key keyFn) → get? m k = get? n k) :
    ∃ n', replay keyFn m deltas = some n' ∧ ∀ k, get? n' k = get? n k := by
  obtain ⟨n', hreplay, hreached, hframe⟩ := replay_of_fits hkeys hbefore
  refine ⟨n', hreplay, fun k ↦ ?_⟩
  by_cases hk : k ∈ deltas.map (key keyFn)
  · obtain ⟨d, hd, rfl⟩ := mem_map.mp hk
    rw [hreached d hd, hafter d hd]
  · rw [hframe k hk, hsame k hk]

end Simmis.Deltas
