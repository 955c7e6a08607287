import Simmis.Library.Table

/-!
# Moves of rows

Rows of a table with a state that only moves forward. The moves are what each write has given to the
row under its key; where a state is given once and in order, the moves and the states agree.
-/

namespace Simmis

open List Option

variable {κ ρ σ : Type*} [DecidableEq κ] {key : ρ → κ}

/-- A row has been given each state up to its own, once. -/
structure Tracks (t : Table key) (state : ρ → σ) (rank : σ → ℕ) (moves : List (κ × σ)) : Prop where
  mem_iff : ∀ k s, (k, s) ∈ moves ↔ ∃ r, t.get k = some r ∧ rank s ≤ rank (state r)
  once : moves.Nodup

namespace Tracks

variable {t : Table key} {state : ρ → σ} {rank : σ → ℕ} {moves : List (κ × σ)}

theorem empty (state : ρ → σ) (rank : σ → ℕ) : Tracks (.empty : Table key) state rank [] :=
  ⟨fun k s ↦ by simp, nodup_nil⟩

/-- A write that gives the next state. -/
theorem put (h : Tracks t state rank moves) {r : ρ} (hnext : ∀ s, rank s ≤ rank (state r) ↔
      (∃ old, t.get (key r) = some old ∧ rank s ≤ rank (state old)) ∨ s = state r)
    (hnot : ∀ old, t.get (key r) = some old → rank (state old) < rank (state r)) :
    Tracks (t.put r) state rank (moves ++ [(key r, state r)]) := by
  constructor
  · intro k s
    rw [mem_append, h.mem_iff, mem_singleton, Prod.mk.injEq, Table.get_put]
    by_cases hk : k = key r
    · rw [if_pos hk, hk]
      simpa using (hnext s).symm
    · rw [if_neg hk]
      simp [hk]
  · rw [← concat_eq_append]
    apply h.once.concat
    rw [h.mem_iff]
    rintro ⟨old, hold, hle⟩
    exact absurd (hnot old hold) (not_lt.mpr hle)

section

variable (h : Tracks t state rank moves) (hrank : Function.Injective rank)
include h hrank

theorem put_next {old r : ρ} (hold : t.get (key r) = some old)
    (hnext : rank (state r) = rank (state old) + 1) :
    Tracks (t.put r) state rank (moves ++ [(key r, state r)]) := by
  refine h.put (fun s ↦ ?_) (fun q hq ↦ ?_)
  · simp only [hold, some.injEq, exists_eq_left', hnext]
    rw [Nat.le_add_one_iff, ← hnext, hrank.eq_iff]
  · rw [hold] at hq
    rw [← some.inj hq, hnext]
    exact Nat.lt_succ_self _

/-- New rows have no state behind theirs. -/
theorem putAll_new {rows : List ρ} (hnodup : (rows.map key).Nodup)
    (hnew : ∀ r ∈ rows, t.get (key r) = none) (hleast : ∀ r ∈ rows, rank (state r) = 0) :
    Tracks (t.putAll rows) state rank (moves ++ rows.map fun r ↦ (key r, state r)) := by
  induction rows generalizing t moves with
  | nil => simpa using h
  | cons r rows ih =>
    rw [map_cons, nodup_cons] at hnodup
    have hnone := hnew r mem_cons_self
    have hfirst : Tracks (t.put r) state rank (moves ++ [(key r, state r)]) := by
      refine h.put (fun s ↦ ?_) (fun old hold ↦ ?_)
      · rw [hleast r mem_cons_self, Nat.le_zero, ← hleast r mem_cons_self, hrank.eq_iff]
        simp [hnone]
      · rw [hnone] at hold
        cases hold
    have hrest := ih hfirst hnodup.2 (fun q hq ↦ ?_)
      (fun q hq ↦ hleast q (mem_cons_of_mem r hq))
    · rw [append_assoc] at hrest
      exact hrest
    · rw [Table.get_put, if_neg]
      · exact hnew q (mem_cons_of_mem r hq)
      · intro heq
        exact hnodup.1 (heq ▸ mem_map_of_mem hq)

theorem put_new {r : ρ} (hnew : t.get (key r) = none) (hleast : rank (state r) = 0) :
    Tracks (t.put r) state rank (moves ++ [(key r, state r)]) := by
  have hnodup : ([r].map key).Nodup := nodup_singleton _
  exact h.putAll_new hrank hnodup (fun q hq ↦ mem_singleton.mp hq ▸ hnew)
    (fun q hq ↦ mem_singleton.mp hq ▸ hleast)

end

end Tracks

end Simmis
