import Mathlib.Data.List.Basic

/-!
# Scans for matches

A scan goes through a list from the left, takes every match where it stands and goes on behind it. A
match may depend on standing at the start of the input. What has been scanned can be written again
piece by piece.
-/

namespace Simmis.Scans

open List

variable {α μ : Type*}

/-- The matches of a list and the elements outside of them. -/
def scan (matchAt : Bool → List α → Option (μ × List α)) (again : Bool) :
    ℕ → Bool → List α → List (α ⊕ μ)
  | 0, _, _ => []
  | _ + 1, _, [] => []
  | fuel + 1, start, a :: s =>
    match matchAt start (a :: s) with
    | some (m, rest) => .inr m :: scan matchAt again fuel again rest
    | none => .inl a :: scan matchAt again fuel false s

/-- A list has no more pieces than elements. -/
def pieces (matchAt : Bool → List α → Option (μ × List α)) (again start : Bool) (s : List α) :
    List (α ⊕ μ) :=
  scan matchAt again s.length start s

def found (ps : List (α ⊕ μ)) : List μ := ps.filterMap Sum.getRight?

variable (source : μ → List α)

/-- What the pieces are written as. -/
def join (ps : List (α ⊕ μ)) : List α := ps.flatMap (Sum.elim ([·]) source)

@[simp] theorem join_nil : join source ([] : List (α ⊕ μ)) = [] := rfl

@[simp] theorem join_text (a : α) (ps : List (α ⊕ μ)) :
    join source (.inl a :: ps) = a :: join source ps := rfl

@[simp] theorem join_match (m : μ) (ps : List (α ⊕ μ)) :
    join source (.inr m :: ps) = source m ++ join source ps := rfl

@[simp] theorem found_nil : found ([] : List (α ⊕ μ)) = [] := rfl

@[simp] theorem found_text (a : α) (ps : List (α ⊕ μ)) : found (.inl a :: ps) = found ps := rfl

@[simp] theorem found_match (m : μ) (ps : List (α ⊕ μ)) :
    found (.inr m :: ps) = m :: found ps := rfl

@[simp] theorem pieces_nil (matchAt : Bool → List α → Option (μ × List α)) (again start : Bool) :
    pieces matchAt again start [] = [] := rfl

theorem found_map {ν : Type*} (f : μ → ν) (ps : List (α ⊕ μ)) :
    found (ps.map (Sum.map id f)) = (found ps).map f := by
  induction ps with
  | nil => rfl
  | cons p ps ih => cases p <;> simp [ih]

theorem join_map {ν : Type*} (f : μ → ν) (source : ν → List α) (ps : List (α ⊕ μ)) :
    join source (ps.map (Sum.map id f)) = join (source ∘ f) ps := by
  induction ps with
  | nil => rfl
  | cons p ps ih => cases p <;> simp [ih]

theorem join_congr {source source' : μ → List α} {ps : List (α ⊕ μ)}
    (h : ∀ m ∈ found ps, source m = source' m) : join source ps = join source' ps := by
  induction ps with
  | nil => rfl
  | cons p ps ih =>
    cases p with
    | inl a => simp [ih h]
    | inr m =>
      obtain ⟨hm, hps⟩ := forall_mem_cons.mp h
      simp [hm, ih hps]

/-- A match is its source, which is not empty. -/
structure Reads (matchAt : Bool → List α → Option (μ × List α)) (source : μ → List α) : Prop where
  spells : ∀ start s m rest, matchAt start s = some (m, rest) → s = source m ++ rest
  nonempty : ∀ start s m rest, matchAt start s = some (m, rest) → source m ≠ []

variable {matchAt : Bool → List α → Option (μ × List α)} {source : μ → List α} {again : Bool}

section

variable (h : Reads matchAt source)

include h

theorem Reads.shorter {start : Bool} {s rest : List α} {m : μ}
    (hm : matchAt start s = some (m, rest)) : rest.length < s.length := by
  have hlength := congrArg length (h.spells start s m rest hm)
  have hpos := length_pos_iff.mpr (h.nonempty start s m rest hm)
  rw [length_append] at hlength
  omega

/-- The cases of a scan, with what it leaves to do. -/
theorem Reads.induction (again : Bool) {p : Bool → List α → Prop} (hnil : ∀ start, p start [])
    (htext : ∀ start a s, matchAt start (a :: s) = none → p false s → p start (a :: s))
    (hmatch : ∀ start s m rest, matchAt start s = some (m, rest) → p again rest → p start s)
    (start : Bool) (s : List α) : p start s := by
  induction hn : s.length using Nat.strongRecOn generalizing start s with
  | _ n ih =>
    cases s with
    | nil => exact hnil start
    | cons a s =>
      cases hm : matchAt start (a :: s) with
      | none =>
        refine htext start a s hm (ih s.length ?_ false s rfl)
        simp [← hn]
      | some split =>
        obtain ⟨m, rest⟩ := split
        have hshorter := h.shorter hm
        exact hmatch start _ m rest hm (ih rest.length (by omega) again rest rfl)

theorem Reads.scan_eq {fuel : ℕ} {s : List α} (hfuel : s.length ≤ fuel) (start : Bool) :
    scan matchAt again fuel start s = pieces matchAt again start s := by
  have hany : ∀ start s, ∀ m n : ℕ, s.length ≤ m → s.length ≤ n →
      scan matchAt again m start s = scan matchAt again n start s := by
    refine h.induction again ?_ ?_ ?_
    · intro start m n _ _
      cases m <;> cases n <;> rfl
    · intro start a s hnone ih m n hm hn
      obtain ⟨m, rfl⟩ := Nat.exists_eq_add_of_le' (Nat.lt_of_lt_of_le (Nat.succ_pos _) hm)
      obtain ⟨n, rfl⟩ := Nat.exists_eq_add_of_le' (Nat.lt_of_lt_of_le (Nat.succ_pos _) hn)
      simp only [length_cons] at hm hn
      simp [scan, hnone, ih m n (by omega) (by omega)]
    · intro start s k rest hsome ih m n hm hn
      have hshorter := h.shorter hsome
      obtain ⟨m, rfl⟩ := Nat.exists_eq_add_of_le' (show 1 ≤ m by omega)
      obtain ⟨n, rfl⟩ := Nat.exists_eq_add_of_le' (show 1 ≤ n by omega)
      cases s with
      | nil => simp at hshorter
      | cons a s =>
        simp [scan, hsome, ih m n (by omega) (by omega)]
  exact hany start s fuel s.length hfuel (Nat.le_refl _)

theorem Reads.pieces_text {start : Bool} {a : α} {s : List α}
    (hnone : matchAt start (a :: s) = none) :
    pieces matchAt again start (a :: s) = .inl a :: pieces matchAt again false s := by
  rw [pieces, length_cons, scan, hnone]
  exact congrArg _ (h.scan_eq (Nat.le_refl _) false)

theorem Reads.pieces_match {start : Bool} {s rest : List α} {m : μ}
    (hsome : matchAt start s = some (m, rest)) :
    pieces matchAt again start s = .inr m :: pieces matchAt again again rest := by
  have hshorter := h.shorter hsome
  cases s with
  | nil => simp at hshorter
  | cons a s =>
    rw [pieces, length_cons, scan, hsome]
    exact congrArg _ (h.scan_eq (by simpa [Nat.lt_succ_iff] using hshorter) again)

theorem Reads.join_pieces (start : Bool) (s : List α) :
    join source (pieces matchAt again start s) = s := by
  refine h.induction again (p := fun start s ↦ join source (pieces matchAt again start s) = s)
    ?_ ?_ ?_ start s
  · exact fun _ ↦ rfl
  · intro start a s hnone ih
    rw [h.pieces_text hnone, join_text, ih]
  · intro start s m rest hsome ih
    rw [h.pieces_match hsome, join_match, ih, ← h.spells start s m rest hsome]

end

end Simmis.Scans
