import Simmis.Library.Checks
import Simmis.Library.Subsequences
import Simmis.Library.Substitutions

/-!
# Changed hunks

Two lists of blocks are aligned along a longest common subsequence. What lies between two of its
anchors has changed and becomes a hunk.
-/

namespace Simmis.RichDocuments

open List Subsequences Substitutions Nat

/-- The blocks from `a` to `b` of the old list become those from `c` to `d`. -/
structure Hunk where
  a : ℕ
  b : ℕ
  c : ℕ
  d : ℕ
deriving DecidableEq

inductive Refusal
  | boundary
  | limit
  | unsupported
  | index
deriving DecidableEq

def maxCells : ℕ := 160000

section Table

variable {α : Type} [DecidableEq α]

/-- The row of a block of the old list, filled from its end, over the row `below` it. -/
def lcsRow (x : α) : List α → List ℕ → List ℕ
  | y :: ys, cell :: below =>
    let row := lcsRow x ys below
    (if x = y then below.headD 0 + 1 else max cell (row.headD 0)) :: row
  | _, _ => [0]

/-- The table, filled from its last row. -/
def lcsTable (new : List α) : List α → List (List ℕ)
  | [] => [List.replicate (new.length + 1) 0]
  | x :: old =>
    let table := lcsTable new old
    lcsRow x new (table.headD []) :: table

/-- `get-in` -/
def cellAt (table : List (List ℕ)) (i j : ℕ) : ℕ := ((table[i]?.getD [])[j]?).getD 0

/-- The pairs of equal blocks on the way through the table. -/
def matchedFrom (table : List (List ℕ)) (old new : List α) (i j : ℕ) : List (ℕ × ℕ) :=
  if h : i < old.length ∧ j < new.length then
    if old[i] = new[j] then (i, j) :: matchedFrom table old new (i + 1) (j + 1)
    else if cellAt table (i + 1) j ≥ cellAt table i (j + 1) then
      matchedFrom table old new (i + 1) j
    else matchedFrom table old new i (j + 1)
  else []
termination_by (old.length - i) + (new.length - j)

/-- The anchors, with the ends of both lists as the last one. -/
def anchors (old new : List α) : List (ℕ × ℕ) :=
  matchedFrom (lcsTable new old) old new 0 0 ++ [(old.length, new.length)]

/-- What lies between the anchors, from `i` and `j` on. -/
def hunksFrom : ℕ → ℕ → List (ℕ × ℕ) → List Hunk
  | _, _, [] => []
  | i, j, (a, b) :: rest =>
    (if i < a ∨ j < b then [⟨i, a, j, b⟩] else []) ++ hunksFrom (a + 1) (b + 1) rest

def changedHunks (old new : List α) : Except Refusal (List Hunk) := do
  require (¬old.length * new.length > maxCells) .limit
  pure (hunksFrom 0 0 (anchors old new))

end Table

section Alignment

variable {α : Type} [DecidableEq α] {x : α} {old new : List α} {i j : ℕ}

theorem lcsRow_eq (xs : List α) :
    lcsRow x new (new.tails.map (lcsLength xs)) = new.tails.map (lcsLength (x :: xs)) := by
  induction new with
  | nil => simp [lcsRow, lcsLength_nil_right]
  | cons y ys ih =>
    have hhead : ∀ zs : List α, (ys.tails.map (lcsLength zs)).headD 0 = lcsLength zs ys := by
      intro zs
      cases ys <;> rfl
    rw [tails_cons, map_cons, map_cons, lcsRow, ih, hhead, hhead]
    by_cases hxy : x = y
    · rw [hxy, if_pos rfl, lcsLength_cons_self]
    · rw [if_neg hxy, lcsLength_cons_of_ne hxy]

/-- A cell is the length of a longest common subsequence of the rests. -/
theorem lcsTable_eq : lcsTable new old = old.tails.map fun xs ↦ new.tails.map (lcsLength xs) := by
  induction old with
  | nil =>
    have hzero : new.tails.map (lcsLength []) = replicate (new.length + 1) 0 := by
      rw [← length_tails new, ← map_const']
      apply map_congr_left
      intro ys _
      exact lcsLength_nil_left
    rw [lcsTable, ← hzero]
    rfl
  | cons x old ih =>
    have hhead : (old.tails.map fun xs ↦ new.tails.map (lcsLength xs)).headD [] =
        new.tails.map (lcsLength old) := by
      cases old <;> rfl
    rw [lcsTable, ih, hhead, lcsRow_eq, tails_cons, map_cons]

theorem cellAt_lcsTable (hi : i ≤ old.length) (hj : j ≤ new.length) :
    cellAt (lcsTable new old) i j = lcsLength (old.drop i) (new.drop j) := by
  have htail : ∀ (l : List α) (k : ℕ), k ≤ l.length → l.tails[k]? = some (l.drop k) := by
    intro l k hk
    have hlt : k < l.tails.length := by
      rw [length_tails]
      omega
    rw [getElem?_eq_getElem hlt, getElem_tails]
  rw [cellAt, lcsTable_eq, getElem?_map, htail old i hi]
  simp [htail new j hj]

/-- Positions of both lists that increase from `i` and `j` on. -/
def Increasing : ℕ → ℕ → List (ℕ × ℕ) → Prop
  | _, _, [] => True
  | i, j, (a, b) :: rest => i ≤ a ∧ j ≤ b ∧ Increasing (a + 1) (b + 1) rest

theorem Increasing.mono {pairs : List (ℕ × ℕ)} {k l : ℕ} (h : Increasing i j pairs) (hk : k ≤ i)
    (hl : l ≤ j) : Increasing k l pairs := by
  cases pairs with
  | nil => trivial
  | cons p rest => exact ⟨hk.trans h.1, hl.trans h.2.1, h.2.2⟩

/-- The way through the table collects a longest common subsequence. -/
theorem matchedFrom_spec (hi : i ≤ old.length) (hj : j ≤ new.length) :
    Increasing i j (matchedFrom (lcsTable new old) old new i j) ∧
      (∀ p ∈ matchedFrom (lcsTable new old) old new i j,
        ∃ x, old[p.1]? = some x ∧ new[p.2]? = some x) ∧
      (matchedFrom (lcsTable new old) old new i j).length =
        lcsLength (old.drop i) (new.drop j) := by
  fun_induction matchedFrom (lcsTable new old) old new i j with
  | case1 i j h heq ih =>
    obtain ⟨hincreasing, hequal, hlength⟩ := ih (by omega) (by omega)
    refine ⟨⟨le_rfl, le_rfl, hincreasing⟩, forall_mem_cons.mpr ⟨⟨old[i], ?_⟩, hequal⟩, ?_⟩
    · exact ⟨getElem?_eq_getElem h.1, heq ▸ getElem?_eq_getElem h.2⟩
    · rw [length_cons, hlength, drop_eq_getElem_cons h.1, drop_eq_getElem_cons h.2,
        heq, lcsLength_cons_self]
  | case2 i j h hne hge ih =>
    obtain ⟨hincreasing, hequal, hlength⟩ := ih (by omega) (by omega)
    refine ⟨hincreasing.mono (by omega) le_rfl, hequal, ?_⟩
    rw [cellAt_lcsTable (by omega) (by omega), cellAt_lcsTable (by omega) (by omega)] at hge
    rw [hlength, drop_eq_getElem_cons h.1, drop_eq_getElem_cons h.2,
      lcsLength_cons_of_ne hne, ← drop_eq_getElem_cons h.1, ← drop_eq_getElem_cons h.2]
    omega
  | case3 i j h hne hlt ih =>
    obtain ⟨hincreasing, hequal, hlength⟩ := ih (by omega) (by omega)
    refine ⟨hincreasing.mono le_rfl (by omega), hequal, ?_⟩
    rw [cellAt_lcsTable (by omega) (by omega), cellAt_lcsTable (by omega) (by omega)] at hlt
    rw [hlength, drop_eq_getElem_cons h.1, drop_eq_getElem_cons h.2,
      lcsLength_cons_of_ne hne, ← drop_eq_getElem_cons h.1, ← drop_eq_getElem_cons h.2]
    omega
  | case4 i j hend =>
    refine ⟨trivial, by simp, ?_⟩
    have hend : i = old.length ∨ j = new.length := by omega
    rcases hend with rfl | rfl
    · rw [drop_length, lcsLength_nil_left]
      rfl
    · rw [drop_length, lcsLength_nil_right]
      rfl

end Alignment

section Hunks

variable {i j n m : ℕ} {pairs rest : List (ℕ × ℕ)}

/-- What the hunks of increasing anchors satisfy. -/
structure Hunk.Within (i j n m : ℕ) (h : Hunk) : Prop where
  first : i ≤ h.a ∧ j ≤ h.c
  ordered : h.a ≤ h.b ∧ h.c ≤ h.d
  nonempty : h.a < h.b ∨ h.c < h.d
  last : h.b ≤ n ∧ h.d ≤ m

/-- Between two hunks there is an anchor. -/
def Hunk.Separate (h k : Hunk) : Prop := h.b < k.a ∧ h.d < k.c

section

variable (h : Increasing i j (pairs ++ [(n, m)]))
include h

theorem Increasing.le_last : i ≤ n ∧ j ≤ m := by
  induction pairs generalizing i j with
  | nil => exact ⟨h.1, h.2.1⟩
  | cons p pairs ih =>
    have hlast := ih h.2.2
    obtain ⟨hi, hj, -⟩ := h
    omega

theorem hunksFrom_within : ∀ hunk ∈ hunksFrom i j (pairs ++ [(n, m)]), hunk.Within i j n m := by
  induction pairs generalizing i j with
  | nil =>
    obtain ⟨hi, hj, -⟩ := h
    intro hunk hhunk
    rw [nil_append, hunksFrom, hunksFrom, append_nil] at hhunk
    split at hhunk
    · obtain rfl := mem_singleton.mp hhunk
      exact ⟨⟨le_rfl, le_rfl⟩, ⟨hi, hj⟩, ‹_›, ⟨le_rfl, le_rfl⟩⟩
    · exact absurd hhunk not_mem_nil
  | cons p pairs ih =>
    have hlast := h.2.2.le_last
    have ih := ih h.2.2
    obtain ⟨hi, hj, -⟩ := h
    intro hunk hhunk
    rw [cons_append, hunksFrom, mem_append] at hhunk
    rcases hhunk with hhunk | hhunk
    · split at hhunk
      · obtain rfl := mem_singleton.mp hhunk
        exact ⟨⟨le_rfl, le_rfl⟩, ⟨hi, hj⟩, ‹_›,
          ⟨le_of_succ_le hlast.1, le_of_succ_le hlast.2⟩⟩
      · exact absurd hhunk not_mem_nil
    · have hwithin := ih hunk hhunk
      obtain ⟨hfirst, hfirst'⟩ := hwithin.first
      exact { hwithin with first := ⟨by omega, by omega⟩ }

theorem hunksFrom_separate : (hunksFrom i j (pairs ++ [(n, m)])).Pairwise Hunk.Separate := by
  induction pairs generalizing i j with
  | nil =>
    rw [nil_append, hunksFrom, hunksFrom, append_nil]
    split <;> simp
  | cons p pairs ih =>
    have hwithin := hunksFrom_within h.2.2
    have ih := ih h.2.2
    rw [cons_append, hunksFrom]
    split
    · rw [singleton_append, pairwise_cons]
      refine ⟨fun hunk hhunk ↦ ?_, ih⟩
      have hfirst := (hwithin hunk hhunk).first
      simp only [Hunk.Separate]
      omega
    · exact ih

end

variable {β : Type*} {source : List β} {side : ℕ → ℕ → ℕ} {text : Hunk → List β}

/-- A hunk as the replacement of a range of one of the lists. -/
def Hunk.edit (side : ℕ → ℕ → ℕ) (text : Hunk → List β) (h : Hunk) : Edit β :=
  ⟨side h.a h.c, side h.b h.d, text h⟩

/-- The texts of the hunks with the anchors between them. -/
def woven (source : List β) (side : ℕ → ℕ → ℕ) (text : Hunk → List β) :
    ℕ → ℕ → List (ℕ × ℕ) → List β
  | _, _, [] => []
  | i, j, (a, b) :: rest =>
    (if i < a ∨ j < b then text ⟨i, a, j, b⟩ else []) ++ source[side a b]?.toList ++
      woven source side text (a + 1) (b + 1) rest

/-- `side` reads the position in the old list or the one in the new list. -/
def IsSide (side : ℕ → ℕ → ℕ) : Prop := side = (fun i _ ↦ i) ∨ side = fun _ j ↦ j

theorem IsSide.mono (h : IsSide side) {a b : ℕ} (hi : i ≤ a) (hj : j ≤ b) :
    side i j ≤ side a b := by
  rcases h with rfl | rfl
  · exact hi
  · exact hj

theorem IsSide.succ (h : IsSide side) (i j : ℕ) : side (i + 1) (j + 1) = side i j + 1 := by
  rcases h with rfl | rfl <;> rfl

/-- The hunk in front of an anchor, or nothing. -/
theorem after_gap (text : Hunk → List β) (later : List (Edit β)) (hside : IsSide side) {a b : ℕ}
    (hi : i ≤ a) (hj : j ≤ b) (hb : side a b ≤ source.length)
    (hlater : ∀ e ∈ later, side a b < e.start) :
    after source (((if i < a ∨ j < b then [⟨i, a, j, b⟩] else []) : List Hunk).map
        (Hunk.edit side text) ++ later) (side i j) =
      (if i < a ∨ j < b then text ⟨i, a, j, b⟩ else []) ++ after source later (side a b) := by
  have hle := hside.mono hi hj
  by_cases hgap : i < a ∨ j < b
  · rw [if_pos hgap, if_pos hgap, map_singleton, singleton_append]
    apply after_cons hle hb
    intro e he
    have hlt := hlater e he
    simp only [Before, Hunk.edit]
    omega
  · obtain rfl : i = a := by omega
    obtain rfl : j = b := by omega
    rw [if_neg hgap, if_neg hgap]
    rfl

theorem after_hunks (hside : IsSide side) (hend : side n m = source.length)
    (h : Increasing i j (pairs ++ [(n, m)])) (hpairs : ∀ p ∈ pairs, side p.1 p.2 < source.length) :
    after source ((hunksFrom i j (pairs ++ [(n, m)])).map (Hunk.edit side text)) (side i j) =
      woven source side text i j (pairs ++ [(n, m)]) := by
  induction pairs generalizing i j with
  | nil =>
    have hgap := after_gap text [] hside h.1 h.2.1 hend.le (by simp)
    rw [append_nil] at hgap
    rw [nil_append, hunksFrom, hunksFrom, append_nil, hgap, hend,
      after_nil le_rfl, woven, woven, hend, drop_length]
    simp
  | cons p pairs ih =>
    obtain ⟨a, b⟩ := p
    obtain ⟨hhead, hpairs⟩ := forall_mem_cons.mp hpairs
    have hlt : side a b < source.length := hhead
    have hwithin := hunksFrom_within h.2.2
    let later := (hunksFrom (a + 1) (b + 1) (pairs ++ [(n, m)])).map (Hunk.edit side text)
    have hstarts : ∀ e ∈ later, side a b + 1 ≤ e.start := by
      intro e he
      obtain ⟨hunk, hhunk, rfl⟩ := mem_map.mp he
      have hfirst := (hwithin hunk hhunk).first
      rw [← hside.succ]
      exact hside.mono hfirst.1 hfirst.2
    have hanchor : (source.drop (side a b)).take (side a b + 1 - side a b) =
        source[side a b]?.toList := by
      rw [Nat.add_sub_cancel_left, drop_eq_getElem_cons hlt, getElem?_eq_getElem hlt]
      rfl
    have hrest : after source later (side a b + 1) =
        woven source side text (a + 1) (b + 1) (pairs ++ [(n, m)]) := by
      rw [← hside.succ]
      exact ih h.2.2 hpairs
    rw [cons_append, hunksFrom, map_append, after_gap text later hside h.1 h.2.1 hlt.le hstarts,
      after_eq (le_add_right _ 1) hlt hstarts, hanchor, hrest, woven, append_assoc]

end Hunks

section Diff

variable {α : Type}

/-- The blocks that a hunk brings. -/
def Hunk.brings (new : List α) (h : Hunk) : List α := (new.drop h.c).take (h.d - h.c)

/-- The hunks are applied from the last to the first. -/
def applyHunks (old new : List α) (hunks : List Hunk) : List α :=
  hunks.foldr (fun h blocks ↦ splice blocks (h.edit (fun i _ ↦ i) (Hunk.brings new))) old

/-- The blocks of one of the lists that lie in no hunk. -/
def unchanged (side : ℕ → ℕ → ℕ) (blocks : List α) (hunks : List Hunk) : List α :=
  substitute blocks (hunks.map (Hunk.edit side fun _ ↦ []))

/-- What the hunks of two lists are. -/
structure Diff (old new : List α) (hunks : List Hunk) : Prop where
  rebuilds : applyHunks old new hunks = new
  within : ∀ hunk ∈ hunks, hunk.Within 0 0 old.length new.length
  separate : hunks.Pairwise Hunk.Separate
  common : ∃ l, Subsequences.Longest l old new ∧ unchanged (fun i _ ↦ i) old hunks = l ∧
    unchanged (fun _ j ↦ j) new hunks = l

variable {old new source : List α} {pairs : List (ℕ × ℕ)} {i j n m : ℕ}

theorem woven_brings (h : Increasing i j (pairs ++ [(old.length, new.length)]))
    (hequal : ∀ p ∈ pairs, ∃ x, old[p.1]? = some x ∧ new[p.2]? = some x) :
    woven old (fun i _ ↦ i) (Hunk.brings new) i j (pairs ++ [(old.length, new.length)]) =
      new.drop j := by
  induction pairs generalizing i j with
  | nil =>
    obtain ⟨hi, hj, -⟩ := h
    rw [nil_append, woven, woven, append_nil, getElem?_eq_none le_rfl]
    split
    · simp [Hunk.brings]
    · have hend : j = new.length := by omega
      simp [hend]
  | cons p pairs ih =>
    obtain ⟨a, b⟩ := p
    obtain ⟨⟨x, hold, hnew⟩, hequal⟩ := forall_mem_cons.mp hequal
    have ih := ih h.2.2 hequal
    obtain ⟨hi, hj, -⟩ := h
    have hdrop : new.drop b = x :: new.drop (b + 1) := by
      obtain ⟨hlt, hx⟩ := List.getElem?_eq_some_iff.mp hnew
      rw [drop_eq_getElem_cons hlt, hx]
    have hgap : (if i < a ∨ j < b then Hunk.brings new ⟨i, a, j, b⟩ else []) =
        (new.drop j).take (b - j) := by
      split
      · rfl
      · rw [show b - j = 0 by omega, take_zero]
    calc
      woven old (fun i _ ↦ i) (Hunk.brings new) i j
          ((a, b) :: pairs ++ [(old.length, new.length)]) =
          (new.drop j).take (b - j) ++ new.drop b := by
        rw [cons_append, woven, ih, hgap, hold, hdrop, append_assoc]
        rfl
      _ = (new.drop j).take (b - j) ++ (new.drop j).drop (b - j) := by
        rw [drop_drop, show j + (b - j) = b by omega]
      _ = new.drop j := take_append_drop _ _

theorem woven_nil {side : ℕ → ℕ → ℕ} :
    woven source side (fun _ ↦ []) i j pairs = pairs.filterMap fun p ↦ source[side p.1 p.2]? := by
  induction pairs generalizing i j with
  | nil => rfl
  | cons p pairs ih =>
    rw [woven, ih, ite_self, nil_append, filterMap_cons]
    cases source[side p.1 p.2]? <;> rfl

theorem filterMap_sublist {side : ℕ → ℕ → ℕ} (hside : IsSide side) (h : Increasing i j pairs) :
    (pairs.filterMap fun p ↦ source[side p.1 p.2]?).Sublist (source.drop (side i j)) := by
  induction pairs generalizing i j with
  | nil => exact nil_sublist _
  | cons p pairs ih =>
    obtain ⟨a, b⟩ := p
    have ih := ih h.2.2
    rw [hside.succ] at ih
    have hle := hside.mono h.1 h.2.1
    have hskip : (source.drop (side a b)).Sublist (source.drop (side i j)) :=
      drop_sublist_drop_left source hle
    refine List.Sublist.trans ?_ hskip
    rw [filterMap_cons]
    cases hget : source[side a b]? with
    | none => exact ih.trans (drop_sublist_drop_left source (le_succ _))
    | some x =>
      obtain ⟨hlt, hx⟩ := List.getElem?_eq_some_iff.mp hget
      rw [drop_eq_getElem_cons hlt, hx]
      exact ih.cons_cons x

theorem before_of_separate {β : Type*} {side : ℕ → ℕ → ℕ} {text : Hunk → List β} {hunks : List Hunk}
    (hside : IsSide side) (hwithin : ∀ hunk ∈ hunks, hunk.Within 0 0 n m)
    (hseparate : hunks.Pairwise Hunk.Separate) :
    (hunks.map (Hunk.edit side text)).Pairwise Before := by
  rw [pairwise_map]
  refine hseparate.imp_of_mem fun ha _ hab ↦ ?_
  have hordered := (hwithin _ ha).ordered
  obtain ⟨hold, hnew⟩ := hab
  rcases hside with rfl | rfl
  · simp only [Before, Hunk.edit]
    omega
  · simp only [Before, Hunk.edit]
    omega

theorem getElem?_of_matched {p : ℕ × ℕ} (h : ∃ x, old[p.1]? = some x ∧ new[p.2]? = some x) :
    old[p.1]? = new[p.2]? ∧ p.1 < old.length ∧ p.2 < new.length := by
  obtain ⟨x, hold, hnew⟩ := h
  exact ⟨hold.trans hnew.symm, (List.getElem?_eq_some_iff.mp hold).1,
    (List.getElem?_eq_some_iff.mp hnew).1⟩

theorem Increasing.concat (h : Increasing i j pairs) (hij : i ≤ n ∧ j ≤ m)
    (hpairs : ∀ p ∈ pairs, p.1 < n ∧ p.2 < m) : Increasing i j (pairs ++ [(n, m)]) := by
  induction pairs generalizing i j with
  | nil => exact ⟨hij.1, hij.2, trivial⟩
  | cons p pairs ih =>
    obtain ⟨hp, hpairs⟩ := forall_mem_cons.mp hpairs
    exact ⟨h.1, h.2.1, ih h.2.2 hp hpairs⟩

variable [DecidableEq α]

theorem changedHunks_eq_ok {hunks : List Hunk} : changedHunks old new = .ok hunks ↔
    old.length * new.length ≤ maxCells ∧ hunks = hunksFrom 0 0 (anchors old new) := by
  rw [changedHunks, bind_eq_ok, Unique.exists_iff, require_eq_ok, not_lt]
  exact and_congr_right fun _ ↦ ⟨fun h ↦ (Except.ok.inj h).symm, fun h ↦ congrArg _ h.symm⟩

/-- Hunks that are not refused rebuild the new list around a longest common subsequence. -/
theorem changedHunks_diff {hunks : List Hunk} (h : changedHunks old new = .ok hunks) :
    Diff old new hunks := by
  obtain ⟨-, rfl⟩ := changedHunks_eq_ok.mp h
  let pairs := matchedFrom (lcsTable new old) old new 0 0
  obtain ⟨hmatched, hequal, hlength⟩ :=
    matchedFrom_spec (zero_le old.length) (zero_le new.length)
  have hincreasing : Increasing 0 0 (anchors old new) :=
    hmatched.concat ⟨zero_le _, zero_le _⟩ fun p hp ↦ (getElem?_of_matched (hequal p hp)).2
  have hwithin := hunksFrom_within hincreasing
  have hseparate := hunksFrom_separate hincreasing
  let l := pairs.filterMap fun p ↦ old[p.1]?
  have hl : l = pairs.filterMap fun p ↦ new[p.2]? :=
    filterMap_congr fun p hp ↦ (getElem?_of_matched (hequal p hp)).1
  have holdSide : IsSide fun i _ ↦ i := .inl rfl
  have hnewSide : IsSide fun _ j ↦ j := .inr rfl
  have hold : ∀ p ∈ pairs, p.1 < old.length := fun p hp ↦ (getElem?_of_matched (hequal p hp)).2.1
  have hnew : ∀ p ∈ pairs, p.2 < new.length := fun p hp ↦ (getElem?_of_matched (hequal p hp)).2.2
  refine ⟨?_, hwithin, hseparate, l, ?_, ?_, ?_⟩
  · have hvalid : ∀ e ∈ (hunksFrom 0 0 (anchors old new)).map
        (Hunk.edit (fun i _ ↦ i) (Hunk.brings new)), e.start ≤ e.stop ∧ e.stop ≤ old.length := by
      intro e he
      obtain ⟨hunk, hhunk, rfl⟩ := mem_map.mp he
      exact ⟨(hwithin hunk hhunk).ordered.1, (hwithin hunk hhunk).last.1⟩
    calc
      applyHunks old new (hunksFrom 0 0 (anchors old new)) =
          substitute old ((hunksFrom 0 0 (anchors old new)).map
            (Hunk.edit (fun i _ ↦ i) (Hunk.brings new))) := by
        rw [applyHunks, ← foldr_splice hvalid (before_of_separate holdSide hwithin hseparate),
          foldr_map]
      _ = woven old (fun i _ ↦ i) (Hunk.brings new) 0 0 (anchors old new) :=
        after_hunks holdSide rfl hincreasing hold
      _ = new := woven_brings hincreasing hequal
  · have hcount : l.length = pairs.length := by
      apply filterMap_length_eq_length.mpr
      intro p hp
      obtain ⟨x, hx, -⟩ := hequal p hp
      rw [hx]
      rfl
    apply Subsequences.Longest.of_length
    · exact filterMap_sublist holdSide hmatched
    · rw [hl]
      exact filterMap_sublist hnewSide hmatched
    · rw [hcount]
      exact hlength
  · calc
      unchanged (fun i _ ↦ i) old (hunksFrom 0 0 (anchors old new)) =
          woven old (fun i _ ↦ i) (fun _ ↦ []) 0 0 (anchors old new) :=
        after_hunks holdSide rfl hincreasing hold
      _ = l := by
        rw [woven_nil, anchors, filterMap_append]
        simp [l, pairs]
  · calc
      unchanged (fun _ j ↦ j) new (hunksFrom 0 0 (anchors old new)) =
          woven new (fun _ j ↦ j) (fun _ ↦ []) 0 0 (anchors old new) :=
        after_hunks hnewSide rfl hincreasing hnew
      _ = l := by
        rw [woven_nil, anchors, filterMap_append, hl]
        simp [pairs]

end Diff

end Simmis.RichDocuments
