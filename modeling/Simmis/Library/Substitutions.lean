import Mathlib.Data.List.Range
import Mathlib.Algebra.BigOperators.Group.List.Basic
import Mathlib.Algebra.Ring.Int.Defs
import Mathlib.Algebra.Ring.Nat

/-!
# Substitutions

Ranges of a list are replaced by other lists at once. Ranges that do not overlap can be replaced one
after the other from the last to the first, and their positions then never have to be adjusted.
-/

namespace Simmis.Substitutions

open List Bool Nat

variable {α : Type*}

/-- The elements from `start` up to `stop` become `text`. -/
structure Edit (α : Type*) where
  start : ℕ
  stop : ℕ
  text : List α

variable (source : List α)

/-- Replace one range. -/
def splice (e : Edit α) : List α := source.take e.start ++ e.text ++ source.drop e.stop

def Edit.covers (e : Edit α) (k : ℕ) : Bool := e.start ≤ k ∧ k < e.stop

/-- Neither range begins where the other does or inside it. -/
def Apart (a b : Edit α) : Prop := a.start ≠ b.start ∧ (a.stop ≤ b.start ∨ b.stop ≤ a.start)

/-- The first range ends before the second begins. -/
def Before (a b : Edit α) : Prop := a.stop ≤ b.start ∧ a.start ≠ b.start

variable (edits : List (Edit α))

/-- What is put in front of position `k`. -/
def inserted (k : ℕ) : List α := edits.flatMap fun e ↦ if e.start = k then e.text else []

/-- What stays of position `k`. -/
def kept (k : ℕ) : List α :=
  if edits.any (·.covers k) then [] else source[k]?.toList

def piece (k : ℕ) : List α := inserted edits k ++ kept source edits k

/-- The source from position `k` on, with every range replaced. -/
def after (k : ℕ) : List α := (List.range' k (source.length + 1 - k)).flatMap (piece source edits)

/-- The source with every range replaced. -/
def substitute : List α := after source edits 0

variable {source : List α} {edits rest : List (Edit α)} {e : Edit α} {j k m : ℕ}

theorem apart_symm {a b : Edit α} (h : Apart a b) : Apart b a := ⟨h.1.symm, h.2.symm⟩

theorem inserted_eq_nil (h : ∀ e ∈ edits, e.start ≠ k) : inserted edits k = [] := by
  apply flatMap_eq_nil_iff.mpr
  intro e he
  rw [if_neg (h e he)]

theorem kept_eq (h : ∀ e ∈ edits, e.covers k = false) :
    kept source edits k = source[k]?.toList := by
  have hany : edits.any (·.covers k) = false := by
    rw [List.any_eq_false]
    intro e he
    rw [h e he]
    exact false_ne_true
  rw [kept, hany, if_neg Bool.false_ne_true]

theorem piece_cons : piece source (e :: rest) k =
    (if e.start = k then e.text else []) ++ (inserted rest k ++ kept source (e :: rest) k) := by
  rw [piece, inserted, flatMap_cons, append_assoc]
  rfl

theorem piece_untouched (h : ∀ e ∈ edits, k < e.start) :
    piece source edits k = source[k]?.toList := by
  have hinserted : inserted edits k = [] := inserted_eq_nil fun e he ↦ (h e he).ne'
  have hkept : kept source edits k = source[k]?.toList := by
    apply kept_eq
    intro e he
    have hlt := h e he
    simp only [Edit.covers, decide_eq_false_iff_not]
    omega
  rw [piece, hinserted, hkept, nil_append]

theorem flatMap_getElem? {n : ℕ} (h : k + n ≤ source.length) :
    (List.range' k n).flatMap (fun j ↦ source[j]?.toList) = (source.drop k).take n := by
  induction n generalizing k with
  | zero => simp
  | succ n ih =>
    have hk : k < source.length := by omega
    rw [range'_succ, flatMap_cons, ih (by omega), getElem?_eq_getElem hk, drop_eq_getElem_cons hk]
    rfl

theorem range'_split {n : ℕ} (hkm : k ≤ m) (hmn : m ≤ n) :
    List.range' k (n - k) = List.range' k (m - k) ++ List.range' m (n - m) := by
  calc
    range' k (n - k) = range' k (m - k + (n - m)) := by
      rw [show n - k = m - k + (n - m) by omega]
    _ = range' k (m - k) ++ range' (k + (m - k)) (n - m) := range'_append_1.symm
    _ = range' k (m - k) ++ range' m (n - m) := by
      rw [show k + (m - k) = m by omega]

section

variable (hkm : k ≤ m) (hm : m ≤ source.length)
include hkm hm

theorem after_split : after source edits k =
      (List.range' k (m - k)).flatMap (piece source edits) ++ after source edits m := by
  rw [after, range'_split hkm (by omega), flatMap_append]
  rfl

theorem flatMap_untouched (h : ∀ e ∈ edits, m ≤ e.start) :
    (List.range' k (m - k)).flatMap (piece source edits) = (source.drop k).take (m - k) := by
  rw [← flatMap_getElem? (by omega : k + (m - k) ≤ source.length)]
  apply flatMap_congr
  intro j hj
  have hlt : j < m := by
    have hmem := mem_range'_1.mp hj
    omega
  exact piece_untouched fun e he ↦ hlt.trans_le (h e he)

/-- Nothing happens in front of the first range. -/
theorem after_eq (h : ∀ e ∈ edits, m ≤ e.start) :
    after source edits k = (source.drop k).take (m - k) ++ after source edits m := by
  rw [after_split hkm hm, flatMap_untouched hkm hm h]

end

theorem substitute_eq (hm : m ≤ source.length) (h : ∀ e ∈ edits, m ≤ e.start) :
    substitute source edits = source.take m ++ after source edits m :=
  after_eq (zero_le m) hm h

theorem after_nil (hk : k ≤ source.length) : after source [] k = source.drop k := by
  have hnone : ∀ e ∈ ([] : List (Edit α)), source.length ≤ e.start := by simp
  have hlast : after source [] source.length = [] := by simp [after, piece, inserted, kept]
  rw [after_eq hk le_rfl hnone, hlast, append_nil]
  exact take_of_length_le (by simp)

theorem after_cons (hle : e.start ≤ e.stop) (hstop : e.stop ≤ source.length)
    (hrest : ∀ d ∈ rest, Before e d) :
    after source (e :: rest) e.start = e.text ++ after source rest e.stop := by
  let tail : ℕ → List α := fun j ↦ inserted rest j ++ kept source (e :: rest) j
  have htail : ∀ j, e.start < j → piece source (e :: rest) j = tail j := by
    intro j hj
    rw [piece_cons, if_neg hj.ne, nil_append]
  have hcovered : ∀ j ∈ range' e.start (e.stop - e.start), tail j = [] := by
    intro j hj
    have hmem := mem_range'_1.mp hj
    have hinserted : inserted rest j = [] := inserted_eq_nil fun d hd ↦ by
      have hbefore := (hrest d hd).1
      omega
    have hany : (e :: rest).any (·.covers j) := by
      rw [any_cons, Edit.covers, decide_eq_true (by omega), Bool.true_or]
    simp only [tail, hinserted, kept, hany, if_true, append_nil]
  have hopen : ∀ j, e.stop ≤ j → tail j = piece source rest j := by
    intro j hj
    have hcovers : e.covers j = false := by
      simp only [Edit.covers, decide_eq_false_iff_not]
      omega
    simp only [tail, piece, kept, any_cons, hcovers, Bool.false_or]
  have hfirst : after source (e :: rest) e.start =
      e.text ++ (range' e.start (source.length + 1 - e.start)).flatMap tail := by
    rw [after, show source.length + 1 - e.start = source.length - e.start + 1 by omega,
      range'_succ, flatMap_cons, flatMap_cons, piece_cons, if_pos rfl,
      append_assoc]
    congr 2
    apply flatMap_congr
    intro j hj
    exact htail j (by have hmem := mem_range'_1.mp hj; omega)
  rw [hfirst, range'_split hle (by omega), flatMap_append,
    flatMap_eq_nil_iff.mpr hcovered, nil_append, after]
  congr 1
  apply flatMap_congr
  intro j hj
  exact hopen j (by have hmem := mem_range'_1.mp hj; omega)

/-- Replacing the ranges from the last to the first replaces them at once. -/
theorem foldr_splice (hvalid : ∀ e ∈ edits, e.start ≤ e.stop ∧ e.stop ≤ source.length)
    (hbefore : edits.Pairwise Before) :
    edits.foldr (fun e text ↦ splice text e) source = substitute source edits := by
  induction edits with
  | nil =>
    rw [substitute, after_nil (zero_le _)]
    rfl
  | cons e rest ih =>
    obtain ⟨⟨hle, hstop⟩, hvalid⟩ := forall_mem_cons.mp hvalid
    obtain ⟨hrest, hbefore⟩ := pairwise_cons.mp hbefore
    have hstarts : ∀ d ∈ rest, e.stop ≤ d.start := fun d hd ↦ (hrest d hd).1
    have hstart : substitute source rest = source.take e.start ++ after source rest e.start :=
      substitute_eq (by omega) fun d hd ↦ hle.trans (hstarts d hd)
    have hall : ∀ d ∈ e :: rest, e.start ≤ d.start :=
      forall_mem_cons.mpr ⟨le_rfl, fun d hd ↦ hle.trans (hstarts d hd)⟩
    have htake : (substitute source rest).take e.start = source.take e.start := by
      rw [hstart]
      exact take_left' (length_take_of_le (by omega))
    have hdrop : (substitute source rest).drop e.stop = after source rest e.stop := by
      rw [substitute_eq hstop hstarts]
      exact drop_left' (length_take_of_le hstop)
    calc
      (e :: rest).foldr (fun e text ↦ splice text e) source =
          splice (substitute source rest) e := by
        rw [foldr_cons, ih hvalid hbefore]
      _ = source.take e.start ++ (e.text ++ after source rest e.stop) := by
        rw [splice, htake, hdrop, append_assoc]
      _ = substitute source (e :: rest) := by
        rw [← after_cons hle hstop hrest, substitute_eq (by omega) hall]

/-- Ranges that put nothing in front of a position can be left out there. -/
theorem inserted_filter (keep : Edit α → Bool) (h : ∀ e ∈ edits, e.start = j → keep e) :
    inserted (edits.filter keep) j = inserted edits j := by
  induction edits with
  | nil => rfl
  | cons e rest ih =>
    obtain ⟨hhead, hrest⟩ := forall_mem_cons.mp h
    have ih := ih hrest
    cases hkeep : keep e with
    | true =>
      rw [filter_cons_of_pos hkeep]
      exact congrArg _ ih
    | false =>
      have hstart : e.start ≠ j := fun hstart ↦ by simp [hhead hstart] at hkeep
      rw [filter_cons_of_neg (by simp [hkeep]), ih]
      simp only [inserted, flatMap_cons, if_neg hstart, nil_append]

/-- Ranges that do not cover a position can be left out there. -/
theorem any_filter (keep : Edit α → Bool) (h : ∀ e ∈ edits, e.covers j → keep e) :
    (edits.filter keep).any (·.covers j) = edits.any (·.covers j) := by
  rw [List.any_filter, Bool.eq_iff_iff, List.any_eq_true, List.any_eq_true]
  apply exists_congr
  intro e
  rw [and_eq_true]
  exact ⟨fun ⟨he, _, hcovers⟩ ↦ ⟨he, hcovers⟩, fun ⟨he, hcovers⟩ ↦ ⟨he, h e he hcovers, hcovers⟩⟩

theorem covers_iff : e.covers j ↔ e.start ≤ j ∧ j < e.stop := decide_eq_true_iff

/-- By how much a range grows. -/
def gain (e : Edit α) : ℤ := e.text.length - (e.stop - e.start)

theorem length_after (hk : k ≤ source.length)
    (hvalid : ∀ e ∈ edits, e.start ≤ e.stop ∧ e.stop ≤ source.length)
    (hbefore : edits.Pairwise Before) (hstart : ∀ e ∈ edits, k ≤ e.start) :
    ((after source edits k).length : ℤ) = source.length - k + (edits.map gain).sum := by
  induction edits generalizing k with
  | nil =>
    rw [after_nil hk, length_drop, map_nil, sum_nil]
    omega
  | cons e rest ih =>
    obtain ⟨⟨hle, hstop⟩, hvalid⟩ := forall_mem_cons.mp hvalid
    obtain ⟨hfirst, hbefore⟩ := pairwise_cons.mp hbefore
    have hke := hstart e mem_cons_self
    have hall : ∀ d ∈ e :: rest, e.start ≤ d.start :=
      forall_mem_cons.mpr ⟨le_rfl, fun d hd ↦ hle.trans (hfirst d hd).1⟩
    have hrest := ih hstop hvalid hbefore fun d hd ↦ (hfirst d hd).1
    rw [after_eq hke (hle.trans hstop) hall, after_cons hle hstop hfirst, map_cons, sum_cons, gain]
    simp only [length_append, length_take, length_drop]
    omega

/-- The result is longer than the source by what the ranges gain. -/
theorem length_substitute (hvalid : ∀ e ∈ edits, e.start ≤ e.stop ∧ e.stop ≤ source.length)
    (hbefore : edits.Pairwise Before) :
    ((substitute source edits).length : ℤ) = source.length + (edits.map gain).sum := by
  rw [substitute, length_after (zero_le _) hvalid hbefore fun _ _ ↦ zero_le _]
  omega

section Cut

variable (hcut : ∀ e ∈ edits, e.start < m → e.stop ≤ m)

include hcut

theorem after_filter : after source (edits.filter (m ≤ ·.start)) m = after source edits m := by
  apply flatMap_congr
  intro j hj
  have hmj := (mem_range'_1.mp hj).1
  have hinserted : inserted (edits.filter (m ≤ ·.start)) j = inserted edits j :=
    inserted_filter _ fun e _ hstart ↦ by simpa [hstart] using hmj
  have hany : (edits.filter (m ≤ ·.start)).any (·.covers j) = edits.any (·.covers j) := by
    apply any_filter
    intro e he hcovers
    rw [covers_iff] at hcovers
    have hstop := hcut e he
    exact decide_eq_true (by omega)
  rw [piece, piece, kept, kept, hany, hinserted]

/-- The result in front of a cut is the result for the source up to the cut. -/
theorem substitute_cut (hm : m ≤ source.length) :
    substitute source edits = substitute (source.take m) (edits.filter (·.start < m)) ++
      after source (edits.filter (m ≤ ·.start)) m := by
  have hlength : (source.take m).length = m := length_take_of_le hm
  have hlast : piece (source.take m) (edits.filter (·.start < m)) m = [] := by
    have hnone : (source.take m)[m]? = none := getElem?_eq_none hlength.le
    have hinserted : inserted (edits.filter (·.start < m)) m = [] := inserted_eq_nil fun e he ↦ by
      have hlt := of_decide_eq_true (mem_filter.mp he).2
      omega
    rw [piece, kept, hnone, hinserted]
    simp
  have hfront : substitute (source.take m) (edits.filter (·.start < m)) =
      (range' 0 m).flatMap (piece source edits) := by
    rw [substitute, after, hlength, Nat.sub_zero, range'_1_concat, flatMap_append,
      flatMap_singleton, zero_add, hlast, append_nil]
    apply flatMap_congr
    intro j hj
    have hlt : j < m := by
      have hmem := mem_range'_1.mp hj
      omega
    have hinserted : inserted (edits.filter (·.start < m)) j = inserted edits j :=
      inserted_filter _ fun e _ hstart ↦ by simpa [hstart] using hlt
    have hany : (edits.filter (·.start < m)).any (·.covers j) = edits.any (·.covers j) := by
      apply any_filter
      intro e _ hcovers
      rw [covers_iff] at hcovers
      exact decide_eq_true (by omega)
    rw [piece, piece, kept, kept, hany, hinserted, getElem?_take_of_lt hlt]
  rw [after_filter hcut, hfront, substitute, after_split (Nat.zero_le m) hm, Nat.sub_zero]

end Cut

/-- Among ranges in order, the one that begins first is the first. -/
theorem eq_cons_of_first (hvalid : ∀ d ∈ edits, d.start ≤ d.stop) (hbefore : edits.Pairwise Before)
    (he : e ∈ edits) (hfirst : ∀ d ∈ edits, e.start ≤ d.start) : ∃ rest, edits = e :: rest := by
  cases edits with
  | nil => exact absurd he not_mem_nil
  | cons d rest =>
    rcases mem_cons.mp he with rfl | hlater
    · exact ⟨rest, rfl⟩
    · obtain ⟨hle, hne⟩ := (pairwise_cons.mp hbefore).1 e hlater
      have hd := hvalid d mem_cons_self
      have hed := hfirst d mem_cons_self
      omega

theorem inserted_perm {edits' : List (Edit α)} (h : edits.Perm edits')
    (hapart : edits.Pairwise Apart) : inserted edits k = inserted edits' k := by
  induction h with
  | nil => rfl
  | cons e _ ih =>
    exact congrArg _ (ih (pairwise_cons.mp hapart).2)
  | swap a b rest =>
    have hne : b.start ≠ a.start := ((pairwise_cons.mp hapart).1 a mem_cons_self).1
    simp only [inserted, flatMap_cons]
    by_cases ha : a.start = k
    · rw [if_neg (fun hb ↦ hne (hb.trans ha.symm)), if_pos ha, nil_append, nil_append]
    · rw [if_neg ha, nil_append, nil_append]
  | trans hab _ ihab ihbc =>
    exact (ihab hapart).trans (ihbc ((hab.pairwise_iff apart_symm).mp hapart))

/-- Ranges that are apart can be listed in any order. -/
theorem substitute_perm {edits' : List (Edit α)} (h : edits.Perm edits')
    (hapart : edits.Pairwise Apart) : substitute source edits = substitute source edits' := by
  apply flatMap_congr
  intro k _
  have hany : edits.any (·.covers k) = edits'.any (·.covers k) := h.any_eq
  rw [piece, piece, inserted_perm h hapart, kept, kept, hany]

section Stretch

variable (hkm : k < m) (hout : ∀ e ∈ edits, e.stop ≤ k ∨ m ≤ e.start)

include hkm hout

theorem substitute_take (hm : m ≤ source.length) :
    substitute (source.take k) (edits.filter fun e ↦ e.stop ≤ k) =
      (List.range' 0 k).flatMap (piece source edits) ++ inserted edits k := by
  have hlength : (source.take k).length = k := length_take_of_le (by omega)
  have hinserted : ∀ j, j ≤ k →
      inserted (edits.filter fun e ↦ e.stop ≤ k) j = inserted edits j := by
    intro j hj
    apply inserted_filter
    intro e he hstart
    have hcase := hout e he
    exact decide_eq_true (by omega)
  have hlast : piece (source.take k) (edits.filter fun e ↦ e.stop ≤ k) k = inserted edits k := by
    have hnone : (source.take k)[k]? = none := getElem?_eq_none (by omega)
    rw [piece, kept, hnone, hinserted k le_rfl]
    simp
  rw [substitute, after, hlength, Nat.sub_zero, range'_1_concat, flatMap_append,
    flatMap_singleton, zero_add, hlast]
  congr 1
  apply flatMap_congr
  intro j hj
  have hlt : j < k := by
    have hmem := mem_range'_1.mp hj
    omega
  have hany : (edits.filter fun e ↦ e.stop ≤ k).any (·.covers j) = edits.any (·.covers j) := by
    apply any_filter
    intro e he hcovers
    rw [covers_iff] at hcovers
    have hcase := hout e he
    exact decide_eq_true (by omega)
  rw [piece, piece, hinserted j hlt.le, kept, kept, hany, getElem?_take_of_lt hlt]

theorem flatMap_stretch (hvalid : ∀ e ∈ edits, e.start ≤ e.stop) (hm : m ≤ source.length) :
    (List.range' k (m - k)).flatMap (piece source edits) =
      inserted edits k ++ (source.drop k).take (m - k) := by
  have hkept : ∀ j, k ≤ j → j < m → kept source edits j = source[j]?.toList := by
    intro j hkj hjm
    apply kept_eq
    intro e he
    have hcase := hout e he
    simp only [Edit.covers, decide_eq_false_iff_not]
    omega
  have hinserted : ∀ j, k < j → j < m → inserted edits j = [] := by
    intro j hkj hjm
    apply inserted_eq_nil
    intro e he
    have hcase := hout e he
    have hle := hvalid e he
    omega
  rw [← flatMap_getElem? (by omega : k + (m - k) ≤ source.length),
    show m - k = m - k - 1 + 1 by omega, range'_succ, flatMap_cons, flatMap_cons,
    piece, hkept k le_rfl hkm, append_assoc]
  congr 2
  apply flatMap_congr
  intro j hj
  have hmem := mem_range'_1.mp hj
  rw [piece, hinserted j (by omega) (by omega), hkept j (by omega) (by omega), nil_append]

/-- A stretch that no range touches stands behind all that was in front of it. -/
theorem substitute_stretch (hvalid : ∀ e ∈ edits, e.start ≤ e.stop) (hm : m ≤ source.length) :
    substitute source edits = substitute (source.take k) (edits.filter fun e ↦ e.stop ≤ k) ++
        (source.drop k).take (m - k) ++ after source edits m := by
  calc
    substitute source edits =
        (range' 0 k).flatMap (piece source edits) ++ after source edits k := by
      rw [substitute, after_split (Nat.zero_le k) (by omega), Nat.sub_zero]
    _ = (range' 0 k).flatMap (piece source edits) ++
        (inserted edits k ++ (source.drop k).take (m - k) ++ after source edits m) := by
      rw [after_split hkm.le hm, flatMap_stretch hkm hout hvalid hm]
    _ = _ := by
      rw [substitute_take hkm hout hm]
      simp only [append_assoc]

end Stretch

end Simmis.Substitutions
