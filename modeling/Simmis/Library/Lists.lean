import Mathlib.Data.List.Perm.Basic

/-!
# Lists

A list is read through a filter; replacing or erasing an element that the filter drops leaves the
reading alone, and the only element that it keeps can be replaced or erased by itself. Two lists are
related element by element.
-/

namespace Simmis.Lists

open List Option

variable {α : Type*} {keep : α → Bool} {a b : α} {l : List α}

/-- A property of all elements, from its test. -/
theorem forall_of_all {p : α → Prop} [DecidablePred p] (h : (l.all fun a ↦ p a)) :
    ∀ a ∈ l, p a := by
  simpa only [List.all_eq_true, decide_eq_true_eq] using h

/-- A filter sees the elements beside a position, whatever stands there. -/
theorem filterMap_set_perm {β : Type*} {i : ℕ} (hget : l[i]? = some a) (f : α → Option β) :
    ∃ rest, (l.filterMap f).Perm ((f a).toList ++ rest) ∧
      ∀ b, ((l.set i b).filterMap f).Perm ((f b).toList ++ rest) := by
  obtain ⟨hi, rfl⟩ := List.getElem?_eq_some_iff.mp hget
  have hcons (b : α) : (b :: l.eraseIdx i).filterMap f =
      (f b).toList ++ (l.eraseIdx i).filterMap f := by
    rw [filterMap_cons]
    cases f b <;> rfl
  exact ⟨_, hcons _ ▸ (getElem_cons_eraseIdx_perm hi).symm.filterMap f,
    fun b ↦ hcons b ▸ (set_perm_cons_eraseIdx hi b).filterMap f⟩

section

variable {i : ℕ} (hget : l[i]? = some a)
include hget

/-- The elements before a position and those behind it. -/
theorem exists_around : ∃ pre post, l = pre ++ a :: post ∧ (∀ b, l.set i b = pre ++ b :: post) ∧
    l.eraseIdx i = pre ++ post := by
  obtain ⟨hi, rfl⟩ := List.getElem?_eq_some_iff.mp hget
  refine ⟨l.take i, l.drop (i + 1), ?_, fun b ↦ ?_, l.eraseIdx_eq_take_drop_succ i⟩
  · rw [getElem_cons_drop, take_append_drop]
  · rw [set_eq_take_append_cons_drop, if_pos hi]

theorem filter_set_of_neg (ha : keep a = false) (hb : keep b = false) :
    (l.set i b).filter keep = l.filter keep := by
  obtain ⟨pre, post, hl, hset, -⟩ := exists_around hget
  rw [hset, hl]
  simp [ha, hb]

theorem filter_eraseIdx_of_neg (ha : keep a = false) :
    (l.eraseIdx i).filter keep = l.filter keep := by
  obtain ⟨pre, post, hl, -, herase⟩ := exists_around hget
  rw [herase, hl]
  simp [ha]

/-- What a filter keeps has a position. -/
theorem filter_ne_nil (ha : keep a) : a ∈ l.filter keep :=
  mem_filter.mpr ⟨mem_of_getElem? hget, ha⟩

theorem filter_eraseIdx_singleton {x : α} (ha : keep a) (hone : l.filter keep = [x]) :
    (l.eraseIdx i).filter keep = [] := by
  obtain ⟨pre, post, hl, -, herase⟩ := exists_around hget
  rw [hl, filter_append, filter_cons_of_pos ha] at hone
  obtain ⟨hpre, hcons⟩ | ⟨-, hnil⟩ := append_eq_singleton_iff.mp hone
  · rw [herase, filter_append, hpre, (cons.inj hcons).2, append_nil]
  · cases hnil

theorem filter_set_singleton {x : α} (ha : keep a) (hb : keep b)
    (hone : l.filter keep = [x]) : (l.set i b).filter keep = [b] := by
  obtain ⟨pre, post, -, hset, herase⟩ := exists_around hget
  have hnone := filter_eraseIdx_singleton hget ha hone
  rw [herase, filter_append, append_eq_nil_iff] at hnone
  rw [hset, filter_append, filter_cons_of_pos hb, hnone.1, hnone.2, nil_append]

end

theorem forall₂_left {α β : Type*} {rel : α → β → Prop} {l : List α} {m : List β}
    (h : List.Forall₂ rel l m) {a : α} (ha : a ∈ l) : ∃ b ∈ m, rel a b := by
  induction h with
  | nil => cases ha
  | @cons x y l m hxy _ ih =>
    obtain rfl | hlater := mem_cons.mp ha
    · exact ⟨y, mem_cons_self .., hxy⟩
    · obtain ⟨b, hb, hab⟩ := ih hlater
      exact ⟨b, mem_cons_of_mem _ hb, hab⟩

theorem forall₂_right {α β : Type*} {rel : α → β → Prop} {l : List α} {m : List β}
    (h : List.Forall₂ rel l m) {b : β} (hb : b ∈ m) : ∃ a ∈ l, rel a b :=
  forall₂_left h.flip hb

/-- A fold that has not refused has refused none of its elements. -/
theorem step_of_foldlM {σ α : Type*} {f : σ → α → Option σ} {l : List α} {s t : σ}
    (h : l.foldlM f s = some t) {a : α} (ha : a ∈ l) : ∃ s' t', f s' a = some t' := by
  induction l generalizing s with
  | nil => cases ha
  | cons b l ih =>
    rw [foldlM_cons] at h
    obtain ⟨u, hu, h⟩ := bind_eq_some_iff.mp h
    obtain rfl | hlater := mem_cons.mp ha
    · exact ⟨s, u, hu⟩
    · exact ih h hlater

theorem nodup_eraseDups {α : Type*} [BEq α] [LawfulBEq α] (l : List α) : l.eraseDups.Nodup := by
  induction hlength : l.length using Nat.strongRecOn generalizing l with
  | _ n ih =>
    cases l with
    | nil => simp
    | cons a l =>
      have hlt : (l.filter fun b ↦ !b == a).length < n := by
        rw [← hlength, length_cons]
        exact Nat.lt_succ_of_le (length_filter_le _ _)
      rw [eraseDups_cons, nodup_cons, mem_eraseDups, mem_filter]
      exact ⟨by simp, ih _ hlt _ rfl⟩

end Simmis.Lists
