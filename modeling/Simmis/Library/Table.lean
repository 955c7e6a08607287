import Mathlib.Algebra.BigOperators.Group.List.Basic
import Mathlib.Data.List.Nodup
import Mathlib.Tactic.Ring

/-!
# Tables of rows with a unique key

A table holds the rows of one identity attribute, each key at most once, so that a lookup has one
answer. A patch never moves a row to another key.
-/

namespace Simmis

open List Option

variable {κ ρ : Type*} [DecidableEq κ]

/-- Rows with pairwise distinct keys. -/
structure Table (key : ρ → κ) where
  rows : List ρ
  nodup : (rows.map key).Nodup

namespace Table

variable {key : ρ → κ}

def empty : Table key := ⟨[], List.nodup_nil⟩

instance : Inhabited (Table key) := ⟨empty⟩

variable {t : Table key}

omit [DecidableEq κ] in
theorem eq_of_rows {t' : Table key} (h : t.rows = t'.rows) : t = t' := by
  cases t
  cases h
  rfl

def get (t : Table key) (k : κ) : Option ρ := t.rows.find? fun r ↦ key r = k

/-- The row under `k` patched by `f`, as long as it keeps its key. -/
def patch (key : ρ → κ) (k : κ) (f : ρ → ρ) (r : ρ) : ρ :=
  if key r = k ∧ key (f r) = k then f r else r

theorem key_patch (k : κ) (f : ρ → ρ) (r : ρ) : key (patch key k f r) = key r := by
  unfold patch
  split
  · next h => rw [h.1, h.2]
  · rfl

theorem map_key_patch (k : κ) (f : ρ → ρ) (rows : List ρ) :
    (rows.map (patch key k f)).map key = rows.map key := by
  rw [List.map_map]
  exact map_congr_left fun r _ ↦ key_patch k f r

def modify (t : Table key) (k : κ) (f : ρ → ρ) : Table key where
  rows := t.rows.map (patch key k f)
  nodup := by
    rw [map_key_patch]
    exact t.nodup

/-- Insert a row, in place of the one that has its key. -/
def put (t : Table key) (r : ρ) : Table key where
  rows := r :: t.rows.filter fun q ↦ key q ≠ key r
  nodup := by
    rw [List.map_cons, List.nodup_cons]
    refine ⟨?_, t.nodup.sublist (List.filter_sublist.map key)⟩
    simp

/-- Every row patched by `f`, as long as it keeps its key. -/
def mapRows (t : Table key) (f : ρ → ρ) : Table key where
  rows := t.rows.map fun r ↦ if key (f r) = key r then f r else r
  nodup := by
    have hkeys : (t.rows.map fun r ↦ if key (f r) = key r then f r else r).map key =
        t.rows.map key := by
      rw [List.map_map]
      refine List.map_congr_left fun r _ ↦ ?_
      dsimp only [Function.comp]
      split <;> simp [*]
    rw [hkeys]
    exact t.nodup

/-- Upserts one after the other. -/
def putAll (t : Table key) (rows : List ρ) : Table key := rows.foldl put t

/-- The rows with a property, as an index scan returns them. -/
def select (t : Table key) (p : ρ → Bool) : List ρ := t.rows.filter p

/-- Retract the row under a key. -/
def remove (t : Table key) (k : κ) : Table key where
  rows := t.rows.filter fun q ↦ key q ≠ k
  nodup := t.nodup.sublist (List.filter_sublist.map key)

variable {r : ρ} {k : κ}

theorem get_eq_some_iff : t.get k = some r ↔ r ∈ t.rows ∧ key r = k := by
  constructor
  · intro h
    exact ⟨mem_of_find?_eq_some h, by simpa using find?_some h⟩
  · rintro ⟨hmem, rfl⟩
    obtain ⟨q, hq⟩ : ∃ q, t.get (key r) = some q := by
      rw [← isSome_iff_exists, get, find?_isSome]
      exact ⟨r, hmem, by simp⟩
    have hq' : q ∈ t.rows ∧ key q = key r :=
      ⟨mem_of_find?_eq_some hq, by simpa using find?_some hq⟩
    rw [hq, inj_on_of_nodup_map t.nodup hq'.1 hmem hq'.2]

theorem key_of_get (h : t.get k = some r) : key r = k := (get_eq_some_iff.mp h).2

theorem get_eq_none_iff : t.get k = none ↔ ∀ r ∈ t.rows, key r ≠ k := by
  simp [get]

@[simp] theorem get_empty (k : κ) : (empty : Table key).get k = none := rfl

theorem mem_select {p : ρ → Bool} : r ∈ t.select p ↔ t.get (key r) = some r ∧ p r := by
  simp [select, get_eq_some_iff]

omit [DecidableEq κ] in
theorem nodup_select (t : Table key) (p : ρ → Bool) : ((t.select p).map key).Nodup :=
  t.nodup.sublist (filter_sublist.map key)

/-- An index scan is empty when no row under any key has the property. -/
theorem select_eq_nil_iff {p : ρ → Bool} :
    t.select p = [] ↔ ∀ k r, t.get k = some r → p r = false := by
  rw [eq_nil_iff_forall_not_mem]
  constructor
  · intro h k r hr
    have := h r
    rw [mem_select, key_of_get hr] at this
    simpa [hr] using this
  · intro h r hr
    rw [mem_select] at hr
    simp [h _ _ hr.1] at hr

theorem get_put (t : Table key) (r : ρ) (k : κ) :
    (t.put r).get k = if k = key r then some r else t.get k := by
  split
  · next h =>
    subst h
    simp [get_eq_some_iff, put]
  · next h =>
    ext q
    simp only [get_eq_some_iff, put, mem_cons, mem_filter, decide_eq_true_eq]
    grind

variable {f : ρ → ρ}

theorem get_modify (hf : ∀ r, key (f r) = key r) (l : κ) :
    (t.modify k f).get l = if l = k then (t.get k).map f else t.get l := by
  have hpatch (r : ρ) : patch key k f r = if key r = k then f r else r := by simp [patch, hf]
  ext q
  simp only [get_eq_some_iff, modify, List.mem_map, hpatch]
  split
  · next h =>
    subst h
    simp only [map_eq_some_iff, get_eq_some_iff]
    grind
  · next h =>
    simp only [get_eq_some_iff]
    grind

theorem get_remove (t : Table key) (k l : κ) :
    (t.remove k).get l = if l = k then none else t.get l := by
  split
  · next h =>
    subst h
    simp [get_eq_none_iff, remove]
  · next h =>
    ext q
    simp only [get_eq_some_iff, remove, mem_filter, decide_eq_true_eq]
    grind

/-- Patching a row that is there sets it. -/
theorem get_modify_some (hf : ∀ r, key (f r) = key r) (hr : t.get k = some r) (l : κ) :
    (t.modify k f).get l = if l = k then some (f r) else t.get l := by
  rw [get_modify hf, hr]
  rfl

theorem get_mapRows (hf : ∀ r, key (f r) = key r) (k : κ) :
    (t.mapRows f).get k = (t.get k).map f := by
  ext q
  simp only [get_eq_some_iff, mapRows, hf, if_true, List.mem_map, Option.map_eq_some_iff]
  grind

@[simp] theorem putAll_nil (t : Table key) : t.putAll [] = t := rfl

@[simp] theorem putAll_cons (t : Table key) (r : ρ) (rows : List ρ) :
    t.putAll (r :: rows) = (t.put r).putAll rows := rfl

theorem get_putAll_of_not_mem {rows : List ρ} (hk : ∀ r ∈ rows, key r ≠ k) :
    (t.putAll rows).get k = t.get k := by
  induction rows generalizing t with
  | nil => rfl
  | cons r rows ih =>
    rw [putAll_cons, ih fun q hq ↦ hk q (mem_cons_of_mem r hq), get_put, if_neg]
    exact fun heq ↦ hk r mem_cons_self heq.symm

theorem get_putAll_of_mem {rows : List ρ} (hnodup : (rows.map key).Nodup) (hr : r ∈ rows) :
    (t.putAll rows).get (key r) = some r := by
  induction rows generalizing t with
  | nil => simp at hr
  | cons q rows ih =>
    rw [map_cons, nodup_cons] at hnodup
    rcases mem_cons.mp hr with rfl | hr
    · rw [putAll_cons, get_putAll_of_not_mem, get_put, if_pos rfl]
      exact fun p hp heq ↦ hnodup.1 (heq ▸ mem_map_of_mem hp)
    · exact ih hnodup.2 hr

/-- Of stored rows, a key is listed exactly when its row is. -/
theorem mem_map_key_iff {rows : List ρ} (hrows : ∀ r ∈ rows, t.get (key r) = some r)
    (hr : t.get k = some r) : key r ∈ rows.map key ↔ r ∈ rows := by
  constructor
  · intro hmem
    obtain ⟨q, hq, hkey⟩ := mem_map.mp hmem
    have hstored := hrows q hq
    rw [hkey, key_of_get hr, hr] at hstored
    injection hstored with heq
    rwa [heq]
  · exact fun hmem ↦ mem_map_of_mem hmem

/-- The row under the key of `r` replaced by `r`, in its place. -/
def set (t : Table key) (r : ρ) : Table key := t.modify (key r) fun _ ↦ r

theorem get_set {old : ρ} (hold : t.get (key r) = some old) (k : κ) :
    (t.set r).get k = if k = key r then some r else t.get k := by
  have hpatch (q : ρ) : patch key (key r) (fun _ ↦ r) q = if key q = key r then r else q := by
    simp [patch]
  obtain ⟨hmem, hkey⟩ := get_eq_some_iff.mp hold
  ext q
  simp only [get_eq_some_iff, set, modify, List.mem_map, hpatch]
  split
  · next h =>
    subst h
    simp only [some.injEq]
    constructor
    · rintro ⟨⟨p, hp, rfl⟩, hq⟩
      split at hq <;> simp_all
    · rintro rfl
      exact ⟨⟨old, hmem, by rw [if_pos hkey]⟩, rfl⟩
  · next h =>
    simp only [get_eq_some_iff]
    grind

/-- A patch that makes `r` of the row under its key sets it. -/
theorem modify_eq_set (hf : ∀ old, t.get (key r) = some old → f old = r) :
    t.modify (key r) f = t.set r := by
  unfold set modify
  congr 1
  refine map_congr_left fun q hq ↦ ?_
  unfold patch
  by_cases hkey : key q = key r
  · rw [hf q (get_eq_some_iff.mpr ⟨hq, hkey⟩)]
  · simp [hkey]

/-- A new row comes first, the others keep their order. -/
theorem rows_put (hnew : t.get (key r) = none) : (t.put r).rows = r :: t.rows := by
  have hfilter : (t.rows.filter fun q ↦ key q ≠ key r) = t.rows := by
    rw [filter_eq_self]
    intro q hq
    simpa using get_eq_none_iff.mp hnew q hq
  exact congrArg (r :: ·) hfilter

theorem select_put (hnew : t.get (key r) = none) (p : ρ → Bool) :
    (t.put r).select p = if p r then r :: t.select p else t.select p := by
  rw [select, rows_put hnew, filter_cons]
  rfl

/-- Setting a row keeps the order of the rows with a property that it keeps. -/
theorem select_set {old : ρ} (hold : t.get (key r) = some old) {p : ρ → Bool} (hp : p r = p old) :
    (t.set r).select p = (t.select p).map fun q ↦ if key q = key r then r else q := by
  have hpatch (q : ρ) (hq : q ∈ t.rows) : p (patch key (key r) (fun _ ↦ r) q) = p q := by
    simp only [patch]
    split
    · next h =>
      have hsame : t.get (key r) = some q := get_eq_some_iff.mpr ⟨hq, h.1⟩
      obtain rfl := some.inj (hold.symm.trans hsame)
      exact hp
    · rfl
  have hmap : (t.select p).map (patch key (key r) fun _ ↦ r) =
      (t.select p).map fun q ↦ if key q = key r then r else q := by
    refine map_congr_left fun q _ ↦ ?_
    simp [patch]
  rw [← hmap, select, set, modify, List.filter_map, select]
  congr 1
  exact filter_congr fun q hq ↦ hpatch q hq

/-- No row disappears, and each one moves along `R`. -/
def Grows (R : ρ → ρ → Prop) (t t' : Table key) : Prop :=
  ∀ k r, t.get k = some r → ∃ r', t'.get k = some r' ∧ R r r'

variable {R : ρ → ρ → Prop}

theorem Grows.refl (hR : ∀ r, R r r) (t : Table key) : Grows R t t :=
  fun _ r hr ↦ ⟨r, hr, hR r⟩

theorem Grows.trans (hR : ∀ a b c, R a b → R b c → R a c) {t₁ t₂ t₃ : Table key}
    (h₁ : Grows R t₁ t₂) (h₂ : Grows R t₂ t₃) : Grows R t₁ t₃ := by
  intro k r hr
  obtain ⟨r₂, hr₂, hrel₂⟩ := h₁ k r hr
  obtain ⟨r₃, hr₃, hrel₃⟩ := h₂ k r₂ hr₂
  exact ⟨r₃, hr₃, hR _ _ _ hrel₂ hrel₃⟩

theorem grows_put (hR : ∀ r, R r r) (hold : ∀ q, t.get (key r) = some q → R q r) :
    Grows R t (t.put r) := by
  intro k q hq
  rw [get_put]
  split
  · next h =>
    subst h
    exact ⟨r, rfl, hold q hq⟩
  · exact ⟨q, hq, hR q⟩

theorem grows_modify (hR : ∀ r, R r r) (hf : ∀ r, key (f r) = key r)
    (hpatch : ∀ r, t.get k = some r → R r (f r)) : Grows R t (t.modify k f) := by
  intro l r hr
  rw [get_modify hf]
  split
  · next h =>
    subst h
    exact ⟨f r, by rw [hr]; rfl, hpatch r hr⟩
  · exact ⟨r, hr, hR r⟩

/-- No row appears, and each one comes along `R`. -/
def Stems (R : ρ → ρ → Prop) (t t' : Table key) : Prop :=
  ∀ k r', t'.get k = some r' → ∃ r, t.get k = some r ∧ R r r'

theorem stems_modify (hR : ∀ r, R r r) (hf : ∀ r, key (f r) = key r)
    (hpatch : ∀ r, t.get k = some r → R r (f r)) : Stems R t (t.modify k f) := by
  intro l r' hr'
  rw [get_modify hf] at hr'
  split at hr'
  · next h =>
    subst h
    obtain ⟨r, hr, rfl⟩ := map_eq_some_iff.mp hr'
    exact ⟨r, hr, hpatch r hr⟩
  · exact ⟨r', hr', hR r'⟩

/-- The sum of a weight over all rows. -/
def total (t : Table key) (w : ρ → ℤ) : ℤ := (t.rows.map w).sum

theorem total_put (hnew : t.get (key r) = none) (w : ρ → ℤ) :
    (t.put r).total w = w r + t.total w := by
  rw [total, rows_put hnew, map_cons, sum_cons, total]

/-- Patching the one row under a key changes a sum by the change of that row's weight. -/
theorem total_modify (hf : ∀ r, key (f r) = key r) (hr : t.get k = some r) (w : ρ → ℤ) :
    (t.modify k f).total w = t.total w + (w (f r) - w r) := by
  obtain ⟨hmem, rfl⟩ := get_eq_some_iff.mp hr
  have hpatch (q : ρ) : patch key (key r) f q = if key q = key r then f q else q := by
    simp [patch, hf]
  have hsum (rows : List ρ) (hnodup : (rows.map key).Nodup)
      (hrow : ∀ q ∈ rows, key q = key r → q = r) :
      ((rows.map (patch key (key r) f)).map w).sum =
        (rows.map w).sum + if key r ∈ rows.map key then w (f r) - w r else 0 := by
    induction rows with
    | nil => simp
    | cons q rows ih =>
      rw [map_cons, nodup_cons] at hnodup
      have ih := ih hnodup.2 fun p hp ↦ hrow p (mem_cons_of_mem q hp)
      simp only [map_cons, sum_cons, mem_cons, ih, hpatch]
      by_cases hq : key q = key r
      · obtain rfl := hrow q mem_cons_self hq
        rw [if_pos rfl, if_neg hnodup.1, if_pos (.inl rfl)]
        ring
      · have hne : key r ≠ key q := Ne.symm hq
        simp only [hq, hne, if_false, false_or]
        ring
  have h := hsum t.rows t.nodup fun q hq hkey ↦ inj_on_of_nodup_map t.nodup hq hmem hkey
  rwa [if_pos (mem_map_of_mem hmem)] at h

end Table

end Simmis
