import Mathlib.Data.List.Induction
import Mathlib.Data.List.Sort

/-!
# Maps as association lists

Maps of a functional program, with their entries in the order in which they were added, and sorted
maps.
-/

namespace Simmis.Maps

open List Option

variable {κ α : Type} [DecidableEq κ] {m : List (κ × α)} {k k' : κ} {a : α} {p : κ × α}

def get? (m : List (κ × α)) (k : κ) : Option α := (m.find? (·.1 = k)).map (·.2)

def assoc (m : List (κ × α)) (k : κ) (a : α) : List (κ × α) :=
  if m.any (·.1 = k) then m.map fun p ↦ if p.1 = k then (k, a) else p else m ++ [(k, a)]

def dissoc (m : List (κ × α)) (k : κ) : List (κ × α) := m.filter (·.1 ≠ k)

/-- `(into {} pairs)`: a later pair replaces an earlier one. -/
def ofPairs (pairs : List (κ × α)) : List (κ × α) := pairs.foldl (fun m p ↦ assoc m p.1 p.2) []

/-- `(into (sorted-map) pairs)` -/
def sorted (le : κ → κ → Bool) (pairs : List (κ × α)) : List (κ × α) :=
  (ofPairs pairs).insertionSort fun p q ↦ le p.1 q.1

theorem mem_of_get? (h : get? m k = some a) : (k, a) ∈ m := by
  obtain ⟨p, hp, rfl⟩ := map_eq_some_iff.mp h
  have hkey : p.1 = k := by simpa using find?_some hp
  rw [← hkey]
  exact mem_of_find?_eq_some hp

theorem get?_isSome : (get? m k).isSome ↔ k ∈ m.map (·.1) := by
  simp [get?, find?_isSome]

theorem mem_assoc (h : p ∈ assoc m k a) : p = (k, a) ∨ p ∈ m := by
  unfold assoc at h
  split at h
  · obtain ⟨q, hq, rfl⟩ := mem_map.mp h
    split
    · exact .inl rfl
    · exact .inr hq
  · simpa [or_comm] using h

theorem get?_cons (p : κ × α) (m : List (κ × α)) (k : κ) :
    get? (p :: m) k = if p.1 = k then some p.2 else get? m k := by
  by_cases hp : p.1 = k <;> simp [get?, hp]

theorem get?_append (m n : List (κ × α)) (k : κ) : get? (m ++ n) k = (get? m k).or (get? n k) := by
  unfold get?
  rw [find?_append, map_or]

/-- Rows with distinct keys are found by their keys. -/
theorem find?_of_mem {ρ : Type} (key : ρ → κ) {rows : List ρ} (hnodup : (rows.map key).Nodup)
    {r : ρ} (hr : r ∈ rows) : rows.find? (fun s ↦ key s = key r) = some r := by
  induction rows with
  | nil => cases hr
  | cons q rows ih =>
    obtain ⟨hq, hrows⟩ := nodup_cons.mp hnodup
    obtain rfl | hlater := mem_cons.mp hr
    · exact find?_cons_of_pos (by simp)
    · have hne : ¬ key q = key r := fun h ↦ hq (mem_map.mpr ⟨r, hlater, h.symm⟩)
      rw [find?_cons_of_neg (by simpa using hne), ih hrows hlater]

theorem get?_of_mem (hnodup : (m.map (·.1)).Nodup) (hp : p ∈ m) : get? m p.1 = some p.2 := by
  unfold get?
  rw [find?_of_mem Prod.fst hnodup hp]
  rfl

theorem get?_replace (m : List (κ × α)) (k l : κ) (a : α) :
    get? (m.map fun p ↦ if p.1 = k then (k, a) else p) l =
      if k = l then (get? m k).map fun _ ↦ a else get? m l := by
  induction m with
  | nil => simp [get?]
  | cons p m ih =>
    rw [map_cons, get?_cons, get?_cons, get?_cons, ih]
    by_cases hkl : k = l
    · subst hkl
      by_cases hp : p.1 = k <;> simp [hp]
    · by_cases hp : p.1 = k
      · simp [hp, hkl]
      · simp [hp, hkl]

theorem get?_assoc (m : List (κ × α)) (k l : κ) (a : α) :
    get? (assoc m k a) l = if k = l then some a else get? m l := by
  unfold assoc
  split
  · next hmem =>
    have hsome : (get? m k).isSome := by
      rw [get?_isSome]
      simpa using hmem
    obtain ⟨b, hb⟩ := isSome_iff_exists.mp hsome
    rw [get?_replace, hb]
    rfl
  · next hnone =>
    have hnew : get? m k = none := by
      rw [← not_isSome_iff_eq_none, get?_isSome]
      simpa using hnone
    rw [get?_append, get?_cons]
    by_cases hkl : k = l
    · subst hkl
      simp [hnew]
    · simp [hkl, get?]

theorem assoc_of_none (h : get? m k = none) : assoc m k a = m ++ [(k, a)] := by
  have hnone : m.any (·.1 = k) = false := by
    simpa [get?, find?_eq_none] using h
  simp [assoc, hnone]

theorem nodup_assoc (h : (m.map (·.1)).Nodup) (k : κ) (a : α) :
    ((assoc m k a).map (·.1)).Nodup := by
  unfold assoc
  split
  · have hkeys : (m.map fun p ↦ if p.1 = k then (k, a) else p).map (·.1) = m.map (·.1) := by
      rw [List.map_map]
      refine map_congr_left fun p _ ↦ ?_
      by_cases hp : p.1 = k <;> simp [hp]
    rwa [hkeys]
  · next hnone =>
    rw [map_append, nodup_append]
    refine ⟨h, nodup_singleton k, fun l hl l' hl' hsame ↦ hnone ?_⟩
    rw [mem_singleton.mp hl'] at hsame
    obtain ⟨p, hp, hpl⟩ := mem_map.mp hl
    exact any_eq_true.mpr ⟨p, hp, by simpa using hpl.trans hsame⟩

theorem get?_map {β : Type} (f : α → β) (m : List (κ × α)) (k : κ) :
    get? (m.map fun p ↦ (p.1, f p.2)) k = (get? m k).map f := by
  induction m with
  | nil => rfl
  | cons p m ih =>
    rw [map_cons, get?_cons, get?_cons, ih]
    split <;> rfl

theorem get?_dissoc (m : List (κ × α)) (k l : κ) :
    get? (dissoc m k) l = if k = l then none else get? m l := by
  induction m with
  | nil => simp [dissoc, get?]
  | cons p m ih =>
    unfold dissoc at ih ⊢
    by_cases hp : p.1 = k
    · rw [filter_cons_of_neg (by simpa using hp), ih, get?_cons, hp]
      by_cases hkl : k = l <;> simp [hkl]
    · rw [filter_cons_of_pos (by simpa using hp), get?_cons, get?_cons, ih]
      by_cases hkl : k = l
      · subst hkl
        simp [hp]
      · simp [hkl]

theorem nodup_ofPairs (pairs : List (κ × α)) : ((ofPairs pairs).map (·.1)).Nodup := by
  have hfold : ∀ (l m : List (κ × α)), (m.map (·.1)).Nodup →
      ((l.foldl (fun m q ↦ assoc m q.1 q.2) m).map (·.1)).Nodup := by
    intro l
    induction l with
    | nil => exact fun m hm ↦ hm
    | cons q l ih => exact fun m hm ↦ ih _ (nodup_assoc hm q.1 q.2)
  exact hfold pairs [] nodup_nil

theorem mem_ofPairs {pairs : List (κ × α)} (h : p ∈ ofPairs pairs) : p ∈ pairs := by
  have hfold : ∀ (l m : List (κ × α)), p ∈ l.foldl (fun m q ↦ assoc m q.1 q.2) m →
      p ∈ m ∨ p ∈ l := by
    intro l
    induction l with
    | nil => exact fun m hm ↦ .inl hm
    | cons q l ih =>
      intro m hm
      obtain hold | hlater := ih (assoc m q.1 q.2) hm
      · obtain rfl | hmem := mem_assoc hold
        · exact .inr (mem_cons_self ..)
        · exact .inl hmem
      · exact .inr (mem_cons_of_mem _ hlater)
  obtain hempty | hmem := hfold pairs [] h
  · cases hempty
  · exact hmem

variable {le : κ → κ → Bool}

theorem mem_sorted {pairs : List (κ × α)} (h : p ∈ sorted le pairs) : p ∈ pairs :=
  mem_ofPairs ((mem_insertionSort _).mp h)

theorem mem_keys_ofPairs {pairs : List (κ × α)} :
    k ∈ (ofPairs pairs).map (·.1) ↔ k ∈ pairs.map (·.1) := by
  have hassoc : ∀ (m : List (κ × α)) (l : κ) (a : α),
      k ∈ (assoc m l a).map (·.1) ↔ k = l ∨ k ∈ m.map (·.1) := by
    intro m l a
    rw [← get?_isSome, ← get?_isSome, get?_assoc]
    split
    · simp [*]
    · simp [Ne.symm ‹_›]
  have hfold : ∀ l m : List (κ × α), k ∈ (l.foldl (fun m q ↦ assoc m q.1 q.2) m).map (·.1) ↔
      k ∈ m.map (·.1) ∨ k ∈ l.map (·.1) := by
    intro l
    induction l with
    | nil => simp
    | cons q l ih =>
      intro m
      rw [foldl_cons, ih, hassoc, map_cons, mem_cons]
      tauto
  exact (hfold pairs []).trans (by simp)

theorem get?_eq_some_iff (hnodup : (m.map (·.1)).Nodup) : get? m k = some a ↔ (k, a) ∈ m :=
  ⟨mem_of_get?, fun h ↦ get?_of_mem hnodup h⟩

theorem get?_perm {n : List (κ × α)} (hperm : m.Perm n) (hnodup : (m.map (·.1)).Nodup) (k : κ) :
    get? m k = get? n k := by
  have hnodup' : (n.map (·.1)).Nodup := (hperm.map _).nodup_iff.mp hnodup
  ext a
  rw [get?_eq_some_iff hnodup, get?_eq_some_iff hnodup', hperm.mem_iff]

theorem get?_ofPairs (pairs : List (κ × α)) (k : κ) :
    get? (ofPairs pairs) k = get? pairs.reverse k := by
  unfold ofPairs
  induction pairs using reverseRecOn with
  | nil => rfl
  | append_singleton pairs p ih =>
    rw [foldl_append, reverse_append, reverse_singleton, singleton_append,
      foldl_cons, foldl_nil, get?_assoc, get?_cons, ih]

theorem nodup_sorted (le : κ → κ → Bool) (pairs : List (κ × α)) :
    ((sorted le pairs).map (·.1)).Nodup :=
  ((perm_insertionSort _ _).map _).nodup_iff.mpr (nodup_ofPairs pairs)

theorem get?_sorted (le : κ → κ → Bool) (pairs : List (κ × α)) (k : κ) :
    get? (sorted le pairs) k = get? pairs.reverse k := by
  have hperm := perm_insertionSort (fun p q : κ × α ↦ le p.1 q.1) (ofPairs pairs)
  calc
    get? (sorted le pairs) k = get? (ofPairs pairs) k := get?_perm hperm (nodup_sorted le pairs) k
    _ = get? pairs.reverse k := get?_ofPairs pairs k

theorem get?_filter (p : κ → Bool) (m : List (κ × α)) (k : κ) :
    get? (m.filter fun q ↦ p q.1) k = if p k then get? m k else none := by
  induction m with
  | nil => simp [get?]
  | cons q m ih =>
    rw [filter_cons]
    split
    · rw [get?_cons, get?_cons, ih]
      grind
    · rw [get?_cons, ih]
      grind

/-- Maps in the order of their keys are the same list as soon as they are the same map. -/
theorem eq_of_get? (hanti : ∀ a b, le a b → le b a → a = b) {m n : List (κ × α)}
    (hm : m.Pairwise fun p q ↦ le p.1 q.1) (hn : n.Pairwise fun p q ↦ le p.1 q.1)
    (hnodup : (m.map (·.1)).Nodup)
    (hnodup' : (n.map (·.1)).Nodup) (h : ∀ k, get? m k = get? n k) : m = n := by
  have hmem : ∀ p : κ × α, p ∈ m ↔ p ∈ n := by
    rintro ⟨k, a⟩
    rw [← get?_eq_some_iff hnodup, h, get?_eq_some_iff hnodup']
  refine List.Perm.eq_of_pairwise ?_ hm hn ?_
  · intro p q hp hq hpq hqp
    have hkey := hanti p.1 q.1 hpq hqp
    have hsome := (get?_eq_some_iff hnodup).mpr hp
    rw [hkey, (get?_eq_some_iff hnodup).mpr ((hmem q).mpr hq)] at hsome
    exact Prod.ext hkey (some.inj hsome).symm
  · exact (perm_ext_iff_of_nodup hnodup.of_map hnodup'.of_map).mpr hmem

theorem perm_sorted (le : κ → κ → Bool) {m : List (κ × α)} (hnodup : (m.map (·.1)).Nodup) :
    (sorted le m).Perm m := by
  have hmem : ∀ p : κ × α, p ∈ sorted le m ↔ p ∈ m := by
    rintro ⟨k, a⟩
    have hreverse : (m.reverse.map (·.1)).Nodup := by
      rw [map_reverse]
      exact nodup_reverse.mpr hnodup
    rw [← get?_eq_some_iff (nodup_sorted le m), get?_sorted, get?_eq_some_iff hreverse, mem_reverse]
  exact (perm_ext_iff_of_nodup (nodup_sorted le m).of_map hnodup.of_map).mpr hmem

/-- A map whose values are given by its keys. -/
theorem mem_sorted_map {f : κ → α} {l : List κ} :
    p ∈ sorted le (l.map fun k ↦ (k, f k)) ↔ p.1 ∈ l ∧ p.2 = f p.1 := by
  have hkeys : (l.map fun k ↦ (k, f k)).map (·.1) = l := by
    rw [List.map_map]
    exact map_id l
  have hvalue : ∀ q ∈ ofPairs (l.map fun k ↦ (k, f k)), q.2 = f q.1 := by
    intro q hq
    obtain ⟨k, -, rfl⟩ := mem_map.mp (mem_ofPairs hq)
    rfl
  unfold sorted
  rw [mem_insertionSort]
  constructor
  · intro h
    have hkey := mem_keys_ofPairs.mp (mem_map_of_mem h)
    rw [hkeys] at hkey
    exact ⟨hkey, hvalue p h⟩
  · rintro ⟨hkey, hp⟩
    rw [← hkeys] at hkey
    obtain ⟨q, hq, hqp⟩ := mem_map.mp (mem_keys_ofPairs.mpr hkey)
    have hpq : p = q := Prod.ext hqp.symm (by rw [hp, hvalue q hq, hqp])
    exact hpq ▸ hq

section

variable (htotal : ∀ a b, le a b = true ∨ le b a = true)
  (htrans : ∀ a b c, le a b = true → le b c = true → le a c = true)
include htotal htrans

theorem sorted_pairwise (pairs : List (κ × α)) :
    (sorted le pairs).Pairwise fun p q ↦ le p.1 q.1 := by
  have htotal' : Std.Total fun p q : κ × α ↦ le p.1 q.1 := ⟨fun p q ↦ htotal p.1 q.1⟩
  have htrans' : IsTrans (κ × α) fun p q ↦ le p.1 q.1 :=
    ⟨fun p q r ↦ htrans p.1 q.1 r.1⟩
  exact pairwise_insertionSort (fun p q : κ × α ↦ le p.1 q.1) _

theorem filter_sorted
    (hanti : ∀ a b, le a b → le b a → a = b) (p : κ → Bool) (pairs : List (κ × α)) :
    ((sorted le pairs).filter fun q ↦ p q.1) = sorted le (pairs.filter fun q ↦ p q.1) := by
  apply eq_of_get? hanti ((sorted_pairwise htotal htrans pairs).sublist filter_sublist)
    (sorted_pairwise htotal htrans _)
    ((nodup_sorted le pairs).sublist (filter_sublist.map _)) (nodup_sorted le _)
  intro k
  rw [get?_filter, get?_sorted, get?_sorted, ← filter_reverse, get?_filter]

/-- Sorting gives back a map in the order of its keys. -/
theorem sorted_of_perm
    (hanti : ∀ a b, le a b → le b a → a = b) {m n : List (κ × α)} (hperm : m.Perm n)
    (hn : n.Pairwise fun p q ↦ le p.1 q.1) (hnodup : (n.map (·.1)).Nodup) : sorted le m = n := by
  apply eq_of_get? hanti (sorted_pairwise htotal htrans m) hn (nodup_sorted le m) hnodup
  intro k
  rw [get?_sorted]
  exact (get?_perm (hperm.symm.trans (reverse_perm m).symm) hnodup k).symm

end

end Simmis.Maps
