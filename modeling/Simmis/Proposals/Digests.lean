import Mathlib.Algebra.Order.Group.Multiset

/-!
# Digests of proposal changes

A language model groups the changed pages of a proposal in nested sections. The first occurrence of
a page stays, other entries are dropped, and forgotten pages are swept into a section of their own.
-/

namespace Simmis.Digests

open List Option Prod

section Firsts

variable {α β P : Type} [DecidableEq P] (want : List P) (key : α → P)

/-- The first elements of the wanted keys, and all keys that were seen. -/
@[grind] def firsts : List α → List P → List α × List P
  | [], seen => ([], seen)
  | a :: rest, seen =>
    if key a ∈ want ∧ key a ∉ seen then
      let later := firsts rest (key a :: seen)
      (a :: later.1, later.2)
    else firsts rest seen

variable {want key} {l : List α} {seen : List P}

theorem firsts_append (l m : List α) (seen : List P) : firsts want key (l ++ m) seen =
    ((firsts want key l seen).1 ++ (firsts want key m (firsts want key l seen).2).1,
      (firsts want key m (firsts want key l seen).2).2) := by
  induction l generalizing seen with
  | nil => rfl
  | cons a l ih =>
    simp only [cons_append, firsts]
    split
    · rw [ih]
      rfl
    · exact ih seen

theorem firsts_map (f : β → α) (l : List β) (seen : List P) : firsts want key (l.map f) seen =
    ((firsts want (key ∘ f) l seen).1.map f, (firsts want (key ∘ f) l seen).2) := by
  induction l generalizing seen with
  | nil => rfl
  | cons b l ih =>
    simp only [map_cons, firsts, Function.comp_apply]
    split
    · rw [ih]
      rfl
    · exact ih seen

theorem firsts_sublist : (firsts want key l seen).1.Sublist l := by
  induction l generalizing seen with
  | nil => exact .refl _
  | cons a l ih =>
    simp only [firsts]
    split
    · exact ih.cons_cons a
    · exact ih.cons a

theorem firsts_seen (l : List α) (seen : List P) : (firsts want key l seen).2 =
    ((firsts want key l seen).1.map key).reverse ++ seen := by
  induction l generalizing seen with
  | nil => rfl
  | cons a l ih =>
    simp only [firsts]
    split
    · rw [ih]
      simp
    · exact ih seen

theorem key_of_mem_firsts {a : α} (h : a ∈ (firsts want key l seen).1) :
    key a ∈ want ∧ key a ∉ seen := by
  induction l generalizing seen with
  | nil => exact nomatch h
  | cons b l ih =>
    simp only [firsts] at h
    split at h
    · next hfirst =>
      rcases mem_cons.mp h with rfl | h
      · exact hfirst
      · obtain ⟨hwant, hseen⟩ := ih h
        exact ⟨hwant, fun hmem ↦ hseen (mem_cons_of_mem _ hmem)⟩
    · exact ih h

theorem nodup_firsts (l : List α) (seen : List P) : ((firsts want key l seen).1.map key).Nodup := by
  induction l generalizing seen with
  | nil => exact .nil
  | cons a l ih =>
    simp only [firsts]
    split
    · rw [map_cons, nodup_cons]
      refine ⟨fun hmem ↦ ?_, ih _⟩
      obtain ⟨b, hb, heq⟩ := mem_map.mp hmem
      exact (key_of_mem_firsts hb).2 (heq ▸ mem_cons_self)
    · exact ih seen

/-- What stays of a wanted key is its first occurrence. -/
theorem find?_firsts {p : P} (hwant : p ∈ want) (hseen : p ∉ seen) :
    (firsts want key l seen).1.find? (key · = p) = l.find? (key · = p) := by
  induction l generalizing seen with
  | nil => rfl
  | cons a l ih =>
    simp only [firsts, find?_cons]
    by_cases hkey : key a = p
    · subst hkey
      rw [if_pos ⟨hwant, hseen⟩]
      simp
    · have hlater : p ∉ key a :: seen := by simp [Ne.symm hkey, hseen]
      split
      · simp [hkey, ih hlater]
      · simp [hkey, ih hseen]

end Firsts

/-- A section of the tree that the model returns. -/
inductive Section (P : Type)
  | mk (title summary : Option String) (pages : List P) (subsections : List (Section P))

/-- What the model returns. -/
structure Summary (P : Type) where
  headline : Option String
  risk : Option String
  riskNote : Option String
  sections : List (Section P)

/-- `:repaired` -/
structure Repair (P : Type) where
  sweptIn : List P
  droppedDuplicates : ℤ

variable {P : Type}

mutual

def Section.collect : Section P → List P
  | .mk _ _ pages subsections => pages ++ collectPages subsections

/-- `collect-pages` -/
def collectPages : List (Section P) → List P
  | [] => []
  | s :: rest => s.collect ++ collectPages rest

end

mutual

/-- The pages of a section, each with the way to where it stands. -/
def Section.places (path : List ℕ) : Section P → List (List ℕ × P)
  | .mk _ _ pages subsections => pages.map (path, ·) ++ places path 0 subsections

def places (path : List ℕ) (n : ℕ) : List (Section P) → List (List ℕ × P)
  | [] => []
  | s :: rest => s.places (path ++ [n]) ++ places path (n + 1) rest

end

mutual

theorem Section.map_snd_places (path : List ℕ) :
    (s : Section P) → (s.places path).map snd = s.collect
  | .mk title summary pages subsections => by
    rw [Section.places, Section.collect, List.map_append, List.map_map,
      map_snd_places path 0 subsections]
    congr 1
    exact List.map_id pages

theorem map_snd_places (path : List ℕ) (n : ℕ) :
    (l : List (Section P)) → (places path n l).map snd = collectPages l
  | [] => rfl
  | s :: rest => by
    rw [places, collectPages, List.map_append, s.map_snd_places, map_snd_places path (n + 1) rest]

end

theorem places_append (path : List ℕ) (n : ℕ) (l m : List (Section P)) :
    places path n (l ++ m) = places path n l ++ places path (n + l.length) m := by
  induction l generalizing n with
  | nil => rfl
  | cons s l ih =>
    rw [cons_append, places, ih, places, append_assoc, length_cons]
    congr 3
    omega

variable [DecidableEq P] (want : List P)

mutual

def Section.prune : Section P → List P → Section P × List P
  | .mk title summary pages subsections, seen =>
    let pages := firsts want id pages seen
    let subsections := prune subsections pages.2
    (.mk title summary pages.1 subsections.1, subsections.2)

/-- `prune`, with the pages that were seen -/
def prune : List (Section P) → List P → List (Section P) × List P
  | [], seen => ([], seen)
  | s :: rest, seen =>
    let s := s.prune seen
    let rest := prune rest s.2
    (s.1 :: rest.1, rest.2)

end

/-- The section of the pages that the summary did not mention. -/
def otherChanges (missing : List P) : Section P :=
  .mk (some "Other changes")
    (some (toString missing.length ++ " page(s) the summary did not " ++
      "otherwise mention, listed so nothing is hidden."))
    missing []

/-- `reconcile` -/
def reconcile (summary : Summary P) : Summary P × Repair P :=
  let pruned := prune want summary.sections []
  let missing := want.filter (· ∉ pruned.2)
  ({ summary with
      sections := if missing = [] then pruned.1 else pruned.1 ++ [otherChanges missing] },
    { sweptIn := missing
      droppedDuplicates := (collectPages summary.sections).length - pruned.2.length })

variable {want}

mutual

theorem Section.places_prune (path : List ℕ) : (s : Section P) → (seen : List P) →
    ((s.prune want seen).1.places path, (s.prune want seen).2) =
      firsts want snd (s.places path) seen
  | .mk title summary pages subsections, seen => by
    have hpages : firsts want snd (pages.map ((path, ·) : P → List ℕ × P)) seen =
        ((firsts want id pages seen).1.map (path, ·), (firsts want id pages seen).2) :=
      firsts_map _ pages seen
    have hsubsections := places_prune path 0 subsections (firsts want id pages seen).2
    rw [Section.places, firsts_append, hpages, ← hsubsections]
    rfl

/-- Pruning keeps the first occurrence of every wanted page where it stands. -/
theorem places_prune (path : List ℕ) (n : ℕ) : (l : List (Section P)) → (seen : List P) →
    (places path n (prune want l seen).1, (prune want l seen).2) =
      firsts want snd (places path n l) seen
  | [], _ => rfl
  | s :: rest, seen => by
    have hsection := s.places_prune (path ++ [n]) seen
    have hrest := places_prune path (n + 1) rest (s.prune want seen).2
    rw [places, firsts_append, ← hsection, ← hrest]
    rfl

end

/-- The places of the pages that the tree keeps. -/
def kept (want : List P) (sections : List (Section P)) : List (List ℕ × P) :=
  (firsts want Prod.snd (places [] 0 sections) []).1

theorem mem_kept {sections : List (Section P)} {p : P} :
    p ∈ (kept want sections).map snd ↔ p ∈ want ∧ p ∈ collectPages sections := by
  rw [← map_snd_places [] 0 sections]
  constructor
  · intro hp
    obtain ⟨entry, hentry, rfl⟩ := mem_map.mp hp
    exact ⟨(key_of_mem_firsts hentry).1, mem_map_of_mem (firsts_sublist.subset hentry)⟩
  · rintro ⟨hwant, hp⟩
    obtain ⟨entry, hentry, rfl⟩ := mem_map.mp hp
    have hfind : ((kept want sections).find? (·.2 = entry.2)).isSome := by
      rw [kept, find?_firsts hwant not_mem_nil, find?_isSome]
      exact ⟨entry, hentry, by simp⟩
    obtain ⟨first, hfirst, heq⟩ := find?_isSome.mp hfind
    exact mem_map.mpr ⟨first, hfirst, by simpa using heq⟩

theorem nodup_kept (want : List P) (sections : List (Section P)) :
    ((kept want sections).map snd).Nodup := nodup_firsts _ _

theorem prune_eq (want : List P) (sections : List (Section P)) :
    places [] 0 (prune want sections []).1 = kept want sections ∧
      (prune want sections []).2 = ((kept want sections).map snd).reverse := by
  have hplaces : (places [] 0 (prune want sections []).1, (prune want sections []).2) =
      firsts want snd (places [] 0 sections) [] := places_prune [] 0 sections []
  obtain ⟨hkept, hseen⟩ := Prod.ext_iff.mp hplaces
  refine ⟨hkept, ?_⟩
  have hreverse := hseen.trans (firsts_seen (places [] 0 sections) [])
  rwa [append_nil] at hreverse

section

variable (want : List P) (summary : Summary P)

theorem sweptIn_eq : (reconcile want summary).2.sweptIn =
    want.filter (· ∉ (kept want summary.sections).map snd) := by
  change want.filter (· ∉ (prune want summary.sections []).2) = _
  rw [(prune_eq want summary.sections).2]
  simp only [mem_reverse]

/-- The repaired tree has the kept places, and then the pages swept in. -/
theorem places_reconcile : ∃ path, places [] 0 (reconcile want summary).1.sections =
      kept want summary.sections ++ (reconcile want summary).2.sweptIn.map (path, ·) := by
  refine ⟨[(prune want summary.sections []).1.length], ?_⟩
  change places [] 0 (if (reconcile want summary).2.sweptIn = [] then _ else
    _ ++ [otherChanges (reconcile want summary).2.sweptIn]) = _
  split
  · next hnone => rw [hnone, map_nil, append_nil, (prune_eq want summary.sections).1]
  · rw [places_append, (prune_eq want summary.sections).1]
    simp [places, otherChanges, Section.places]

theorem collectPages_reconcile : collectPages (reconcile want summary).1.sections =
      (kept want summary.sections).map snd ++ (reconcile want summary).2.sweptIn := by
  obtain ⟨path, hplaces⟩ := places_reconcile want summary
  rw [← map_snd_places [] 0, hplaces, List.map_append, List.map_map]
  congr 1
  exact map_id _

end

/-- What the repaired tree says of a digest and of the tree that was proposed. -/
structure Partitions (want : List P) (proposed repaired : List (Section P)) (repair : Repair P) :
    Prop where
  once : ∀ p ∈ want, (collectPages repaired).count p = 1
  only : ∀ p ∈ collectPages repaired, p ∈ want
  stay : ∀ p ∈ want, p ∈ collectPages proposed →
    (places [] 0 repaired).find? (·.2 = p) = (places [] 0 proposed).find? (·.2 = p)
  added : ∀ p, p ∈ repair.sweptIn ↔ p ∈ want ∧ p ∉ collectPages proposed
  dropped : repair.droppedDuplicates =
    ((collectPages proposed : Multiset P) - (collectPages repaired : Multiset P)).card

theorem mem_sweptIn (want : List P) (summary : Summary P) {p : P} :
    p ∈ (reconcile want summary).2.sweptIn ↔ p ∈ want ∧ p ∉ collectPages summary.sections := by
  rw [sweptIn_eq, mem_filter, decide_eq_true_eq, mem_kept]
  tauto

theorem nodup_reconcile (hnodup : want.Nodup) (summary : Summary P) :
    (collectPages (reconcile want summary).1.sections).Nodup := by
  rw [collectPages_reconcile, nodup_append']
  refine ⟨nodup_kept want _, ?_, fun p hkept hswept ↦ ?_⟩
  · exact hnodup.filter _
  · exact ((mem_sweptIn want summary).mp hswept).2 (mem_kept.mp hkept).2

/-- The occurrences of the proposal that have none in the repaired tree. -/
theorem card_removed (want : List P) (summary : Summary P) :
    ((collectPages summary.sections : Multiset P) -
      (collectPages (reconcile want summary).1.sections : Multiset P)).card +
      (kept want summary.sections).length = (collectPages summary.sections).length := by
  have hinter : (collectPages summary.sections : Multiset P) ∩
      (collectPages (reconcile want summary).1.sections : Multiset P) =
        ((kept want summary.sections).map snd : Multiset P) := by
    ext p
    rw [Multiset.count_inter, collectPages_reconcile, Multiset.coe_count, Multiset.coe_count,
      Multiset.coe_count, count_append]
    by_cases hkept : p ∈ (kept want summary.sections).map snd
    · have hproposed := (mem_kept.mp hkept).2
      have hswept : p ∉ (reconcile want summary).2.sweptIn := fun hmem ↦
        ((mem_sweptIn want summary).mp hmem).2 hproposed
      rw [count_eq_one_of_mem (nodup_kept want _) hkept, count_eq_zero_of_not_mem hswept]
      exact min_eq_right (one_le_count_iff.mpr hproposed)
    · rw [count_eq_zero_of_not_mem hkept, Nat.zero_add]
      by_cases hswept : p ∈ (reconcile want summary).2.sweptIn
      · rw [count_eq_zero_of_not_mem ((mem_sweptIn want summary).mp hswept).2]
        exact Nat.zero_min _
      · rw [count_eq_zero_of_not_mem hswept]
        exact Nat.min_zero _
  have hcard := congrArg Multiset.card (Multiset.sub_add_inter
    (collectPages summary.sections : Multiset P)
    (collectPages (reconcile want summary).1.sections : Multiset P))
  rwa [Multiset.card_add, hinter, Multiset.coe_card, Multiset.coe_card, length_map] at hcard

/-- Every page occurs once, at its first occurrence if it was proposed. -/
theorem reconcile_partitions (hnodup : want.Nodup) (summary : Summary P) :
    Partitions want summary.sections (reconcile want summary).1.sections
      (reconcile want summary).2 where
  once p hp := by
    apply count_eq_one_of_mem (nodup_reconcile hnodup summary)
    rw [collectPages_reconcile, mem_append, mem_kept, mem_sweptIn]
    tauto
  only p hp := by
    rw [collectPages_reconcile, mem_append, mem_kept, mem_sweptIn] at hp
    tauto
  stay p hwant hp := by
    obtain ⟨path, hplaces⟩ := places_reconcile want summary
    have hfirst : (kept want summary.sections).find? (·.2 = p) =
        (places [] 0 summary.sections).find? (·.2 = p) := find?_firsts hwant not_mem_nil
    have hsome : ((kept want summary.sections).find? (·.2 = p)).isSome := by
      obtain ⟨entry, hentry, heq⟩ := mem_map.mp (mem_kept.mpr ⟨hwant, hp⟩)
      exact find?_isSome.mpr ⟨entry, hentry, by simpa using heq⟩
    rw [hplaces, find?_append, or_of_isSome hsome]
    exact hfirst
  added p := mem_sweptIn want summary
  dropped := by
    change ((collectPages summary.sections).length : ℤ) -
      ((prune want summary.sections []).2.length : ℤ) = _
    rw [(prune_eq want summary.sections).2, length_reverse, length_map]
    have hremoved := card_removed want summary
    omega

/-- A page in two sections, an invented one and a forgotten one. -/
theorem reconcile_partitions_example :
    let summary : Summary ℕ := ⟨none, none, none,
      [.mk none none [1, 7] [.mk none none [2, 1] []], .mk none none [2] []]⟩
    Partitions [1, 2, 3] summary.sections (reconcile [1, 2, 3] summary).1.sections
      (reconcile [1, 2, 3] summary).2 :=
  reconcile_partitions (by decide) _

end Simmis.Digests
