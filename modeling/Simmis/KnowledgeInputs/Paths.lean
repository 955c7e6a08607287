import Simmis.Documents.View
import Simmis.Library.Segments
import Mathlib.Data.List.DropRight

/-!
# Paths of a worktree

A path is above another one if the other starts with it and a slash. The index of a worktree is
ordered by the code units of its paths, so that what is below a root is a range of it, with one
foreign path at its end.
-/

namespace Simmis.Text

open List

/-- The code units of a character. -/
def charUnits (c : Char) : List ℕ :=
  if c.toNat < 0x10000 then [c.toNat]
  else [0xD800 + (c.toNat - 0x10000) / 0x400, 0xDC00 + (c.toNat - 0x10000) % 0x400]

theorem units_eq (s : String) : units s = s.toList.flatMap charUnits := rfl

theorem units_append (s t : String) : units (s ++ t) = units s ++ units t := by
  rw [units_eq, String.toList_append, flatMap_append]
  rfl

/-- No character starts as another one goes on. -/
theorem charUnits_append {c d : Char} {l r : List ℕ} (h : charUnits c ++ l = charUnits d ++ r) :
    c = d ∧ l = r := by
  have hvalid (c : Char) : c.toNat < 0xD800 ∨ 0xDFFF < c.toNat ∧ c.toNat < 0x110000 := c.valid
  have hc := hvalid c
  have hd := hvalid d
  have hsame (hnat : c.toNat = d.toNat) : c = d := Char.toNat_inj.mp hnat
  unfold charUnits at h
  split at h <;> split at h
  · obtain ⟨hcd, hlr⟩ := cons.inj h
    exact ⟨hsame hcd, hlr⟩
  · have hhead := (cons.inj h).1
    omega
  · have hhead := (cons.inj h).1
    omega
  · obtain ⟨hhigh, htail⟩ := cons.inj h
    obtain ⟨hlow, hlr⟩ := cons.inj htail
    exact ⟨hsame (by omega), hlr⟩

/-- A string starts with another one as soon as its code units do. -/
theorem exists_of_units {l p : List Char} {r : List ℕ}
    (h : p.flatMap charUnits = l.flatMap charUnits ++ r) : ∃ rest, p = l ++ rest := by
  induction l generalizing p with
  | nil => exact ⟨p, rfl⟩
  | cons c l ih =>
    cases p with
    | nil =>
      have hne : charUnits c ≠ [] := by
        unfold charUnits
        split <;> simp
      simp [hne] at h
    | cons d p =>
      rw [flatMap_cons, flatMap_cons, append_assoc] at h
      obtain ⟨rfl, htail⟩ := charUnits_append h
      obtain ⟨rest, rfl⟩ := ih htail
      exact ⟨rest, rfl⟩

theorem units_injective {s t : String} (h : units s = units t) : s = t := by
  have hlist : s.toList.flatMap charUnits = t.toList.flatMap charUnits ++ [] :=
    h.trans (append_nil _).symm
  obtain ⟨rest, hrest⟩ := exists_of_units hlist
  have hlist' : t.toList.flatMap charUnits = s.toList.flatMap charUnits ++ [] :=
    h.symm.trans (append_nil _).symm
  obtain ⟨rest', hrest'⟩ := exists_of_units hlist'
  have hnil : rest' = [] := by
    have hlength := congrArg length hrest'
    rw [hrest, length_append, length_append] at hlength
    exact length_eq_zero_iff.mp (by omega)
  rw [hnil, append_nil] at hrest'
  exact String.toList_inj.mp hrest'.symm

theorem count_append (s t : String) : count (s ++ t) = count s + count t := by
  unfold count
  rw [String.toList_append, map_append, sum_append]

theorem length_le_count (s : String) : s.toList.length ≤ count s := by
  unfold count
  induction s.toList with
  | nil => simp
  | cons c l ih =>
    rw [map_cons, sum_cons, length_cons]
    split <;> omega

end Simmis.Text

namespace Simmis.KnowledgeInputs

open Documents

theorem textLe_total (a b : String) : Text.le a b ∨ Text.le b a := by
  unfold Text.le
  simpa using le_total _ _

theorem textLe_trans (a b c : String) (hab : Text.le a b) (hbc : Text.le b c) :
    Text.le a c :=
  decide_eq_true ((of_decide_eq_true hab).trans (of_decide_eq_true hbc))

theorem textLe_antisymm (a b : String) (hab : Text.le a b) (hba : Text.le b a) :
    a = b :=
  Text.units_injective (le_antisymm (of_decide_eq_true hab) (of_decide_eq_true hba))

/-- The `path-parents` of a path. Trailing separators are dropped. -/
def pathParents (path : String) : List String :=
  (Segments.leading '/' ((path.toList.splitOn '/').rdropWhile (· = []))).map String.ofList

/-- `contains-path?` -/
def containsPath (root path : String) : Bool :=
  root = "" || root = path || View.startsWith path (root ++ "/")

theorem startsWith_iff {path folder : String} :
    View.startsWith path folder ↔ ∃ rest, path = folder ++ rest := by
  unfold View.startsWith
  rw [List.isPrefixOf_iff_prefix]
  constructor
  · rintro ⟨rest, hrest⟩
    refine ⟨String.ofList rest, String.toList_inj.mp ?_⟩
    rw [String.toList_append, String.toList_ofList, hrest]
  · rintro ⟨rest, rfl⟩
    exact ⟨rest.toList, String.toList_append.symm⟩

/-- `a` is a proper ancestor of `path`. -/
def IsAbove (a path : String) : Prop := ∃ rest, path = a ++ "/" ++ rest

theorem toList_below (a rest : String) :
    (a ++ "/" ++ rest).toList = a.toList ++ '/' :: rest.toList := by
  have hslash : "/".toList = ['/'] := rfl
  rw [String.toList_append, String.toList_append, hslash, List.append_assoc]
  rfl

theorem isAbove_iff {a path : String} :
    IsAbove a path ↔ ∃ rest, path.toList = a.toList ++ '/' :: rest := by
  constructor
  · rintro ⟨rest, rfl⟩
    exact ⟨rest.toList, toList_below a rest⟩
  · rintro ⟨rest, hrest⟩
    refine ⟨String.ofList rest, String.toList_inj.mp ?_⟩
    rw [hrest, toList_below, String.toList_ofList]

theorem containsPath_iff {root path : String} :
    containsPath root path ↔ root = "" ∨ root = path ∨ IsAbove root path := by
  unfold containsPath IsAbove
  rw [Bool.or_eq_true, Bool.or_eq_true, decide_eq_true_eq, decide_eq_true_eq, startsWith_iff,
    or_assoc]

theorem IsAbove.trans {a b c : String} (hab : IsAbove a b) (hbc : IsAbove b c) : IsAbove a c := by
  obtain ⟨rest, rfl⟩ := hab
  obtain ⟨rest', rfl⟩ := hbc
  exact ⟨rest ++ "/" ++ rest', by simp only [String.append_assoc]⟩

theorem not_isAbove_self (a : String) : ¬ IsAbove a a := by
  rintro ⟨rest, h⟩
  have hlength := congrArg (fun s : String ↦ s.toList.length) h
  simp only [String.toList_append, List.length_append] at hlength
  have hslash : "/".toList.length = 1 := rfl
  omega

/-- Two ancestors of one path are comparable. -/
theorem isAbove_total {a b path : String} (ha : IsAbove a path) (hb : IsAbove b path) :
    a = b ∨ IsAbove a b ∨ IsAbove b a := by
  obtain ⟨rest, hrest⟩ := isAbove_iff.mp ha
  obtain ⟨rest', hrest'⟩ := isAbove_iff.mp hb
  have hlist : ∀ l l' r r' : List Char, l ++ '/' :: r = l' ++ '/' :: r' →
      l = l' ∨ (∃ t, l' = l ++ '/' :: t) ∨ ∃ t, l = l' ++ '/' :: t := by
    intro l l' r r' h
    obtain ⟨t, ht⟩ | ⟨t, ht⟩ := List.append_eq_append_iff.mp h
    · cases t with
      | nil => exact .inl (by simpa using ht.1.symm)
      | cons c t =>
        obtain ⟨hc, -⟩ := List.cons.inj ht.2
        exact .inr (.inl ⟨t, by rw [ht.1, ← hc]⟩)
    · cases t with
      | nil => exact .inl (by simpa using ht.1)
      | cons c t =>
        obtain ⟨hc, -⟩ := List.cons.inj ht.2
        exact .inr (.inr ⟨t, by rw [ht.1, ← hc]⟩)
  obtain h | ⟨t, h⟩ | ⟨t, h⟩ := hlist _ _ _ _ (hrest.symm.trans hrest')
  · exact .inl (String.toList_inj.mp h)
  · exact .inr (.inl (isAbove_iff.mpr ⟨t, h⟩))
  · exact .inr (.inr (isAbove_iff.mpr ⟨t, h⟩))

theorem not_isAbove_wiki (a : String) : ¬ IsAbove a "wiki" := by
  intro habove
  obtain ⟨rest, hrest⟩ := isAbove_iff.mp habove
  have hslash : '/' ∈ "wiki".toList := by
    rw [hrest]
    simp
  revert hslash
  decide

/-- The last segment of a path is not empty. -/
def Trim (path : String) : Prop := (path.toList.splitOn '/').getLast? ≠ some []

theorem mem_pathParents {a path : String} (htrim : Trim path) :
    a ∈ pathParents path ↔ IsAbove a path := by
  have hsplit : (path.toList.splitOn '/').rdropWhile (· = []) = path.toList.splitOn '/' := by
    have hne := List.splitOn_ne_nil '/' path.toList
    rw [List.rdropWhile_eq_self_iff]
    intro _
    rw [decide_eq_true_eq]
    intro hlast
    apply htrim
    rw [List.getLast?_eq_some_getLast hne, hlast]
  unfold pathParents
  rw [hsplit, List.mem_map, isAbove_iff]
  constructor
  · rintro ⟨l, hl, rfl⟩
    rw [String.toList_ofList]
    exact (Segments.mem_leading '/').mp hl
  · exact fun h ↦ ⟨a.toList, (Segments.mem_leading '/').mpr h, String.ofList_toList⟩

/-- What an index range from `root/` to `root0` finds. -/
def inRange (root path : String) : Bool := Text.le (root ++ "/") path && Text.le path (root ++ "0")

theorem cons_le_cons {m n : ℕ} {l p : List ℕ} : m :: l ≤ n :: p ↔ m < n ∨ m = n ∧ l ≤ p := by
  have hlt : n :: p < m :: l ↔ n < m ∨ n = m ∧ p < l := List.cons_lt_cons_iff
  rw [← not_lt, hlt, ← not_lt (a := p)]
  grind

theorem nil_le (l : List ℕ) : [] ≤ l := not_lt.mp (List.not_lt_nil l)

/-- Between `root/` and `root0` there is what is below the root, and `root0`. -/
theorem inRange_iff {root path : String} :
    inRange root path ↔ IsAbove root path ∨ path = root ++ "0" := by
  unfold inRange Text.le
  rw [Bool.and_eq_true, decide_eq_true_eq, decide_eq_true_eq, Text.units_append, Text.units_append]
  have hslash : Text.units "/" = [0x2F] := by decide
  have hzero : Text.units "0" = [0x30] := by decide
  rw [hslash, hzero]
  have hlist : ∀ l p : List ℕ, l ++ [0x2F] ≤ p ∧ p ≤ l ++ [0x30] ↔
      (∃ r, p = l ++ 0x2F :: r) ∨ p = l ++ [0x30] := by
    intro l p
    induction l generalizing p with
    | nil =>
      cases p with
      | nil => simp
      | cons n p =>
        have hlow : [0x2F] ≤ n :: p ↔ 0x2F ≤ n := by
          have hnil := nil_le p
          rw [cons_le_cons]
          grind
        have hhigh : n :: p ≤ [0x30] ↔ n < 0x30 ∨ n = 0x30 ∧ p = [] := by
          have hnil : p ≤ [] ↔ p = [] := ⟨fun h ↦ le_antisymm h (nil_le p), fun h ↦ h ▸ le_rfl⟩
          rw [cons_le_cons, hnil]
        simp only [List.nil_append, hlow, hhigh, List.cons.injEq, exists_and_left, exists_eq',
          and_true]
        grind
    | cons m l ih =>
      cases p with
      | nil => simp
      | cons n p =>
        simp only [List.cons_append, cons_le_cons, List.cons.injEq]
        have hp := ih p
        grind
  rw [hlist, isAbove_iff]
  constructor
  · rintro (⟨r, hr⟩ | h)
    · left
      have hunits : path.toList.flatMap Text.charUnits =
          (root.toList ++ ['/']).flatMap Text.charUnits ++ r := by
        rw [List.flatMap_append, List.append_assoc]
        exact hr
      obtain ⟨rest, hrest⟩ := Text.exists_of_units hunits
      exact ⟨rest, by simpa using hrest⟩
    · right
      apply Text.units_injective
      rw [h, Text.units_append, hzero]
  · rintro (⟨r, hr⟩ | rfl)
    · left
      refine ⟨r.flatMap Text.charUnits, ?_⟩
      rw [Text.units_eq, hr, List.flatMap_append]
      rfl
    · right
      rw [Text.units_append, hzero]

end Simmis.KnowledgeInputs
