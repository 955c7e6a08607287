import Simmis.Library.Fields
import Mathlib.Data.Prod.Lex
import Mathlib.Data.List.Lex
import Mathlib.Algebra.Ring.Nat
import Mathlib.Algebra.Order.Monoid.Unbundled.WithTop

/-!
# Families and versions of model ids

The version of a model id is the last of its dash-separated tokens that reads as one. Its family is
the id with every token equal to the version replaced by `*`. Versions are ordered by their groups
of digits.
-/

namespace Simmis.Models

open List Option Fields

/-- A model id, a family or a version -/
abbrev ModelId := List Char

/-- `\d+` -/
def isDigits (s : ModelId) : Bool := !s.isEmpty && s.all Char.isDigit

/-- `\d+([p.]\d+)?` -/
def isNumber (s : ModelId) : Bool :=
  !(s.takeWhile Char.isDigit).isEmpty &&
    match s.dropWhile Char.isDigit with
    | [] => true
    | c :: minor => (c == 'p' || c == '.') && isDigits minor

/-- `version-token-re` -/
def isVersion : ModelId → Bool
  | [] => false
  | c :: rest => isNumber (c :: rest) || (c.isLower && isNumber rest)

def tokens (id : ModelId) : List ModelId := Fields.split '-' id

/-- `version-of` -/
def versionOf (id : ModelId) : Option ModelId := ((tokens id).filter isVersion).getLast?

/-- A token of the id in its family. -/
def blank (version token : ModelId) : ModelId := if token = version then ['*'] else token

/-- `family-of` -/
def familyOf (id : ModelId) : Option ModelId :=
  (versionOf id).map fun version ↦ Fields.join '-' ((tokens id).map (blank version))

/-- `str/replace` of the placeholder. -/
def fill (version family : ModelId) : ModelId :=
  family.flatMap fun c ↦ if c = '*' then version else [c]

/-- `id-for`; `str` makes nothing of `nil`. -/
def idFor (family version : Option ModelId) : ModelId := fill (version.getD []) (family.getD [])

/-- `re-seq #"\d+"` -/
def digitGroups (version : ModelId) : List ModelId :=
  (version.splitBy fun a b ↦ a.isDigit == b.isDigit).filter (·.all Char.isDigit)

/-- `parse-long`, of digits; `nil` is below every number. -/
def parseLong (digits : ModelId) : WithBot ℕ :=
  let n := digits.foldl (fun n c ↦ 10 * n + (c.toNat - '0'.toNat)) 0
  if n < 2 ^ 63 then n else ⊥

def versionKeyWidth : ℕ := 4

/-- `version-key`; vectors are compared by their lengths first. -/
def versionKey (version : ModelId) : ℕ ×ₗ List (WithBot ℕ) :=
  let groups := (digitGroups version).map parseLong
  let key := groups ++ List.replicate (versionKeyWidth - groups.length) ((0 : ℕ) : WithBot ℕ)
  toLex (key.length, key)

variable {id f t v w : ModelId}

theorem isNumber_notMem (h : isNumber t) : '*' ∉ t := by
  intro hmem
  rw [isNumber, Bool.and_eq_true] at h
  obtain ⟨_, hrest⟩ := h
  rw [← takeWhile_append_dropWhile (p := Char.isDigit) (l := t), mem_append] at hmem
  rcases hmem with hmem | hmem
  · exact absurd (mem_takeWhile_imp hmem) (by decide)
  · cases hdrop : t.dropWhile Char.isDigit with
    | nil => simp [hdrop] at hmem
    | cons c minor =>
      simp only [hdrop, isDigits, Bool.and_eq_true, List.all_eq_true] at hrest
      rw [hdrop, mem_cons] at hmem
      rcases hmem with rfl | hmem
      · exact absurd hrest.1 (by decide)
      · exact absurd (hrest.2.2 _ hmem) (by decide)

theorem isVersion_notMem (h : isVersion t) : '*' ∉ t := by
  cases t with
  | nil => simp
  | cons c rest =>
    rw [isVersion, Bool.or_eq_true, Bool.and_eq_true] at h
    rcases h with h | ⟨hc, h⟩
    · exact isNumber_notMem h
    · have hne : '*' ≠ c := by
        rintro rfl
        exact absurd hc (by decide)
      exact not_mem_cons_of_ne_of_not_mem hne (isNumber_notMem h)

theorem ne_nil_of_isVersion (h : isVersion t) : t ≠ [] := by
  rintro rfl
  simp [isVersion] at h

/-- The version is the last version token. -/
theorem versionOf_eq_some : versionOf id = some v ↔ isVersion v ∧
      ∃ before after, tokens id = before ++ v :: after ∧ ∀ t ∈ after, !isVersion t := by
  rw [versionOf, getLast?_filter, find?_eq_some_iff_append]
  refine and_congr_right fun _ ↦ ⟨?_, ?_⟩
  · rintro ⟨after, before, heq, hafter⟩
    refine ⟨before.reverse, after.reverse, ?_, fun t ht ↦ hafter t (mem_reverse.mp ht)⟩
    rw [← reverse_reverse (tokens id), heq]
    simp
  · rintro ⟨before, after, heq, hafter⟩
    refine ⟨after.reverse, before.reverse, by simp [heq], fun t ht ↦ ?_⟩
    exact hafter t (mem_reverse.mp ht)

theorem familyOf_eq_none : familyOf id = none ↔ versionOf id = none := map_eq_none_iff

theorem familyOf_eq_some :
    familyOf id = some f ↔ ∃ v, versionOf id = some v ∧ join '-' ((tokens id).map (blank v)) = f :=
  map_eq_some_iff

theorem ne_nil_of_versionOf (h : versionOf id = some v) : id ≠ [] := by
  rintro rfl
  simp [versionOf, tokens, split, isVersion] at h

theorem mem_tokens_of_versionOf (h : versionOf id = some v) : v ∈ tokens id := by
  obtain ⟨_, before, after, htokens, _⟩ := versionOf_eq_some.mp h
  simp [htokens]

/-- What stands in the slot of a version: a token that is not empty. -/
theorem versionOf_spec (h : versionOf id = some v) : '-' ∉ v ∧ '*' ∉ v ∧ v ≠ [] := by
  have hversion := (versionOf_eq_some.mp h).1
  exact ⟨mem_split (mem_tokens_of_versionOf h), isVersion_notMem hversion,
    ne_nil_of_isVersion hversion⟩

/-- The placeholder stands only for whole tokens of the family. -/
def Whole (family : ModelId) : Prop := ∀ t ∈ tokens family, '*' ∈ t → t = ['*']

instance (family : ModelId) : Decidable (Whole family) := List.decidableBAll _ _

@[simp] theorem fill_placeholder : fill w ['*'] = w := by simp [fill]

theorem fill_of_notMem (h : '*' ∉ t) : fill w t = t := by
  induction t with
  | nil => rfl
  | cons c t ih =>
    rw [mem_cons, not_or] at h
    have hc : c ≠ '*' := fun heq ↦ h.1 heq.symm
    rw [fill, flatMap_cons, if_neg hc, singleton_append, ← fill, ih h.2]

theorem placeholder_notMem_fill (hw : '*' ∉ w) : '*' ∉ fill w t := by
  rw [fill, mem_flatMap]
  rintro ⟨c, _, hc⟩
  split at hc
  · exact hw hc
  · rename_i hne
    exact hne (mem_singleton.mp hc).symm

theorem dash_notMem_fill (hw : '-' ∉ w) (h : '-' ∉ t) : '-' ∉ fill w t := by
  rw [fill, mem_flatMap]
  rintro ⟨c, hmem, hc⟩
  split at hc
  · exact hw hc
  · rw [mem_singleton.mp hc] at h
    exact h hmem

theorem fill_ne_nil (hw : w ≠ []) (h : t ≠ []) : fill w t ≠ [] := by
  obtain ⟨c, rest, rfl⟩ := exists_cons_of_ne_nil h
  rw [fill, flatMap_cons]
  split <;> simp [hw]

theorem fill_join {fields : List ModelId} :
    fill w (join '-' fields) = join '-' (fields.map (fill w)) :=
  join_flatMap (by simp)

@[simp] theorem blank_self : blank v v = ['*'] := if_pos rfl

theorem blank_of_ne (h : t ≠ v) : blank v t = t := if_neg h

theorem dash_notMem_blank (h : '-' ∉ t) : '-' ∉ blank v t := by
  rw [blank]
  split
  · decide
  · exact h

theorem blank_ne_nil (h : t ≠ []) : blank v t ≠ [] := by
  rw [blank]
  split
  · simp
  · exact h

/-- A token is blanked to itself unless it is the version. -/
theorem blank_fill_eq (hw : '*' ∉ w) : blank w (fill w t) = t ↔ t ≠ w ∧ ('*' ∈ t → t = ['*']) := by
  have hplaceholder : w ≠ ['*'] := by
    rintro rfl
    simp at hw
  by_cases hmem : '*' ∈ t
  · constructor
    · intro h
      rw [blank] at h
      split at h
      · subst h
        exact ⟨hplaceholder.symm, fun _ ↦ rfl⟩
      · rw [← h] at hmem
        exact absurd hmem (placeholder_notMem_fill hw)
    · rintro ⟨_, h⟩
      rw [h hmem, fill_placeholder, blank_self]
  · rw [fill_of_notMem hmem]
    constructor
    · intro h
      refine ⟨?_, fun h ↦ absurd h hmem⟩
      rintro rfl
      rw [blank_self] at h
      simp [← h] at hmem
    · rintro ⟨h, _⟩
      exact blank_of_ne h

/-- The tokens of a family are those of its id, the version blanked. -/
theorem tokens_family (hv : versionOf id = some v) (hf : join '-' ((tokens id).map (blank v)) = f) :
    tokens f = (tokens id).map (blank v) := by
  have hproper : Fields.Proper '-' ((tokens id).map (blank v)) :=
    (split_proper (ne_nil_of_versionOf hv)).map (fun _ ↦ dash_notMem_blank)
      fun _ ↦ blank_ne_nil
  have hne : tokens id ≠ [] := ne_nil_of_mem (mem_tokens_of_versionOf hv)
  rw [← hf, tokens, split_join hproper (by simpa using hne)]

/-- The version of an id is no token of its family. -/
theorem version_notMem_tokens (hf : familyOf id = some f) (hv : versionOf id = some v) :
    v ∉ tokens f := by
  obtain ⟨v', hv', hjoin⟩ := familyOf_eq_some.mp hf
  obtain rfl : v = v' := by simpa [hv] using hv'
  rw [tokens_family hv hjoin, List.mem_map]
  rintro ⟨t, _, hblank⟩
  rw [blank] at hblank
  split at hblank
  · have hstar := (versionOf_spec hv).2.1
    simp [← hblank] at hstar
  · contradiction

theorem family_proper (h : familyOf id = some f) :
    Fields.Proper '-' (tokens f) ∧ join '-' (tokens f) = f := by
  obtain ⟨v, hv, hf⟩ := familyOf_eq_some.mp h
  rw [tokens_family hv hf]
  exact ⟨(split_proper (ne_nil_of_versionOf hv)).map (fun _ ↦ dash_notMem_blank)
    fun _ ↦ blank_ne_nil, hf⟩

/-- In a family the placeholder is followed by no version. -/
theorem placeholder_mem_tokens (h : familyOf id = some f) :
    ∃ before after, tokens f = before ++ ['*'] :: after ∧ ∀ t ∈ after, !isVersion t := by
  obtain ⟨v, hv, hf⟩ := familyOf_eq_some.mp h
  obtain ⟨hversion, before, after, htokens, hafter⟩ := versionOf_eq_some.mp hv
  refine ⟨before.map (blank v), after.map (blank v), ?_, ?_⟩
  · rw [tokens_family hv hf, htokens, map_append, map_cons, blank_self]
  · intro _ hmem
    obtain ⟨t, ht, rfl⟩ := mem_map.mp hmem
    have hne : t ≠ v := by
      rintro rfl
      simpa [hversion] using hafter t ht
    rw [blank_of_ne hne]
    exact hafter t ht

/-- A family filled with a version has its tokens filled. -/
theorem tokens_fill (h : familyOf id = some f) (hw : '-' ∉ w) (hne : w ≠ []) :
    tokens (fill w f) = (tokens f).map (fill w) := by
  obtain ⟨hproper, hjoin⟩ := family_proper h
  have htokens : tokens f ≠ [] := by
    obtain ⟨before, after, htokens, _⟩ := placeholder_mem_tokens h
    simp [htokens]
  have hfilled : Fields.Proper '-' ((tokens f).map (fill w)) :=
    hproper.map (fun _ ↦ dash_notMem_fill hw) fun _ ↦ fill_ne_nil hne
  calc tokens (fill w f)
      = tokens (fill w (join '-' (tokens f))) := by rw [hjoin]
    _ = (tokens f).map (fill w) := by
      rw [fill_join]
      exact split_join hfilled (by simpa using htokens)

/-- The placeholder does not occur in the id and no dash stands at its end. -/
def Plain (id : ModelId) : Prop := '*' ∉ id ∧ id.getLast? ≠ some '-'

/-- Just the plain ids are made from their family and version again. -/
theorem idFor_family (hv : versionOf id = some v) (hf : familyOf id = some f) :
    idFor (some f) (some v) = id ↔ Plain id := by
  obtain ⟨hdash, hstar, hne⟩ := versionOf_spec hv
  have hfilled : fill v f = join '-' ((tokens id).map (fill v ∘ blank v)) := by
    obtain ⟨v', hv', hjoin⟩ := familyOf_eq_some.mp hf
    obtain rfl : v = v' := by simpa [hv] using hv'
    rw [← hjoin, fill_join, List.map_map]
  have hproper : Fields.Proper '-' ((tokens id).map (fill v ∘ blank v)) :=
    (split_proper (ne_nil_of_versionOf hv)).map
      (fun _ h ↦ dash_notMem_fill hdash (dash_notMem_blank h))
      fun _ h ↦ fill_ne_nil hne (blank_ne_nil h)
  rw [idFor, getD_some, getD_some]
  constructor
  · intro h
    refine ⟨?_, ?_⟩
    · rw [← h]
      exact placeholder_notMem_fill hstar
    · rw [← h, hfilled]
      exact hproper.getLast_ne
  · rintro ⟨hid, hlast⟩
    have hjoin : join '-' (tokens id) = id := join_split.mpr hlast
    have hself : ∀ t ∈ tokens id, (fill v ∘ blank v) t = t := by
      intro t ht
      have hmem : '*' ∉ t := by
        intro hmem
        rw [← hjoin] at hid
        exact hid (mem_join ht hmem)
      rw [Function.comp_apply]
      by_cases hversion : t = v
      · rw [hversion, blank_self, fill_placeholder]
      · rw [blank_of_ne hversion, fill_of_notMem hmem]
    rw [hfilled, map_congr_left hself, map_id'', hjoin]
    exact fun _ ↦ rfl

/-- If the placeholder stands for whole tokens, the new id has that version. -/
theorem versionOf_fill (hf : familyOf id = some f) {other : ModelId}
    (hw : versionOf other = some w) (hwhole : Whole f) : versionOf (fill w f) = some w := by
  obtain ⟨hdash, _, hne⟩ := versionOf_spec hw
  have hversion := (versionOf_eq_some.mp hw).1
  obtain ⟨before, after, htokens, hafter⟩ := placeholder_mem_tokens hf
  have hrest : ∀ t ∈ (after.map (fill w)).filter isVersion, t = w := by
    intro _ hmem
    rw [List.mem_filter, List.mem_map] at hmem
    obtain ⟨⟨t, ht, rfl⟩, hfilled⟩ := hmem
    by_cases hstar : '*' ∈ t
    · rw [hwhole t (by simp [htokens, ht]) hstar, fill_placeholder]
    · rw [fill_of_notMem hstar] at hfilled
      simpa [hfilled] using hafter t ht
  rw [versionOf, tokens_fill hf hdash hne, htokens, map_append, map_cons,
    fill_placeholder, filter_append, filter_cons_of_pos hversion, getLast?_append,
    getLast?_cons]
  cases hlast : ((after.map (fill w)).filter isVersion).getLast? with
  | none => simp
  | some t => simp [hrest t (mem_of_getLast? hlast)]

/-- A filled family is the family again just when the version is none of its tokens and the
placeholder stands for whole tokens. -/
theorem familyOf_fill (hf : familyOf id = some f) {other : ModelId}
    (hw : versionOf other = some w) : familyOf (fill w f) = some f ↔ w ∉ tokens f ∧ Whole f := by
  obtain ⟨hdash, hstar, hne⟩ := versionOf_spec hw
  have htokens : tokens (fill w f) = (tokens f).map (fill w) := tokens_fill hf hdash hne
  obtain ⟨_, hjoin⟩ := family_proper hf
  constructor
  · intro h
    obtain ⟨v, hv, hblanked⟩ := familyOf_eq_some.mp h
    have hself : ∀ t ∈ tokens f, blank v (fill w t) = t := by
      have hmap := tokens_family hv hblanked
      rw [htokens, List.map_map] at hmap
      exact fun t ht ↦ map_inj_left.mp (hmap.symm.trans (map_id _).symm) t ht
    have hwhole : Whole f := by
      intro t ht hmem
      have hblank := hself t ht
      rw [blank] at hblank
      split at hblank
      · exact hblank.symm
      · rw [← hblank] at hmem
        exact absurd hmem (placeholder_notMem_fill hstar)
    obtain rfl : v = w := by
      have hversion := versionOf_fill hf hw hwhole
      rwa [hv, some.injEq] at hversion
    exact ⟨fun hmem ↦ ((blank_fill_eq hstar).mp (hself v hmem)).1 rfl, hwhole⟩
  · rintro ⟨hmem, hwhole⟩
    rw [familyOf_eq_some]
    refine ⟨w, versionOf_fill hf hw hwhole, ?_⟩
    have hself : ∀ t ∈ tokens f, (blank w ∘ fill w) t = t := by
      intro t ht
      refine (blank_fill_eq hstar).mpr ⟨?_, hwhole t ht⟩
      rintro rfl
      exact hmem ht
    rw [htokens, List.map_map, List.map_congr_left hself, List.map_id'', hjoin]
    exact fun _ ↦ rfl

end Simmis.Models
