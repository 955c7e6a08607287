import Simmis.Library.Cuts
import Simmis.Library.Fences
import Simmis.Library.Text
import Mathlib.Data.List.TakeWhile

/-!
# Prose from HTML

Tags become spaces, then one character reference after the other becomes its character, each in
the output of the ones before.
-/

namespace Simmis.Prose

open List Cuts Fences

abbrev Text := List Char

def quote : Char := Char.ofNat 34

def apostrophe : Char := Char.ofNat 39

/-- `html-entities`, in the order of the array map. -/
def htmlEntities : List (Text × Char) :=
  [("&amp;".toList, '&'), ("&lt;".toList, '<'), ("&gt;".toList, '>'), ("&quot;".toList, quote),
    ("&#39;".toList, apostrophe), ("&apos;".toList, apostrophe), ("&nbsp;".toList, ' ')]

/-- `<[^>]*>` becomes a space. The next `skip` characters belong to a tag. -/
def removeTags : ℕ → Text → Text
  | _, [] => []
  | skip + 1, _ :: s => removeTags skip s
  | 0, c :: s =>
    if c = '<' then
      match cut '>' s with
      | some (inside, _) => ' ' :: removeTags (inside.length + 1) s
      | none => c :: removeTags 0 s
    else c :: removeTags 0 s

/-- The fold over the entities. -/
def decode (entities : List (Text × Char)) (s : Text) : Text :=
  entities.foldl (fun t e ↦ Fences.replace e.1 [e.2] t) s

/-- `\s+` becomes one space. -/
def collapse (after : Bool) : Text → Text
  | [] => []
  | c :: s =>
    if 9 ≤ c.toNat ∧ c.toNat ≤ 13 ∨ c = ' ' then (if after then [] else [' ']) ++ collapse true s
    else c :: collapse false s

/-- `str/trim` -/
def trim (s : Text) : Text :=
  ((s.dropWhile Text.isWhitespace).reverse.dropWhile Text.isWhitespace).reverse

def tidy (s : Text) : Text := trim (collapse false s)

def stripHtml (entities : List (Text × Char)) (s : Option Text) : Option Text :=
  s.map fun s ↦ tidy (decode entities (removeTags 0 s))

/-- How an editor writes a character; there are two references to the apostrophe. -/
def reference (named : Bool) (c : Char) : Text :=
  if c = '&' then "&amp;".toList
  else if c = '<' then "&lt;".toList
  else if c = '>' then "&gt;".toList
  else if c = quote then "&quot;".toList
  else if c = apostrophe then (if named then "&apos;" else "&#39;").toList
  else [c]

def encode (named : Bool) (t : Text) : Text := t.flatMap (reference named)

variable {named : Bool} {pending : List Text} {s t : Text} {e : Text × Char}

/-- A text in which some characters are written by a pending reference. -/
inductive Coded (named : Bool) (pending : List Text) : Text → Text → Prop
  | nil : Coded named pending [] []
  | plain {s t : Text} (c : Char) (hc : c = '&' → "&amp;".toList ∉ pending)
    (hrest : Coded named pending s t) : Coded named pending (c :: s) (c :: t)
  | coded {s t : Text} (c : Char) (hc : reference named c ≠ [c])
    (hpending : reference named c ∈ pending) (hrest : Coded named pending s t) :
    Coded named pending (reference named c ++ s) (c :: t)

/-- The special characters, each with its entry. -/
theorem reference_cases (named : Bool) (c : Char) :
    reference named c = [c] ∨ (reference named c, c) ∈ htmlEntities := by
  unfold reference
  repeat' split
  all_goals simp_all [htmlEntities]

theorem entity_marks (named : Bool) : ∀ e ∈ htmlEntities, e.1.head? = some '&' ∧ '&' ∉ e.1.tail ∧
    ∀ c ∈ e.1.tail, reference named c = [c] := by
  have hall : ∀ e ∈ htmlEntities, e.1.head? = some '&' ∧ '&' ∉ e.1.tail ∧
      e.1.tail.all fun c ↦ reference named c = [c] := by
    cases named <;> decide
  simpa only [all_eq_true, decide_eq_true_eq] using hall

theorem entity_eq : ∀ e ∈ htmlEntities, ∀ f ∈ htmlEntities, e.1 <+: f.1 → e = f := by
  decide

theorem Coded.append {w : Text} (hw : '&' ∉ w) (h : Coded named pending (w ++ s) t) :
    ∃ t', t = w ++ t' ∧ Coded named pending s t' := by
  induction w generalizing t with
  | nil => exact ⟨t, rfl, h⟩
  | cons b w ih =>
    generalize hs : b :: w ++ s = s' at h
    cases h with
    | nil => cases hs
    | plain c hc hrest =>
      cases hs
      obtain ⟨t', rfl, ht'⟩ := ih (by simp_all) hrest
      exact ⟨t', rfl, ht'⟩
    | coded c hc hpending hrest =>
      rcases reference_cases named c with heq | hentry
      · exact absurd heq hc
      · obtain ⟨w', hw'⟩ := head?_eq_some_iff.mp (entity_marks named _ hentry).1
        simp_all

theorem Coded.of_append {w : Text} (hw : ∀ c ∈ w, reference named c = [c])
    (h : Coded named pending s (w ++ t)) : ∃ s', s = w ++ s' := by
  induction w generalizing s with
  | nil => exact ⟨s, rfl⟩
  | cons b w ih =>
    cases h with
    | plain c hc hrest =>
      obtain ⟨s', rfl⟩ := ih (fun c hc ↦ hw c (mem_cons_of_mem _ hc)) hrest
      exact ⟨s', rfl⟩
    | coded c hc hpending hrest => exact absurd (hw b mem_cons_self) hc

theorem replace_other {f : Text × Char} (he : e ∈ htmlEntities) (hf : f ∈ htmlEntities) (hne : f ≠ e)
    (put : Text) (s : Text) : Fences.replace e.1 put (f.1 ++ s) = f.1 ++ Fences.replace e.1 put s := by
  have hnot : ¬e.1 <+: f.1 ++ s := by
    intro h
    rcases prefix_or_prefix_of_prefix h (prefix_append _ _) with h | h
    · exact hne (entity_eq e he f hf h).symm
    · exact hne (entity_eq f hf e he h)
  obtain ⟨hhead, hmarks, -⟩ := entity_marks false f hf
  obtain ⟨w, hw⟩ := head?_eq_some_iff.mp hhead
  rw [hw, tail_cons] at hmarks
  rw [hw, cons_append] at hnot ⊢
  rw [replace_cons_of_not hnot, replace_append_of_not (entity_marks false e he).1 hmarks, cons_append]

local instance lawfulText : LawfulBEq (List Char) := inferInstance

/-- What replacing one reference does to the meaning: while the ampersand is still written as
`&amp;` nothing, and from then on what it does to any text. -/
def meaning (e : Text × Char) (pending : List Text) (t : Text) : Text :=
  if "&amp;".toList ∈ e.1 :: pending then t else Fences.replace e.1 [e.2] t

theorem Coded.replace (he : e ∈ htmlEntities) (hnew : e.1 ∉ pending)
    (h : Coded named (e.1 :: pending) s t) :
    Coded named pending (Fences.replace e.1 [e.2] s) (meaning e pending t) := by
  induction hn : s.length using Nat.strong_induction_on generalizing s t with
  | _ n ih =>
  subst hn
  obtain ⟨hhead, hmarks, hplain⟩ := entity_marks named e he
  have hne : e.1 ≠ [] := by
    rintro hnil
    simp [hnil] at hhead
  have hskip {c : Char} (hc : c ≠ '&') (s : Text) :
      Fences.replace e.1 [e.2] (c :: s) = c :: Fences.replace e.1 [e.2] s :=
    replace_append_of_not hhead (w := [c]) (by simpa using hc.symm) s
  have hmeaning {c : Char} (hc : c = '&' → "&amp;".toList ∈ e.1 :: pending) (t : Text) :
      meaning e pending (c :: t) = c :: meaning e pending t := by
    unfold meaning
    split
    · rfl
    · next hamp => exact hskip (fun hc' ↦ hamp (hc hc')) t
  cases h with
  | nil =>
    have hnil : meaning e pending [] = [] := by
      unfold meaning
      split <;> rfl
    rw [hnil]
    exact .nil
  | @coded s t c hc hpending hrest =>
    have hentry := (reference_cases named c).resolve_left hc
    have hc' : c = '&' → "&amp;".toList ∈ e.1 :: pending := by
      rintro rfl
      exact hpending
    rw [hmeaning hc']
    have hlong : reference named c ≠ [] := by
      intro hnil
      simpa [hnil] using (entity_marks named _ hentry).1
    have hrest := ih s.length (by simpa [length_pos_iff] using hlong) hrest rfl
    by_cases heq : (reference named c, c) = e
    · subst heq
      rw [replace_append_self hne]
      exact .plain c (fun hc ↦ by rwa [hc] at hnew) hrest
    · rw [replace_other he hentry heq]
      exact .coded c hc ((mem_cons.mp hpending).resolve_left fun h ↦ heq
        (entity_eq _ hentry _ he (by rw [h]))) hrest
  | @plain s t c hc hrest =>
    by_cases hc' : c = '&'
    · subst hc'
      have hamp := hc rfl
      obtain ⟨w, hw⟩ := head?_eq_some_iff.mp hhead
      simp only [meaning, if_neg hamp] at ih ⊢
      rw [hw, tail_cons] at hmarks hplain
      by_cases hfound : e.1 <+: '&' :: s
      · obtain ⟨s', hs⟩ := hfound
        obtain rfl : w ++ s' = s := by simpa [hw] using hs
        obtain ⟨t', rfl, hrest'⟩ := hrest.append hmarks
        rw [← cons_append, ← cons_append, ← hw, replace_append_self hne, replace_append_self hne]
        refine .plain e.2 (fun _ ↦ (not_or.mp (mem_cons.not.mp hamp)).2) (ih s'.length ?_ hrest' rfl)
        exact Nat.lt_succ_of_le (suffix_append _ _).length_le
      · have hfound' : ¬e.1 <+: '&' :: t := by
          rintro ⟨t', ht⟩
          obtain rfl : w ++ t' = t := by simpa [hw] using ht
          obtain ⟨s', rfl⟩ := hrest.of_append hplain
          exact hfound ⟨s', by rw [hw, cons_append]⟩
        rw [replace_cons_of_not hfound, replace_cons_of_not hfound']
        exact .plain _ (fun _ ↦ (not_or.mp (mem_cons.not.mp hamp)).2)
          (ih s.length (Nat.lt_succ_self _) hrest rfl)
    · rw [hskip hc', hmeaning fun h ↦ absurd h hc']
      exact .plain c (fun h ↦ absurd h hc') (ih s.length (Nat.lt_succ_self _) hrest rfl)

theorem Coded.eq (h : Coded named [] s t) : s = t := by
  induction h with
  | nil => rfl
  | plain c hc hrest ih => rw [ih]
  | coded c hc hpending hrest ih => exact absurd hpending not_mem_nil

theorem Coded.encode {entities : List Text} (hall : ∀ e ∈ htmlEntities, e.1 ∈ entities) (t : Text) :
    Coded named entities (encode named t) t := by
  induction t with
  | nil => exact .nil
  | cons c t ih =>
    by_cases hc : reference named c = [c]
    · rw [Prose.encode, flatMap_cons, hc]
      refine .plain c ?_ ih
      rintro rfl
      simp [reference] at hc
    · exact .coded c hc (hall _ ((reference_cases named c).resolve_left hc)) ih

variable {l : List (Text × Char)}

theorem Coded.decode (hl : ∀ e ∈ l, e ∈ htmlEntities) (hnodup : (l.map Prod.fst).Nodup)
    (hamp : "&amp;".toList ∉ l.map Prod.fst) (h : Coded named (l.map Prod.fst) s t) :
    decode l s = decode l t := by
  induction l generalizing s t with
  | nil => exact h.eq
  | cons e l ih =>
    rw [map_cons, nodup_cons] at hnodup
    rw [map_cons] at hamp
    have hnext := h.replace (hl e mem_cons_self) hnodup.1
    rw [meaning, if_neg hamp] at hnext
    exact ih (fun f hf ↦ hl f (mem_cons_of_mem _ hf)) hnodup.2 (fun h ↦ hamp (mem_cons_of_mem _ h))
      hnext

/-- The entities behind that of the ampersand. -/
def late : List (Text × Char) → List (Text × Char)
  | [] => []
  | e :: l => if e.1 = "&amp;".toList then l else late l

/-- The references that are replaced after `&amp;` are replaced a second time. -/
theorem Coded.decode_late (hl : ∀ e ∈ l, e ∈ htmlEntities) (hnodup : (l.map Prod.fst).Nodup)
    (hamp : "&amp;".toList ∈ l.map Prod.fst) (h : Coded named (l.map Prod.fst) s t) :
    Prose.decode l s = Prose.decode (late l) t := by
  induction l generalizing s with
  | nil => cases hamp
  | cons e l ih =>
    rw [map_cons, nodup_cons] at hnodup
    rw [map_cons] at hamp
    have hnext := h.replace (hl e mem_cons_self) hnodup.1
    rw [meaning, if_pos hamp] at hnext
    have hl' : ∀ f ∈ l, f ∈ htmlEntities := fun f hf ↦ hl f (mem_cons_of_mem _ hf)
    rw [late]
    split
    · next he => exact Coded.decode hl' hnodup.2 (he ▸ hnodup.1) hnext
    · next he =>
      exact ih hl' hnodup.2 ((mem_cons.mp hamp).resolve_left fun h ↦ he h.symm) hnext

theorem mem_late (hnodup : (l.map Prod.fst).Nodup) (he : e ∈ late l) :
    e ∈ l ∧ e.1 ≠ "&amp;".toList := by
  induction l with
  | nil => cases he
  | cons f l ih =>
    rw [map_cons, nodup_cons] at hnodup
    rw [late] at he
    split at he
    · next hf =>
      refine ⟨mem_cons_of_mem _ he, fun h ↦ hnodup.1 ?_⟩
      rw [hf, ← h]
      exact mem_map_of_mem he
    · exact (ih hnodup.2 he).imp_left (mem_cons_of_mem _)

/-- The characters that no trimming takes. -/
def solid (s : Text) : ℕ := s.countP fun c ↦ !Text.isWhitespace c

theorem solid_trim (s : Text) : solid (trim s) = solid s := by
  have hdrop (s : Text) : solid (s.dropWhile Text.isWhitespace) = solid s := by
    induction s with
    | nil => rfl
    | cons c s ih => by_cases hc : Text.isWhitespace c = true <;> simp_all [solid]
  rw [trim, solid, countP_reverse, ← solid, hdrop, solid, countP_reverse, ← solid, hdrop]

theorem solid_collapse (after : Bool) (s : Text) : solid (collapse after s) = solid s := by
  induction s generalizing after with
  | nil => rfl
  | cons c s ih =>
    rw [collapse]
    split
    · next hspace =>
      have hc : Text.isWhitespace c := by
        rcases hspace with hspace | rfl
        · simp [Text.isWhitespace, hspace]
        · rfl
      have hblank : Text.isWhitespace ' ' := rfl
      rw [solid, countP_append, ← solid, ← solid, ih]
      cases after <;> simp [solid, hc, hblank]
    · simp only [solid, countP_cons] at ih ⊢
      rw [ih]

theorem solid_replace (he : e ∈ htmlEntities) (t : Text) :
    solid (Fences.replace e.1 [e.2] t) + (if e.1 <:+: t then 1 else 0) ≤ solid t :=
  countP_replace _ ((by decide : ∀ e ∈ htmlEntities, solid [e.2] < solid e.1) e he) t

theorem solid_decode (hl : ∀ e ∈ l, e ∈ htmlEntities) (t : Text) : solid (decode l t) ≤ solid t ∧
    (solid (decode l t) = solid t → ∀ e ∈ l, ¬e.1 <:+: t) := by
  induction l generalizing t with
  | nil => exact ⟨le_rfl, fun _ _ he ↦ absurd he not_mem_nil⟩
  | cons e l ih =>
    have he := hl e mem_cons_self
    have hhead := solid_replace he t
    obtain ⟨hle, hkept⟩ := ih (fun f hf ↦ hl f (mem_cons_of_mem _ hf)) (Fences.replace e.1 [e.2] t)
    rw [show decode (e :: l) t = decode l (Fences.replace e.1 [e.2] t) from rfl]
    refine ⟨by omega, fun heq ↦ ?_⟩
    have hnot : ¬e.1 <:+: t := fun h ↦ by
      rw [if_pos h] at hhead
      omega
    rw [replace_of_not hnot] at hkept heq
    exact forall_mem_cons.mpr ⟨hnot, hkept heq⟩

theorem decode_of_not (h : ∀ e ∈ l, ¬e.1 <:+: t) : decode l t = t := by
  induction l with
  | nil => rfl
  | cons e l ih =>
    rw [forall_mem_cons] at h
    rw [decode, foldl_cons, replace_of_not h.1]
    exact ih h.2

theorem removeTags_of_not (h : '<' ∉ s) : removeTags 0 s = s := by
  induction s with
  | nil => rfl
  | cons c s ih =>
    simp only [mem_cons, not_or] at h
    rw [removeTags, if_neg (Ne.symm h.1), ih h.2]

theorem stripHtml_encode {order : List (Text × Char)} (horder : order.Perm htmlEntities) (t : Text) :
    stripHtml order (some (encode named t)) = some (tidy (decode (late order) t)) := by
  have htags : '<' ∉ encode named t := by
    intro hmem
    obtain ⟨c, -, hc⟩ := mem_flatMap.mp hmem
    rcases reference_cases named c with heq | hentry
    · rw [heq, mem_singleton] at hc
      simp [← hc, reference] at heq
    · exact (by decide : ∀ e ∈ htmlEntities, '<' ∉ e.1) _ hentry hc
  have hmem (e : Text) : e ∈ order.map Prod.fst ↔ e ∈ htmlEntities.map Prod.fst :=
    (horder.map _).mem_iff
  have hnodup : (order.map Prod.fst).Nodup := (horder.map _).nodup_iff.mpr (by decide)
  have hcoded : Coded named (order.map Prod.fst) (encode named t) t :=
    .encode (fun e he ↦ (hmem _).mpr (mem_map_of_mem he)) t
  rw [stripHtml, Option.map_some, removeTags_of_not htags,
    hcoded.decode_late (fun e ↦ horder.mem_iff.mp) hnodup ((hmem _).mpr (by decide))]

/-- Text comes back as it was typed, whatever the order of the entities, exactly when it does not
look like one of the references that are replaced after that of the ampersand. -/
theorem typed_text_shown_iff (named : Bool) (t : Text) :
    (stripHtml htmlEntities (some (encode named t)) = some (tidy t) ∧
      ∀ order, order.Perm htmlEntities → stripHtml order (some (encode named t)) =
        stripHtml htmlEntities (some (encode named t))) ↔
    ∀ r ∈ ["&lt;", "&gt;", "&quot;", "&#39;", "&apos;", "&nbsp;"], ¬r.toList <:+: t := by
  have hrefs : ∀ r ∈ ["&lt;", "&gt;", "&quot;", "&#39;", "&apos;", "&nbsp;"],
      ∃ e ∈ late htmlEntities, e.1 = r.toList := by decide
  have hentries : ∀ e ∈ htmlEntities, e.1 ≠ "&amp;".toList →
      ∃ r ∈ ["&lt;", "&gt;", "&quot;", "&#39;", "&apos;", "&nbsp;"], e.1 = r.toList := by decide
  constructor
  · rintro ⟨hshown, -⟩
    rw [stripHtml_encode (.refl _), Option.some.injEq] at hshown
    have hsolid := congrArg solid hshown
    rw [tidy, tidy, solid_trim, solid_trim, solid_collapse, solid_collapse] at hsolid
    intro r hr
    obtain ⟨e, he, hr⟩ := hrefs r hr
    exact hr ▸ (solid_decode (by decide) t).2 hsolid e he
  · intro habsent
    have hlate (order : List (Text × Char)) (horder : order.Perm htmlEntities) :
        stripHtml order (some (encode named t)) = some (tidy t) := by
      rw [stripHtml_encode horder, decode_of_not fun e he ↦ ?_]
      obtain ⟨hmem, hamp⟩ := mem_late ((horder.map _).nodup_iff.mpr (by decide)) he
      obtain ⟨r, hr, heq⟩ := hentries e (horder.mem_iff.mp hmem) hamp
      exact heq ▸ habsent r hr
    exact ⟨hlate _ (.refl _), fun order horder ↦ (hlate _ horder).trans (hlate _ (.refl _)).symm⟩

/-- A tag that was typed is shown as one. -/
theorem typed_tag_decoded :
    stripHtml htmlEntities (some (encode false "&lt;b&gt;".toList)) = some "<b>".toList ∧
      some "<b>".toList ≠ some (tidy "&lt;b&gt;".toList) := by
  decide

end Simmis.Prose
