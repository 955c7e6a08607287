import Simmis.Wiki.References

/-!
# Renaming a page in a content

A rename writes the links to one page with another title. No link begins or ends where none did
before, so the renamed content has the same pieces, with the titles of some links exchanged.
-/

namespace Simmis.Wiki.References

open List Option Scans Link Function

/-- A rewrite of links that keeps their display texts. -/
structure Retitles (f : Link → Link) : Prop where
  valid : ∀ l : Link, l.Valid → (f l).Valid
  display : ∀ l, (f l).display = l.display

/-- The content with its links rewritten. -/
def rewrite (f : Link → Link) (content : Text) : Text := join (Link.source ∘ f) (pieces content)

variable {s : Text}

theorem ending_opening_eq_none : ending (opening :: s) = none ↔
    ∀ text rest, title s = some (text, rest) → rest.head? ≠ some closing := by
  rw [ending, if_neg opening_ne_closing, if_pos rfl]
  cases htitle : title s with
  | none => simp
  | some split =>
    obtain ⟨text, rest⟩ := split
    cases rest with
    | nil => simp
    | cons v rest => by_cases hv : v = closing <;> simp [hv]

theorem linkAt_eq_none : linkAt (opening :: opening :: s) = none ↔
    ∀ text rest, title s = some (text, rest) → ending rest = none := by
  cases htitle : title s with
  | none => simp [linkAt, htitle]
  | some split =>
    obtain ⟨text, rest⟩ := split
    cases hending : ending rest <;> simp [linkAt, htitle, hending]

variable {u : UInt16}

theorem title_cons (hu : u ≠ closing) {text rest : Text} (h : title s = some (text, rest)) :
    title (u :: s) = some (u :: text, rest) := by
  obtain ⟨⟨-, hfree⟩, rfl⟩ := title_eq_some.mp h
  exact title_eq_some.mpr ⟨⟨by simp, by simp [hu.symm, hfree]⟩, rfl⟩

theorem title_single (hu : u ≠ closing) (rest : Text) :
    title (u :: closing :: rest) = some ([u], rest) :=
  title_eq_some.mpr ⟨⟨by simp, by simp [hu.symm]⟩, rfl⟩

/-- A title is one mark or goes on behind its first mark. -/
theorem title_cons_eq_some {text rest : Text} (h : title (u :: s) = some (text, rest)) :
    u ≠ closing ∧ (text = [u] ∧ s = closing :: rest ∨
        ∃ more, text = u :: more ∧ title s = some (more, rest)) := by
  obtain ⟨⟨hne, hfree⟩, hs⟩ := title_eq_some.mp h
  cases text with
  | nil => exact absurd rfl hne
  | cons v more =>
    obtain ⟨rfl, rfl⟩ := cons.inj hs
    simp only [mem_cons, not_or] at hfree
    refine ⟨Ne.symm hfree.1, ?_⟩
    cases more with
    | nil => exact .inl ⟨rfl, rfl⟩
    | cons w more => exact .inr ⟨_, rfl, title_eq_some.mpr ⟨⟨by simp, hfree.2⟩, rfl⟩⟩

theorem title_source (l : Link) (h : l.Valid) (rest : Text) : title (l.source ++ rest) =
    some (opening :: opening :: l.target, endingSource l.display ++ rest) := by
  have htarget : title (l.target ++ closing :: (endingSource l.display ++ rest)) =
      some (l.target, endingSource l.display ++ rest) := title_eq_some.mpr ⟨h.target, rfl⟩
  have hmarks := title_cons opening_ne_closing (title_cons opening_ne_closing htarget)
  simpa [source_eq] using hmarks

/-- The beginning of a link is no ending, if the link has a display text. -/
theorem ending_link {l : Link} (h : l.Valid) (rest : Text) :
    ending (l.source ++ rest) = none ↔ l.display ≠ none := by
  have htarget : title (l.target ++ closing :: (endingSource l.display ++ rest)) =
      some (l.target, endingSource l.display ++ rest) := title_eq_some.mpr ⟨h.target, rfl⟩
  have htitle := title_cons opening_ne_closing htarget
  have hsource : l.source ++ rest = opening :: opening ::
      (l.target ++ closing :: (endingSource l.display ++ rest)) := by simp [source_eq]
  rw [hsource, ending_opening_eq_none, htitle]
  cases l.display <;> simp [endingSource, opening_ne_closing]

variable {f : Link → Link}

theorem rewrite_text (h : linkAt (u :: s) = none) : rewrite f (u :: s) = u :: rewrite f s := by
  rw [rewrite, pieces_text h, join_text, rewrite]

theorem rewrite_closing (s : Text) : rewrite f (closing :: s) = closing :: rewrite f s :=
  rewrite_text (linkAt_of_ne opening_ne_closing.symm s)

theorem rewrite_link {l : Link} (h : l.Valid) (rest : Text) :
    rewrite f (l.source ++ rest) = (f l).source ++ rewrite f rest := by
  rw [rewrite, pieces_link (linkAt_source h rest), join_match, rewrite, comp_apply]

theorem head_rewrite (s : Text) : (rewrite f s).head? = s.head? := by
  refine pieces_induction (p := fun s ↦ (rewrite f s).head? = s.head?) rfl ?_ ?_ s
  · intro u s hnone _
    rw [rewrite_text hnone, head?_cons, head?_cons]
  · intro l rest hvalid _
    rw [rewrite_link hvalid]
    simp [source_eq]

theorem rewrite_free (h : closing ∉ s) : rewrite f s = s := by
  induction s with
  | nil => rfl
  | cons u s ih =>
    have hnone : linkAt (u :: s) = none := by
      by_contra hsome
      obtain ⟨⟨l, rest⟩, hlink⟩ := ne_none_iff_exists'.mp hsome
      obtain ⟨-, hs⟩ := linkAt_eq_some hlink
      exact h (by simp [hs, source_eq])
    rw [rewrite_text hnone, ih fun hmem ↦ h (mem_cons_of_mem _ hmem)]

theorem title_rewrite_eq_none (h : title s = none) : title (rewrite f s) = none := by
  rcases title_eq_none.mp h with hfree | hhead
  · rwa [rewrite_free hfree]
  · exact title_eq_none.mpr (.inr (by rw [head_rewrite, hhead]))

variable (hf : Retitles f)

include hf

/-- A title is still followed by the same mark. -/
theorem title_rewrite (s : Text) : ∀ text rest, title s = some (text, rest) →
    ∃ text' rest', title (rewrite f s) = some (text', rest') ∧ rest'.head? = rest.head? := by
  refine pieces_induction (p := fun s ↦ ∀ text rest, title s = some (text, rest) →
    ∃ text' rest', title (rewrite f s) = some (text', rest') ∧ rest'.head? = rest.head?) ?_ ?_ ?_ s
  · intro text rest h
    cases h
  · intro u s hnone ih text rest h
    rw [rewrite_text hnone]
    obtain ⟨hu, ⟨-, rfl⟩ | ⟨more, -, hmore⟩⟩ := title_cons_eq_some h
    · exact ⟨_, _, by rw [rewrite_closing, title_single hu], head_rewrite rest⟩
    · obtain ⟨text', rest', htitle, hhead⟩ := ih more rest hmore
      exact ⟨_, _, title_cons hu htitle, hhead⟩
  · intro l rest hvalid _ text rest' h
    rw [title_source l hvalid] at h
    cases h
    refine ⟨_, _, by rw [rewrite_link hvalid, title_source _ (hf.valid l hvalid)], ?_⟩
    rw [hf.display]
    cases l.display <;> simp [endingSource]

omit hf in
/-- A title that no ending follows holds no beginning of a link. -/
theorem title_rewrite_plain (s : Text) : ∀ text rest, title s = some (text, rest) →
    ending rest = none → title (rewrite f s) = some (text, rewrite f rest) := by
  refine pieces_induction (p := fun s ↦ ∀ text rest, title s = some (text, rest) →
    ending rest = none → title (rewrite f s) = some (text, rewrite f rest)) ?_ ?_ ?_ s
  · intro text rest h
    cases h
  · intro u s hnone ih text rest h hending
    rw [rewrite_text hnone]
    obtain ⟨hu, ⟨rfl, rfl⟩ | ⟨more, rfl, hmore⟩⟩ := title_cons_eq_some h
    · rw [rewrite_closing, title_single hu]
    · exact title_cons hu (ih more rest hmore hending)
  · intro l rest hvalid _ text rest' h hending
    rw [title_source l hvalid] at h
    cases h
    rw [ending_source hvalid.display] at hending
    cases hending

theorem ending_rewrite (h : ending s = none) : ending (rewrite f s) = none := by
  cases hlink : linkAt s with
  | some split =>
    obtain ⟨l, rest⟩ := split
    obtain ⟨hvalid, rfl⟩ := linkAt_eq_some hlink
    rw [ending_link hvalid] at h
    rwa [rewrite_link hvalid, ending_link (hf.valid l hvalid), hf.display]
  | none =>
    cases s with
    | nil => rfl
    | cons u s =>
      rw [rewrite_text hlink]
      by_cases hu : u = opening
      · subst hu
        rw [ending_opening_eq_none] at h ⊢
        intro text rest htitle
        cases hold : title s with
        | none => simp [title_rewrite_eq_none hold] at htitle
        | some split =>
          obtain ⟨text', rest'⟩ := split
          obtain ⟨text'', rest'', hnew, hhead⟩ := title_rewrite hf s text' rest' hold
          cases hnew.symm.trans htitle
          rw [hhead]
          exact h text' rest' hold
      · have hne : u ≠ closing := by
          rintro rfl
          simp [ending] at h
        simp [ending, hu, hne]

/-- Where no link begins, none begins in front of the rewritten text. -/
theorem linkAt_rewrite (h : linkAt (u :: s) = none) : linkAt (u :: rewrite f s) = none := by
  by_cases hu : u = opening
  · cases s with
    | nil => exact h
    | cons v s =>
      by_cases hv : v = opening
      · subst hu hv
        have hlater : linkAt (opening :: s) = none := by
          by_contra hsome
          obtain ⟨⟨l, rest⟩, hlink⟩ := ne_none_iff_exists'.mp hsome
          obtain ⟨hvalid, hs⟩ := linkAt_eq_some hlink
          -- the link would begin one bracket earlier, with the bracket in its title
          have hwider : Link.Valid ⟨opening :: l.target, l.display⟩ :=
            ⟨⟨by simp, by simp [opening_ne_closing.symm, hvalid.target.2]⟩, hvalid.display⟩
          have hsource : opening :: (opening :: s) =
              source ⟨opening :: l.target, l.display⟩ ++ rest := by
            rw [hs]
            simp [source_eq]
          rw [hsource, linkAt_source hwider] at h
          cases h
        rw [rewrite_text hlater]
        rw [linkAt_eq_none] at h ⊢
        intro text rest htitle
        cases hold : title s with
        | none => simp [title_rewrite_eq_none hold] at htitle
        | some split =>
          obtain ⟨text', rest'⟩ := split
          have hending := h text' rest' hold
          cases (title_rewrite_plain s text' rest' hold hending).symm.trans htitle
          exact ending_rewrite hf hending
      · have hhead := @head_rewrite f (v :: s)
        cases hrewrite : rewrite f (v :: s) with
        | nil => simp [hrewrite] at hhead
        | cons w t =>
          rw [hrewrite] at hhead
          cases hhead
          simp [linkAt, hv]
  · exact linkAt_of_ne hu _

/-- Rewriting rewrites the links among the pieces. -/
theorem pieces_rewrite (s : Text) : pieces (rewrite f s) = (pieces s).map (Sum.map id f) := by
  refine pieces_induction (p := fun s ↦
    pieces (rewrite f s) = (pieces s).map (Sum.map id f)) rfl ?_ ?_ s
  · intro u s hnone ih
    rw [rewrite_text hnone, pieces_text (linkAt_rewrite hf hnone), pieces_text hnone, ih]
    rfl
  · intro l rest hvalid ih
    have hnew := linkAt_source (hf.valid l hvalid) (rewrite f rest)
    rw [rewrite_link hvalid, pieces_link hnew, pieces_link (linkAt_source hvalid rest), ih]
    rfl

omit hf

/-- A link to the old title goes to the new one. -/
def Link.retitle (old new : Text) (l : Link) : Link :=
  if l.target = old then { l with target := new } else l

theorem retitles_retitle {new : Text} (hnew : Link.IsTitle new) (old : Text) :
    Retitles (retitle old new) where
  valid l h := by
    unfold retitle
    split
    · exact ⟨hnew, h.display⟩
    · exact h
  display l := by
    unfold retitle
    split <;> rfl

theorem replacement_eq (old new : Text) (l : Link) :
    replacement old new l = (retitle old new l).source := by
  unfold replacement retitle source
  by_cases hold : l.target = old
  · simp only [ne_eq, hold, not_true_eq_false, if_false, if_true]
    cases l.display <;> rfl
  · simp [hold]

theorem renamePageReferences_eq (content old new : Text) :
    renamePageReferences content old new = rewrite (retitle old new) content :=
  join_congr fun l _ ↦ replacement_eq old new l

theorem retitle_back {old new : Text} {l : Link} (h : l.target ≠ new) :
    retitle new old (retitle old new l) = l := by
  unfold retitle
  by_cases hold : l.target = old
  · subst hold
    simp
  · simp [hold, h]

/-- Renaming exchanges the old title in the links and nothing else; renaming back gives the content
again if it had no link to the new title. -/
theorem rename_rewrites_links (content old : Text) {new : Text} (hnew : Link.IsTitle new) :
    let renamed := renamePageReferences content old new
    pieces renamed = (pieces content).map (Sum.map id (Link.retitle old new)) ∧
      pageReferences renamed =
        (pageReferences content).map (fun title ↦ if title = old then new else title) ∧
      (links renamed).map Link.display = (links content).map Link.display ∧
      (new ∉ pageReferences content → renamePageReferences renamed new old = content) := by
  intro renamed
  have hpieces : pieces renamed = (pieces content).map (Sum.map id (retitle old new)) := by
    rw [show renamed = rewrite (retitle old new) content from
      renamePageReferences_eq content old new]
    exact pieces_rewrite (retitles_retitle hnew old) content
  have hlinks : links renamed = (links content).map (retitle old new) := by
    rw [links, hpieces, found_map, links]
  refine ⟨hpieces, ?_, ?_, ?_⟩
  · rw [pageReferences, hlinks, List.map_map, pageReferences, List.map_map]
    refine map_congr_left fun l _ ↦ ?_
    simp only [comp_apply, retitle]
    split <;> rfl
  · rw [hlinks, List.map_map]
    exact map_congr_left fun l _ ↦ (retitles_retitle hnew old).display l
  · intro hfree
    rw [renamePageReferences_eq, rewrite, hpieces, join_map]
    calc
      join ((source ∘ retitle new old) ∘ retitle old new) (pieces content) =
          join source (pieces content) := by
        refine join_congr fun l hl ↦ ?_
        have hne : l.target ≠ new := fun heq ↦ hfree (heq ▸ mem_map_of_mem hl)
        simp only [comp_apply, retitle_back hne]
      _ = content := join_pieces content

/-- A title with a dollar sign and a backslash, and a link with a display text. -/
theorem rename_rewrites_links_marks :
    let content : Text := [40, 91, 91, 97, 93, 91, 36, 93, 93, 91, 91, 98, 93, 93]
    let renamed := renamePageReferences content [97] [36, 92]
    pieces renamed = (pieces content).map (Sum.map id (Link.retitle [97] [36, 92])) ∧
      pageReferences renamed =
        (pageReferences content).map (fun title ↦ if title = [97] then [36, 92] else title) ∧
      (links renamed).map Link.display = (links content).map Link.display ∧
      ([36, 92] ∉ pageReferences content → renamePageReferences renamed [36, 92] [97] = content) :=
  rename_rewrites_links _ [97] (by decide)

/-- The title to which a run of renames takes a title. -/
def titleAfter (renames : List (Text × {new : Text // Link.IsTitle new})) (title : Text) : Text :=
  renames.foldl (fun title r ↦ if title = r.1 then r.2 else title) title

end Simmis.Wiki.References
