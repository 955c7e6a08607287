import Simmis.Library.Cuts
import Simmis.Library.Scans

/-!
# Links to pages

A link is a title between two pairs of brackets, and may carry a display text in brackets of its
own. Both are nonempty and go up to the first closing bracket. A content is scanned for links from
the left.
-/

namespace Simmis.Wiki.References

open Cuts Scans Option

/-- UTF-16 code units. -/
abbrev Text := List UInt16

def opening : UInt16 := 91
def closing : UInt16 := 93

/-- The groups of `page-reference-pattern`. -/
structure Link where
  target : Text
  display : Option Text
deriving DecidableEq

namespace Link

/-- The text that a link is written as. -/
def source (l : Link) : Text :=
  match l.display with
  | none => opening :: opening :: (l.target ++ [closing, closing])
  | some display =>
    opening :: opening :: (l.target ++ closing :: opening :: (display ++ [closing, closing]))

/-- `[^\]]+` -/
def IsTitle (title : Text) : Prop := title ≠ [] ∧ closing ∉ title

instance (title : Text) : Decidable (IsTitle title) := inferInstanceAs (Decidable (_ ∧ _))

structure Valid (l : Link) : Prop where
  target : IsTitle l.target
  display : ∀ display, l.display = some display → IsTitle display

end Link

/-- `([^\]]+)\]` -/
def title (s : Text) : Option (Text × Text) := (cut closing s).filter fun split ↦ split.1 ≠ []

/-- `(?:\[([^\]]+)\])?\]`: what follows the title of a link. -/
def ending : Text → Option (Option Text × Text)
  | u :: s =>
    if u = closing then some (none, s)
    else if u = opening then
      match title s with
      | some (display, v :: rest) => if v = closing then some (some display, rest) else none
      | _ => none
    else none
  | [] => none

/-- `page-reference-pattern` at the front of a text. -/
def linkAt : Text → Option (Link × Text)
  | u :: v :: s =>
    if u = opening ∧ v = opening then do
      let (target, s) ← title s
      let (display, rest) ← ending s
      return (⟨target, display⟩, rest)
    else none
  | _ => none

theorem linkAt_of_ne {u : UInt16} (hu : u ≠ opening) (s : Text) : linkAt (u :: s) = none := by
  cases s <;> simp [linkAt, hu]

def pieces (content : Text) : List (UInt16 ⊕ Link) :=
  Scans.pieces (fun _ ↦ linkAt) false false content

variable (content : Text)

/-- `(re-seq page-reference-pattern content)` -/
def links : List Link := found (pieces content)

/-- The titles of the links, in order. -/
def pageReferences : List Text := (links content).map Link.target

/-- `extract-page-references`, the set without its order. -/
def extractPageReferences : List Text := (pageReferences content).eraseDups

/-- What `rename-page-references` writes for a match. -/
def replacement (old new : Text) (l : Link) : Text :=
  if l.target ≠ old then l.source
  else match l.display with
    | some display =>
      opening :: opening :: (new ++ closing :: opening :: (display ++ [closing, closing]))
    | none => opening :: opening :: (new ++ [closing, closing])

/-- `rename-page-references` -/
def renamePageReferences (content old new : Text) : Text :=
  join (replacement old new) (pieces content)

variable {rest s : Text}

theorem title_eq_some {text : Text} :
    title s = some (text, rest) ↔ Link.IsTitle text ∧ s = text ++ closing :: rest := by
  rw [title, filter_eq_some_iff, cut_eq_some]
  simp only [Link.IsTitle, decide_eq_true_eq, ne_eq]
  tauto

theorem title_eq_none : title s = none ↔ closing ∉ s ∨ s.head? = some closing := by
  rw [title, filter_eq_none_iff]
  constructor
  · intro h
    by_cases hmem : closing ∈ s
    · obtain ⟨before, after, rfl, hbefore⟩ := List.eq_append_cons_of_mem hmem
      have hempty := h _ (cut_mark hbefore)
      simp only [ne_eq, decide_not, Bool.not_eq_true', decide_eq_false_iff_not, not_not] at hempty
      exact .inr (by simp [hempty])
    · exact .inl hmem
  · rintro (hnone | hhead) ⟨before, after⟩ hcut
    · obtain ⟨-, rfl⟩ := cut_eq_some.mp hcut
      exact absurd (by simp) hnone
    · obtain ⟨hbefore, rfl⟩ := cut_eq_some.mp hcut
      cases before with
      | nil => simp
      | cons u before =>
        cases hhead
        exact absurd (by simp) hbefore

/-- What an ending is written as. -/
def endingSource : Option Text → Text
  | none => [closing]
  | some display => opening :: (display ++ [closing, closing])

theorem Link.source_eq (l : Link) :
    l.source = opening :: opening :: (l.target ++ closing :: endingSource l.display) := by
  unfold source endingSource
  cases l.display <;> simp

theorem opening_ne_closing : opening ≠ closing := by decide

theorem ending_source {display : Option Text}
    (h : ∀ text, display = some text → Link.IsTitle text) (rest : Text) :
    ending (endingSource display ++ rest) = some (display, rest) := by
  cases display with
  | none => simp [endingSource, ending]
  | some display =>
    have htitle : title (display ++ closing :: closing :: rest) =
        some (display, closing :: rest) := title_eq_some.mpr ⟨h display rfl, rfl⟩
    simp [endingSource, ending, opening_ne_closing, htitle]

theorem ending_eq_some {display : Option Text} (h : ending s = some (display, rest)) :
    (∀ text, display = some text → Link.IsTitle text) ∧ s = endingSource display ++ rest := by
  unfold ending at h
  split at h
  · next u s =>
    split at h
    · next hu =>
      cases h
      simp [endingSource, hu]
    · split at h
      · next hu =>
        split at h
        · next display' v rest' htitle =>
          split at h
          · next hv =>
            cases h
            obtain ⟨hdisplay, rfl⟩ := title_eq_some.mp htitle
            refine ⟨?_, by simp [endingSource, hu, hv]⟩
            rintro _ ⟨⟩
            exact hdisplay
          · cases h
        · cases h
      · cases h
  · cases h

variable {l : Link}

theorem linkAt_source (h : l.Valid) (rest : Text) : linkAt (l.source ++ rest) = some (l, rest) := by
  have htitle : title (l.target ++ closing :: (endingSource l.display ++ rest)) =
      some (l.target, endingSource l.display ++ rest) := title_eq_some.mpr ⟨h.target, rfl⟩
  simp [Link.source_eq, linkAt, htitle, ending_source h.display]

theorem linkAt_eq_some (h : linkAt s = some (l, rest)) : l.Valid ∧ s = l.source ++ rest := by
  unfold linkAt at h
  split at h
  · next u v s =>
    split at h
    · next huv =>
      simp only [bind_eq_bind, bind_eq_some_iff] at h
      obtain ⟨⟨target, s'⟩, htitle, ⟨display, rest'⟩, hending, h⟩ := h
      cases h
      obtain ⟨htarget, rfl⟩ := title_eq_some.mp htitle
      obtain ⟨hdisplay, rfl⟩ := ending_eq_some hending
      refine ⟨⟨htarget, hdisplay⟩, ?_⟩
      simp [Link.source_eq, huv.1, huv.2]
    · cases h
  · cases h

theorem reads_linkAt : Reads (fun _ ↦ linkAt) Link.source where
  spells := fun _ _ _ _ h ↦ (linkAt_eq_some h).2
  nonempty := fun _ _ l _ _ ↦ by simp [Link.source_eq]

/-- A content is its links and the text between them. -/
theorem join_pieces : join Link.source (pieces content) = content :=
  reads_linkAt.join_pieces false content

@[simp] theorem pieces_nil : pieces [] = [] := rfl

theorem pieces_text {u : UInt16} (h : linkAt (u :: s) = none) :
    pieces (u :: s) = .inl u :: pieces s := reads_linkAt.pieces_text h

theorem pieces_link (h : linkAt s = some (l, rest)) :
    pieces s = .inr l :: pieces rest := reads_linkAt.pieces_match h

/-- The scan of a content, piece by piece. -/
theorem pieces_induction {p : Text → Prop} (hnil : p [])
    (htext : ∀ u s, linkAt (u :: s) = none → p s → p (u :: s))
    (hlink : ∀ (l : Link) (rest : Text), l.Valid → p rest → p (l.source ++ rest))
    (content : Text) : p content := by
  refine reads_linkAt.induction false (p := fun _ s ↦ p s) (fun _ ↦ hnil)
    (fun _ ↦ htext) ?_ false content
  intro _ s l rest hmatch hrest
  obtain ⟨hvalid, rfl⟩ := linkAt_eq_some hmatch
  exact hlink l rest hvalid hrest

/-- Every link that is found is one that can be written. -/
theorem valid_of_mem : ∀ l ∈ links content, l.Valid := by
  refine pieces_induction (p := fun content ↦ ∀ l ∈ links content, l.Valid) ?_ ?_ ?_ content
  · simp [links]
  · intro u s hnone ih
    rwa [links, pieces_text hnone, found_text]
  · intro l rest hvalid ih
    rw [links, pieces_link (linkAt_source hvalid rest), found_match]
    exact List.forall_mem_cons.mpr ⟨hvalid, ih⟩

end Simmis.Wiki.References
