import Mathlib.Data.List.Infix
import Mathlib.Data.List.Nodup
import Simmis.Wiki.References

/-!
# Backfilling the links to a new page

When a page is created, every block whose content has the title between two pairs of brackets gets a
reference to the page. It misses a link with a display text, and takes a link to another page that
has the marker in its title or its display text for a link to this one.
-/

namespace Simmis.Wiki.References

open List Option Cuts Scans

/-- A block, its content nothing where it has none or one that is no string. -/
structure Block (E U : Type) where
  eid : E
  content : Option Text
  references : List U

structure Db (E U : Type) where
  blocks : List (Block E U)
  nodup : (blocks.map Block.eid).Nodup

/-- `(str "[[" page-title "]]")` -/
def marker (title : Text) : Text := opening :: opening :: (title ++ [closing, closing])

variable {E U : Type}

/-- `backfill-tx-for-page`, the entities with the page that each is to refer to. -/
def backfillTxForPage (db : Db E U) (page : Option U) (title : Option Text) : List (E × U) :=
  match page, title with
  | some page, some title =>
    (db.blocks.filter fun block ↦ block.content.any fun content ↦ marker title <:+: content).map
      fun block ↦ (block.eid, page)
  | _, _ => []

variable [DecidableEq E] [DecidableEq U]

/-- The references of a block after a transaction: those that it has stay as they are. -/
def Block.transact (block : Block E U) (tx : List (E × U)) : List U :=
  (tx.filter (·.1 = block.eid)).foldl
    (fun references add ↦ if add.2 ∈ references then references else references ++ [add.2])
    block.references

/-- The links of a block. -/
def Block.links (block : Block E U) : List Link := (block.content.map References.links).getD []

theorem marker_eq (title : Text) : marker title = Link.source ⟨title, none⟩ := rfl

/-- A link ends with two closing brackets. -/
theorem source_ends (l : Link) : ∃ init, l.source = init ++ [closing, closing] := by
  unfold Link.source
  cases l.display with
  | none => exact ⟨opening :: opening :: l.target, by simp⟩
  | some display =>
    exact ⟨opening :: opening :: (l.target ++ closing :: opening :: display), by simp⟩

theorem cut_marker {title : Text} (h : Link.IsTitle title) :
    cut closing (marker title) = some (opening :: opening :: title, [closing]) :=
  cut_eq_some.mpr ⟨by simp [opening_ne_closing.symm, h.2], by simp [marker]⟩

/-- The end of a link is no proper part of a marker. -/
theorem marker_whole {title init before inner later : Text} (htitle : Link.IsTitle title)
    (hmarker : marker title = inner ++ later) (hends : init ++ [closing, closing] = before ++ inner)
    (hinner : inner ≠ []) : later = [] := by
  rcases append_eq_append_iff.mp hends with ⟨more, -, hmore⟩ | ⟨more, -, rfl⟩
  · have hhead : inner.head? = some closing := by
      match more, hmore with
      | [], hmore =>
        rw [nil_append] at hmore
        rw [← hmore, head?_cons]
      | [u], hmore =>
        have hlast : [closing] = inner := (cons.inj hmore).2
        simp [← hlast]
      | u :: v :: more, hmore =>
        have hempty : [] = more ++ inner := (cons.inj (cons.inj hmore).2).2
        exact absurd (append_eq_nil_iff.mp hempty.symm).2 hinner
    have hopening := congrArg head? hmarker
    rw [head?_append_of_ne_nil _ hinner, hhead] at hopening
    cases hopening
  · have hcut := cut_marker htitle
    rw [hmarker, append_assoc, cons_append, singleton_append] at hcut
    cases hmore : cut closing more with
    | none =>
      rw [cut_mark (cut_eq_none.mp hmore)] at hcut
      simpa using congrArg (fun split ↦ split.map fun pair ↦ pair.2.tail) hcut
    | some split =>
      rw [cut_append hmore] at hcut
      have hlength := congrArg (fun split ↦ split.map fun pair ↦ pair.2.length) hcut
      simp only [map_some, length_append, length_cons, length_nil, some.injEq] at hlength
      omega

/-- A marker does not begin inside a link and end behind it. -/
theorem marker_in_source {title : Text} (htitle : Link.IsTitle title) {l : Link} {rest : Text}
    (h : marker title <:+: l.source ++ rest) :
    marker title <:+: l.source ∨ marker title <:+: rest := by
  obtain ⟨before, after, hsplit⟩ := h
  rw [append_assoc] at hsplit
  rcases append_eq_append_iff.mp hsplit with ⟨inner, hsource, hmarker⟩ | ⟨inner, -, hrest⟩
  · rcases append_eq_append_iff.mp hmarker with ⟨later, hinner, -⟩ | ⟨later, hinner, hrest⟩
    · exact .inl ⟨before, later, by rw [hsource, hinner, append_assoc]⟩
    · obtain ⟨init, hends⟩ := source_ends l
      by_cases hempty : inner = []
      · exact .inr ⟨[], after, by rw [hrest, hinner, hempty, nil_append, nil_append]⟩
      · have hlater := marker_whole htitle hinner (hends.symm.trans hsource) hempty
        exact .inl ⟨before, [], by rw [hsource, hinner, hlater, append_nil, append_nil]⟩
  · exact .inr ⟨inner, after, by rw [append_assoc]; exact hrest.symm⟩

/-- A marker stands in the text of a link. -/
theorem marker_iff {title : Text} (htitle : Link.IsTitle title) (content : Text) :
    marker title <:+: content ↔ ∃ l ∈ links content, marker title <:+: l.source := by
  refine pieces_induction (p := fun content ↦ marker title <:+: content ↔
    ∃ l ∈ links content, marker title <:+: l.source) ?_ ?_ ?_ content
  · simp [links, marker]
  · intro u s hnone ih
    have hlinks : links (u :: s) = links s := by rw [links, pieces_text hnone, found_text, links]
    rw [hlinks, ← ih, infix_cons_iff, or_iff_right]
    rintro ⟨after, hafter⟩
    have hvalid : Link.Valid ⟨title, none⟩ := ⟨htitle, by rintro _ ⟨⟩⟩
    rw [← hafter, marker_eq, linkAt_source hvalid] at hnone
    cases hnone
  · intro l rest hvalid ih
    have hlinks : links (l.source ++ rest) = l :: links rest := by
      rw [links, pieces_link (linkAt_source hvalid rest), found_match, links]
    rw [hlinks, exists_mem_cons_iff, ← ih]
    constructor
    · exact marker_in_source htitle
    · rintro (h | h)
      · exact h.trans (prefix_append _ _).isInfix
      · exact h.trans (suffix_append _ _).isInfix

variable {db : Db E U} {page : U} {title : Text}

omit [DecidableEq E] [DecidableEq U] in
theorem mem_backfill {block : Block E U} (hblock : block ∈ db.blocks) :
    (block.eid, page) ∈ backfillTxForPage db (some page) (some title) ↔
      ∃ content, block.content = some content ∧ marker title <:+: content := by
  simp only [backfillTxForPage, List.mem_map, List.mem_filter, Option.any_eq_true,
    decide_eq_true_eq, Prod.mk.injEq, and_true]
  constructor
  · rintro ⟨block', ⟨hmem, hmarker⟩, heid⟩
    rwa [← List.inj_on_of_nodup_map db.nodup hmem hblock heid]
  · intro hmarker
    exact ⟨block, ⟨hblock, hmarker⟩, rfl⟩

theorem mem_transact {block : Block E U} {tx : List (E × U)} {target : U} :
    target ∈ block.transact tx ↔ target ∈ block.references ∨ (block.eid, target) ∈ tx := by
  have hfold : ∀ (adds : List (E × U)) (references : List U), target ∈ adds.foldl
      (fun references add ↦
        if add.2 ∈ references then references else references ++ [add.2]) references ↔
        target ∈ references ∨ target ∈ adds.map (·.2) := by
    intro adds
    induction adds with
    | nil => simp
    | cons add adds ih =>
      intro references
      rw [foldl_cons, ih, map_cons, mem_cons]
      split <;> grind
  rw [Block.transact, hfold]
  simp only [List.mem_map, mem_filter, decide_eq_true_eq]
  grind

/-- Every link to the title carries a display text, and no link holds the marker. -/
def DisplayedOnly (title content : Text) : Prop :=
  (∃ l ∈ links content, l.target = title) ∧ ∀ l ∈ links content, ¬ marker title <:+: l.source

/-- No link goes to the title, and the marker stands in another link. -/
def HeldOnly (title content : Text) : Prop :=
  (∀ l ∈ links content, l.target ≠ title) ∧ ∃ l ∈ links content, marker title <:+: l.source

/-- The search for the marker finds the links to the title. -/
def Found (title content : Text) : Prop :=
  if Link.IsTitle title then ¬ DisplayedOnly title content ∧ ¬ HeldOnly title content
  else ¬ marker title <:+: content

theorem found_iff (title content : Text) : Found title content ↔
    (marker title <:+: content ↔ title ∈ extractPageReferences content) := by
  have hextract : title ∈ extractPageReferences content ↔
      ∃ l ∈ links content, l.target = title := by
    simp [extractPageReferences, pageReferences]
  rw [hextract]
  unfold Found
  split
  · next htitle =>
    rw [marker_iff htitle]
    unfold DisplayedOnly HeldOnly
    grind
  · next htitle =>
    have hnone : ¬ ∃ l ∈ links content, l.target = title := by
      rintro ⟨l, hl, rfl⟩
      exact htitle (valid_of_mem content l hl).target
    simp [hnone]

/-- Creating the page refers to it from exactly the blocks that link to its title, if and only if
the search finds their links. -/
theorem backfill_iff (db : Db E U) (page : U) (title : Text) : (∀ block ∈ db.blocks,
      (page ∉ block.references ∧
          page ∈ block.transact (backfillTxForPage db (some page) (some title)) ↔
        page ∉ block.references ∧
          ∃ content, block.content = some content ∧ title ∈ extractPageReferences content)) ↔
    ∀ block ∈ db.blocks, page ∉ block.references →
      ∀ content, block.content = some content → Found title content := by
  refine forall₂_congr fun block hblock ↦ ?_
  rw [mem_transact, mem_backfill hblock]
  constructor
  · intro h hfree content hcontent
    rw [found_iff]
    simpa [hfree, hcontent] using h
  · intro h
    refine and_congr_right fun hfree ↦ ?_
    rw [or_iff_right hfree]
    refine exists_congr fun content ↦ and_congr_right fun hcontent ↦ ?_
    exact (found_iff title content).mp (h hfree content hcontent)

/-- The block `[[Bar][b]]` gets no reference to the page `Bar`. -/
theorem displayed_not_backfilled : let bar : Text := [66, 97, 114]
    let block : Block ℕ ℕ := ⟨1, some [91, 91, 66, 97, 114, 93, 91, 98, 93, 93], []⟩
    bar ∈ extractPageReferences [91, 91, 66, 97, 114, 93, 91, 98, 93, 93] ∧
      7 ∉ block.transact (backfillTxForPage ⟨[block], by simp⟩ (some 7) (some bar)) := by
  decide

end Simmis.Wiki.References
