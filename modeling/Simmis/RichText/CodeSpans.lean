import Simmis.Library.Fences
import Simmis.Markdown.Patches

/-!
# Code spans of rich text

A text with the code mark is written between two runs of backticks, one longer than any run in it,
with a space on both sides where the reader would take one away. In a table cell every pipe is
escaped first.
-/

namespace Simmis.RichText

open List Fences
open Markdown (Source)

def lineFeed : UInt16 := 10
def carriageReturn : UInt16 := 13
def space : UInt16 := 32
def backslash : UInt16 := 92
def backtick : UInt16 := 96
def pipe : UInt16 := 124

/-- The marks of an inline text. -/
inductive Mark
  | bold
  | italic
  | strike
  | link (href : Source) (title : Option Source)
  | code
deriving DecidableEq

/-- A text node of the editor's model. -/
structure TextNode where
  text : Source
  marks : List Mark
deriving DecidableEq

/-- `(str/replace s #"\r\n|\r|\n" " ")` -/
def breaksToSpaces : Source → Source
  | [] => []
  | [u] => if u = carriageReturn ∨ u = lineFeed then [space] else [u]
  | u :: v :: rest =>
    if u = carriageReturn ∧ v = lineFeed then space :: breaksToSpaces rest
    else if u = carriageReturn ∨ u = lineFeed then space :: breaksToSpaces (v :: rest)
    else u :: breaksToSpaces (v :: rest)

def startsWith (s : Source) (u : UInt16) : Bool := s.head? = some u
def endsWith (s : Source) (u : UInt16) : Bool := s.getLast? = some u

/-- `(re-matches #" +" s)` -/
def allSpaces (s : Source) : Bool := s ≠ [] ∧ s.all (· = space)

/-- The reader takes a space off both sides. -/
def spaced (s : Source) : Bool := startsWith s space && endsWith s space && !allSpaces s

/-- The length of the fence around a text. -/
def fenceLength (s : Source) : ℕ := (Fences.runs backtick s).foldl max 0 + 1

def codeSpan (text : Source) : Source :=
  let s := breaksToSpaces text
  let fence := List.replicate (fenceLength s) backtick
  let padding := if startsWith s backtick || endsWith s backtick || spaced s then [space] else []
  fence ++ padding ++ s ++ padding ++ fence

/-- `(str/replace text "|" "\\|")` -/
def escapePipes (text : Source) : Source := Fences.replace [pipe] [backslash, pipe] text

/-- What `inline` writes for a text with the code mark. -/
def inlineCode (table : Bool) (text : Source) : Source :=
  codeSpan (if table then escapePipes text else text)

/-- A code span at the start of a source, and what is behind it. -/
def readSpan (source : Source) : Option (Source × Source) := Fences.between backtick source

/-- `(str/replace literal "\\|" "|")` -/
def decodeCode (literal : Source) : Source := Fences.replace [backslash, pipe] [pipe] literal

/-- `inline-model` of a `:Code` node. -/
def codeModel (literal : Source) (marks : List Mark) : List TextNode :=
  let s := breaksToSpaces literal
  let s := if spaced s then (s.drop 1).dropLast else s
  if s = [] then [] else [⟨s, marks ++ [.code]⟩]

/-- `table-inline-model` of a `:Code` node, or `inline-model` outside a table. -/
def readCode (table : Bool) (literal : Source) (marks : List Mark) : List TextNode :=
  codeModel (if table then decodeCode literal else literal) marks

variable {text s rest : Source} {u : UInt16}

theorem breaksToSpaces_of_unbroken (h : ∀ u ∈ text, u ≠ carriageReturn ∧ u ≠ lineFeed) :
    breaksToSpaces text = text := by
  fun_induction breaksToSpaces text with
  | case1 => rfl
  | case2 u hbreak => exact absurd hbreak (not_or.mpr (h u (by simp)))
  | case3 u => rfl
  | case4 u v later hbreak => exact absurd hbreak.1 (h u (by simp)).1
  | case5 u v later _ hbreak => exact absurd hbreak (not_or.mpr (h u (by simp)))
  | case6 u v later _ _ ih => rw [ih fun w hw ↦ h w (mem_cons_of_mem u hw)]

/-- No run of backticks is as long as the fence. -/
theorem fenceLength_not_mem : fenceLength s ∉ runs backtick s := by
  intro hmem
  have hlength : fenceLength s = (runs backtick s).max (ne_nil_of_mem hmem) + 1 := by
    have hmax := foldl_max_eq_max (ne_nil_of_mem hmem) (a := 0)
    rw [Nat.zero_max] at hmax
    exact congrArg (· + 1) hmax
  have hle := le_max_of_mem hmem
  omega

/-- The text between the fences. -/
def padded (s : Source) : Source :=
  if startsWith s backtick || endsWith s backtick || spaced s then space :: (s ++ [space]) else s

theorem codeSpan_append : codeSpan text ++ rest =
    List.replicate (fenceLength (breaksToSpaces text)) backtick ++ (padded (breaksToSpaces text) ++
        (List.replicate (fenceLength (breaksToSpaces text)) backtick ++ rest)) := by
  rw [codeSpan, padded]
  split <;> simp

theorem runs_padded : runs backtick (padded s) = runs backtick s := by
  rw [padded]
  split
  · rw [runs, runsFrom_of_ne (by decide)]
    exact runsFrom_concat (by decide)
  · rfl

theorem head_padded : (padded s).head? ≠ some backtick := by
  rw [padded]
  split
  · simp [space, backtick]
  · rename_i h
    simp_all [startsWith]

theorem getLast_padded : (padded s).getLast? ≠ some backtick := by
  rw [padded]
  split
  · rw [← cons_append, getLast?_concat]
    simp [space, backtick]
  · rename_i h
    simp_all [endsWith]

/-- A text that gets padding is not all spaces. -/
theorem allSpaces_of_padding (h : (startsWith s backtick || endsWith s backtick || spaced s)) :
    ∃ u ∈ s, u ≠ space := by
  rw [Bool.or_eq_true, Bool.or_eq_true] at h
  rcases h with (hstart | hend) | hspaced
  · exact ⟨backtick, mem_of_head? (of_decide_eq_true hstart), by decide⟩
  · exact ⟨backtick, mem_of_getLast? (of_decide_eq_true hend), by decide⟩
  · rw [spaced, Bool.and_eq_true, Bool.and_eq_true] at hspaced
    obtain ⟨⟨hstart, -⟩, hnot⟩ := hspaced
    have hne : s ≠ [] := ne_nil_of_mem (mem_of_head? (of_decide_eq_true hstart))
    simpa [allSpaces, hne] using hnot

/-- The reader takes off exactly the spaces that were put on. -/
theorem codeModel_padded (hne : s ≠ []) (hs : ∀ u ∈ s, u ≠ carriageReturn ∧ u ≠ lineFeed)
    (marks : List Mark) : codeModel (padded s) marks = [⟨s, marks ++ [.code]⟩] := by
  have hunbroken : breaksToSpaces (padded s) = padded s := by
    apply breaksToSpaces_of_unbroken
    rw [padded]
    split
    · intro u hu
      have hu' : u ∈ s ∨ u = space := by
        simp only [mem_cons, mem_append, not_mem_nil, or_false] at hu
        tauto
      rcases hu' with hu' | rfl
      · exact hs u hu'
      · decide
    · exact hs
  rw [codeModel, hunbroken]
  by_cases hpad : (startsWith s backtick || endsWith s backtick || spaced s)
  · obtain ⟨u, hu, huspace⟩ := allSpaces_of_padding hpad
    have hspaced : spaced (space :: (s ++ [space])) := by
      have hend : (space :: (s ++ [space])).getLast? = some space := by
        rw [← cons_append, getLast?_concat]
      have hnot : allSpaces (space :: (s ++ [space])) = false := by
        simp only [allSpaces, ne_eq, reduceCtorEq, not_false_eq_true, true_and,
          decide_eq_false_iff_not, List.all_eq_true, decide_eq_true_eq]
        exact fun hall ↦ huspace (hall u (by simp [hu]))
      simp [spaced, startsWith, endsWith, hend, hnot]
    rw [padded, if_pos hpad]
    simp [hspaced, hne]
  · have hnot : spaced s = false := by
      simp only [Bool.or_eq_true, not_or, Bool.not_eq_true] at hpad
      exact hpad.2
    rw [padded, if_neg hpad]
    simp [hnot, hne]

/-- What `codeSpan` writes is read back, whatever stands behind it. -/
theorem codeSpan_read (hne : text ≠ []) (htext : ∀ u ∈ text, u ≠ carriageReturn ∧ u ≠ lineFeed)
    (hrest : rest.head? ≠ some backtick) :
    readSpan (codeSpan text ++ rest) = some (padded text, rest) := by
  have hpadded : padded text ≠ [] := by
    rw [padded]
    split
    · simp
    · exact hne
  rw [codeSpan_append, breaksToSpaces_of_unbroken htext]
  apply between_fences _ hrest hpadded _ head_padded getLast_padded
  · exact Nat.succ_ne_zero _
  · rw [runs_padded]
    exact fenceLength_not_mem

theorem escapePipes_append (later : Source) :
    escapePipes (s ++ later) = escapePipes s ++ escapePipes later := escape_append later

theorem startsWith_escapePipes (hback : u ≠ backslash) (hpipe : u ≠ pipe) :
    startsWith (escapePipes s) u = startsWith s u :=
  decide_eq_decide.mpr (escape_head_iff hback hpipe)

theorem endsWith_escapePipes (hpipe : u ≠ pipe) : endsWith (escapePipes s) u = endsWith s u :=
  decide_eq_decide.mpr (escape_getLast_iff hpipe)

theorem allSpaces_escapePipes : allSpaces (escapePipes s) = allSpaces s := by
  have hall : (∀ u ∈ escapePipes s, u = space) ↔ ∀ u ∈ s, u = space :=
    forall_mem_escape (by decide) (by decide)
  have hnil : escapePipes s = [] ↔ s = [] := escape_eq_nil
  simp only [allSpaces, List.all_eq_true, decide_eq_true_eq, hall, ne_eq, hnil]

theorem padded_escapePipes : padded (escapePipes s) = escapePipes (padded s) := by
  have hspaced : spaced (escapePipes s) = spaced s := by
    rw [spaced, startsWith_escapePipes (by decide) (by decide), endsWith_escapePipes (by decide),
      allSpaces_escapePipes, spaced]
  rw [padded, padded, startsWith_escapePipes (by decide) (by decide),
    endsWith_escapePipes (by decide), hspaced]
  split
  · calc
      space :: (escapePipes s ++ [space]) =
          escapePipes [space] ++ (escapePipes s ++ escapePipes [space]) := rfl
      _ = escapePipes ([space] ++ (s ++ [space])) := by
        rw [escapePipes_append, escapePipes_append]
  · rfl

theorem unbroken_escapePipes (h : ∀ u ∈ s, u ≠ carriageReturn ∧ u ≠ lineFeed) :
    ∀ u ∈ escapePipes s, u ≠ carriageReturn ∧ u ≠ lineFeed := by
  intro u hu
  by_cases hback : u = backslash
  · exact hback ▸ by decide
  · exact h u ((mem_escape hback).mp hu)

/-- A span in a cell is a span whose pipes are escaped. -/
theorem codeSpan_escaped (h : ∀ u ∈ escapePipes s, u ≠ carriageReturn ∧ u ≠ lineFeed) :
    ∃ n, codeSpan (escapePipes s) =
      escapePipes (List.replicate n backtick ++ (padded s ++ List.replicate n backtick)) := by
  refine ⟨fenceLength (escapePipes s), ?_⟩
  have hfence : ∀ n, escapePipes (replicate n backtick) = replicate n backtick := fun n ↦
    escape_of_not_mem (by simp [pipe, backtick])
  rw [escapePipes_append, escapePipes_append, hfence, ← padded_escapePipes]
  have hspan : codeSpan (escapePipes s) ++ [] = _ := codeSpan_append
  rwa [append_nil, append_nil, breaksToSpaces_of_unbroken h] at hspan

/-- A text with the code mark is read back, in a table cell where no pipe stands without a
backslash. -/
theorem code_survives (table : Bool) (text rest : Source) (marks : List Mark) (hne : text ≠ [])
    (htext : ∀ u ∈ text, u ≠ carriageReturn ∧ u ≠ lineFeed) (hrest : rest.head? ≠ some backtick) :
    (∃ literal, readSpan (inlineCode table text ++ rest) = some (literal, rest) ∧
      readCode table literal marks = [⟨text, marks ++ [.code]⟩]) ∧
    (table = true → ∀ before after, inlineCode table text = before ++ pipe :: after →
      before.getLast? = some backslash) := by
  cases table with
  | false => exact ⟨⟨_, codeSpan_read hne htext hrest, codeModel_padded hne htext marks⟩, by simp⟩
  | true =>
    have hne' : escapePipes text ≠ [] := escape_eq_nil.not.mpr hne
    have htext' : ∀ u ∈ escapePipes text, u ≠ carriageReturn ∧ u ≠ lineFeed :=
      unbroken_escapePipes htext
    refine ⟨⟨_, codeSpan_read hne' htext' hrest, ?_⟩, fun _ before after h ↦ ?_⟩
    · have hdecoded : decodeCode (padded (escapePipes text)) = padded text := by
        rw [padded_escapePipes]
        exact unescape_escape (by decide)
      have hmodel := codeModel_padded hne htext marks
      rwa [← hdecoded] at hmodel
    · obtain ⟨n, hspan⟩ := codeSpan_escaped htext'
      rw [inlineCode, if_pos rfl, hspan] at h
      exact escape_guarded (by decide) h

/-- A text of backticks, pipes and spaces, in a table cell. -/
theorem code_survives_in_cell :
    (∃ literal, readSpan (inlineCode true [96, 124, 92, 124, 32] ++ [32, 124]) =
        some (literal, [32, 124]) ∧
      readCode true literal [] = [⟨[96, 124, 92, 124, 32], [.code]⟩]) ∧
    (true = true → ∀ before after,
      inlineCode true [96, 124, 92, 124, 32] = before ++ pipe :: after →
        before.getLast? = some backslash) :=
  code_survives true _ _ [] (by decide) (by simp [carriageReturn, lineFeed]) (by decide)

example : inlineCode true [96, 124, 32] = [96, 96, 32, 96, 92, 124, 32, 32, 96, 96] := by decide

end Simmis.RichText
