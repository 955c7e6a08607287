import Simmis.Library.CodeUnits
import Simmis.Library.Lists
import Simmis.Wiki.References

/-!
# Tokens of a content

A content is split for display into text, links and mentions. The tokenizer and the extractors read
the same links. A mention inside a link is read by the extractor alone.
-/

namespace Simmis.Wiki.References

open Scans CodeUnits List Nat Function

/-- `@` -/
def sign : UInt16 := 64

variable (u : UInt16)

def isHigh : Bool := 0xD800 ≤ u ∧ u ≤ 0xDBFF
def isLow (u : UInt16) : Bool := 0xDC00 ≤ u ∧ u ≤ 0xDFFF

/-- A supplementary character begins with the unit. -/
def pairAhead (s : Text) : Bool := isHigh u && s.head?.any isLow

/-- `[A-Za-z]` -/
def isLetter : Bool := 65 ≤ u ∧ u ≤ 90 ∨ 97 ≤ u ∧ u ≤ 122

/-- `\w` -/
def isWord : Bool := isLetter u ∨ 48 ≤ u ∧ u ≤ 57 ∨ u = 95

/-- `[A-Za-z\u0080-\uFFFF]`, of a character that is not supplementary. -/
def startsHandle : Bool := isLetter u ∨ 0x80 ≤ u

/-- `[A-Za-z0-9_.\-\u0080-\uFFFF]`, of a character that is not supplementary. -/
def isHandle : Bool := isWord u ∨ u = 46 ∨ u = 45 ∨ 0x80 ≤ u

/-- The longest run of handle characters, and what is behind it. -/
def handleRun : Text → Text × Text
  | [] => ([], [])
  | u :: s =>
    if isHandle u && !pairAhead u s then (u :: (handleRun s).1, (handleRun s).2) else ([], u :: s)

def handleAt : Text → Option (Text × Text)
  | u :: s =>
    if startsHandle u && !pairAhead u s then some (u :: (handleRun s).1, (handleRun s).2) else none
  | [] => none

/-- `[^\w@]`, where something is left behind it. -/
def leadAt : Text → Option (Text × Text)
  | u :: v :: s =>
    if isHigh u && isLow v then some ([u, v], s)
    else if isWord u || u = sign then none
    else some ([u], v :: s)
  | _ => none

/-- A match of `user-mention-pattern`: the leading character, if any, and the handle. -/
structure Mention where
  lead : Text
  handle : Text
deriving DecidableEq

def Mention.source (m : Mention) : Text := m.lead ++ sign :: m.handle

variable (start : Bool)

/-- `user-mention-pattern` at the front, which may be the start of the input. -/
def mentionAt (s : Text) : Option (Mention × Text) :=
  match if start && s.head? = some sign then some ([], s) else leadAt s with
  | some (lead, u :: s) =>
    if u = sign then (handleAt s).map fun split ↦ (⟨lead, split.1⟩, split.2) else none
  | _ => none

variable (content : Text)

/-- The handles that `user-mention-pattern` matches, in order. -/
def handles : List Text := (found (Scans.pieces mentionAt false start content)).map Mention.handle

/-- `extract-user-mentions`, the set without its order. -/
def extractUserMentions : List Text :=
  ((handles true content).filter fun handle ↦ !isBlank handle).eraseDups

/-- `block-reference-pattern` at the front of a text. -/
def blockAt : Text → Option (Text × Text)
  | 40 :: 40 :: s =>
    if isUuid (s.take 36) && (s.drop 36).take 2 = [41, 41] then some (s.take 36, s.drop 38)
    else none
  | _ => none

/-- `extract-block-references`, the set without its order. -/
def extractBlockReferences : List Text :=
  (found (Scans.pieces (fun _ ↦ blockAt) false false content)).eraseDups

/-! ## Tokens -/

inductive Token
  | text (value : Text)
  | page (name display : Text)
  | ref (uri display : Text)
  | mention (handle : Text)
deriving DecidableEq

/-- A match of `combined-reference-pattern`. -/
inductive Reference
  | link (l : Link)
  | mention (m : Mention)

def Reference.source : Reference → Text
  | link l => l.source
  | mention m => m.source

/-- `combined-reference-pattern` at the front of a text. -/
def referenceAt (s : Text) : Option (Reference × Text) :=
  match linkAt s with
  | some (l, rest) => some (.link l, rest)
  | none => (mentionAt start s).map fun split ↦ (.mention split.1, split.2)

/-- `re-find` of the pattern: what stands before the match, and what is behind it. -/
def find : Bool → Text → Option (Text × Reference × Text)
  | _, [] => none
  | start, u :: s =>
    match referenceAt start (u :: s) with
    | some (reference, rest) => some ([], reference, rest)
    | none => (find false s).map fun split ↦ (u :: split.1, split.2)

/-- `str/index-of` -/
def indexOf (whole : Text) : Text → Option ℕ
  | [] => if whole = [] then some 0 else none
  | u :: s => if whole.isPrefixOf (u :: s) then some 0 else (indexOf whole s).map (· + 1)

/-- `(str/starts-with? target "dh://")` -/
def isUri (target : Text) : Bool := [100, 104, 58, 47, 47].isPrefixOf target

/-- The leading unit that the tokenizer gives back as text. -/
def Reference.lead : Reference → Text
  | link _ => []
  | mention m => if m.source.head? = some sign then [] else m.source.take 1

def Reference.token : Reference → Token
  | link l =>
    if isUri l.target then .ref l.target (l.display.getD l.target)
    else .page l.target (l.display.getD l.target)
  | mention m => .mention m.handle

/-- The loop of `tokenize-references`, with the fuel that bounds its passes. -/
def tokenizeFrom : ℕ → Text → List Token
  | 0, _ => []
  | fuel + 1, s =>
    if s = [] then []
    else match find true s with
      | none => [.text s]
      | some (_, reference, _) =>
        let whole := reference.source
        let index := (indexOf whole s).getD 0
        let before := s.take index ++ reference.lead
        let after := s.drop (index + whole.length)
        (if before = [] then [] else [.text before]) ++ reference.token :: tokenizeFrom fuel after

/-- `tokenize-references` of a string. -/
def tokenizeReferences : List Token := tokenizeFrom content.length content

/-- A text that the token stands for. -/
def Writes : Token → Text → Prop
  | .text value, s => s = value
  | .page target display, s | .ref target display, s =>
    s = Link.source ⟨target, some display⟩ ∨ display = target ∧ s = Link.source ⟨target, none⟩
  | .mention handle, s => s = sign :: handle

def pageNames (tokens : List Token) : List Text :=
  tokens.filterMap fun
    | .page name _ => some name
    | _ => none

def uris (tokens : List Token) : List Text :=
  tokens.filterMap fun
    | .ref uri _ => some uri
    | _ => none

def mentions (tokens : List Token) : List Text :=
  tokens.filterMap fun
    | .mention handle => some handle
    | _ => none

/-! ## What is matched -/

theorem handleRun_spells (s : Text) : (handleRun s).1 ++ (handleRun s).2 = s := by
  induction s with
  | nil => rfl
  | cons u s ih =>
    unfold handleRun
    split
    · rw [cons_append, ih]
    · rfl

variable {rest : Text} {s : Text}

variable {handle : Text}

theorem handleAt_spells (h : handleAt s = some (handle, rest)) : s = handle ++ rest := by
  unfold handleAt at h
  split at h
  · split at h
    · cases h
      rw [cons_append, handleRun_spells]
    · cases h
  · cases h

/-- A leading character is one unit or a pair of surrogates, and no sign. -/
theorem leadAt_eq_some {lead : Text} (h : leadAt s = some (lead, rest)) :
    s = lead ++ rest ∧ ((∃ u, lead = [u] ∧ isWord u = false ∧ u ≠ sign) ∨
      ∃ u v, lead = [u, v] ∧ isHigh u ∧ isLow v) := by
  unfold leadAt at h
  split at h
  · next u v s =>
    split at h
    · next hpair =>
      cases h
      rw [Bool.and_eq_true] at hpair
      exact ⟨rfl, .inr ⟨u, v, rfl, hpair⟩⟩
    · split at h
      · cases h
      · next hplain =>
        cases h
        simp only [Bool.or_eq_true, decide_eq_true_eq, not_or, Bool.not_eq_true] at hplain
        exact ⟨rfl, .inl ⟨u, rfl, hplain⟩⟩
  · cases h

variable {m : Mention}

/-- A mention is a sign with a handle; nothing leads it at the start. -/
theorem mentionAt_eq_some {start : Bool} (h : mentionAt start s = some (m, rest)) :
    s = m.source ++ rest ∧ handleAt (m.handle ++ rest) = some (m.handle, rest) ∧
      (start ∧ m.lead = [] ∨
        leadAt (m.lead ++ sign :: (m.handle ++ rest)) =
          some (m.lead, sign :: (m.handle ++ rest))) := by
  unfold mentionAt at h
  split at h
  · next lead u s' hlead =>
    split at h
    · next hu =>
      obtain ⟨⟨handle, rest'⟩, hhandle, heq⟩ := Option.map_eq_some_iff.mp h
      cases heq
      have hs' := handleAt_spells hhandle
      subst hu hs'
      split at hlead
      · next hstart =>
        cases hlead
        rw [Bool.and_eq_true] at hstart
        exact ⟨rfl, hhandle, .inl ⟨hstart.1, rfl⟩⟩
      · have hs := (leadAt_eq_some hlead).1
        refine ⟨by simpa [Mention.source] using hs, hhandle, .inr ?_⟩
        rwa [← hs]
    · cases h
  · cases h

theorem reads_mentionAt : Reads mentionAt Mention.source where
  spells := fun _ _ _ _ h ↦ (mentionAt_eq_some h).1
  nonempty := fun _ _ m _ _ ↦ by simp [Mention.source]

theorem referenceAt_eq_none {start : Bool} :
    referenceAt start s = none ↔ linkAt s = none ∧ mentionAt start s = none := by
  unfold referenceAt
  cases linkAt s <;> simp

variable {l : Link}

theorem referenceAt_link {start : Bool}
    (h : referenceAt start s = some (.link l, rest)) : linkAt s = some (l, rest) := by
  unfold referenceAt at h
  cases hlink : linkAt s with
  | none => simp [hlink] at h
  | some split =>
    rw [hlink] at h
    cases h
    rfl

theorem referenceAt_mention {start : Bool} (h : referenceAt start s = some (.mention m, rest)) :
    linkAt s = none ∧ mentionAt start s = some (m, rest) := by
  unfold referenceAt at h
  cases hlink : linkAt s with
  | none =>
    rw [hlink] at h
    obtain ⟨⟨m', rest'⟩, hmention, heq⟩ := Option.map_eq_some_iff.mp h
    cases heq
    exact ⟨rfl, hmention⟩
  | some split => simp [hlink] at h

theorem reads_referenceAt : Reads referenceAt Reference.source where
  spells := fun start s reference rest h ↦ by
    cases reference with
    | link l => exact (linkAt_eq_some (referenceAt_link h)).2
    | mention m => exact (mentionAt_eq_some (referenceAt_mention h).2).1
  nonempty := fun _ _ reference _ _ ↦ by
    cases reference <;> simp [Reference.source, Link.source_eq, Mention.source]

/-! ## The search -/

theorem find_eq_none {start : Bool} (h : find start s = none) (k : ℕ) :
    referenceAt (start && k = 0) (s.drop k) = none := by
  induction s generalizing start k with
  | nil => simp [referenceAt, linkAt, mentionAt, leadAt]
  | cons u s ih =>
    unfold find at h
    cases hat : referenceAt start (u :: s) with
    | some split => simp [hat] at h
    | none =>
      rw [hat, Option.map_eq_none_iff] at h
      cases k with
      | zero => simpa using hat
      | succ k => simpa using ih h k

variable {before : Text} {reference : Reference}

/-- The first match is where the search says, and there is none in front of it. -/
theorem find_eq_some {start : Bool} (h : find start s = some (before, reference, rest)) :
    s = before ++ (reference.source ++ rest) ∧
      referenceAt (start && before.length = 0) (reference.source ++ rest) = some (reference, rest) ∧
      ∀ k < before.length, referenceAt (start && k = 0) (s.drop k) = none := by
  induction s generalizing start before with
  | nil => cases h
  | cons u s ih =>
    unfold find at h
    cases hat : referenceAt start (u :: s) with
    | some split =>
      rw [hat] at h
      cases h
      have hs := reads_referenceAt.spells _ _ _ _ hat
      rw [← hs]
      simpa using hat
    | none =>
      rw [hat] at h
      obtain ⟨⟨before', split⟩, hlater, heq⟩ := Option.map_eq_some_iff.mp h
      cases heq
      obtain ⟨hs, hmatch, hnone⟩ := ih hlater
      refine ⟨by rw [hs]; rfl, by simpa using hmatch, ?_⟩
      intro k hk
      cases k with
      | zero => simpa using hat
      | succ k => simpa using hnone k (by simpa using hk)

variable {n : ℕ}

/-- The first place of a text that stands somewhere. -/
theorem indexOf_of_prefix {whole : Text} (h : whole <+: s.drop n) :
    ∃ i ≤ n, indexOf whole s = some i ∧ whole <+: s.drop i := by
  induction s generalizing n with
  | nil =>
    have hwhole : whole = [] := by simpa using h
    exact ⟨0, zero_le n, by simp [indexOf, hwhole], by simp [hwhole]⟩
  | cons u s ih =>
    by_cases hhere : whole <+: u :: s
    · exact ⟨0, zero_le n, by simp [indexOf, hhere], hhere⟩
    · cases n with
      | zero => exact absurd h hhere
      | succ n =>
        obtain ⟨i, hi, hindex, hplace⟩ := ih (by simpa using h)
        exact ⟨i + 1, succ_le_succ hi, by simp [indexOf, hhere, hindex], by simpa using hplace⟩

/-- What the loop goes on with is shorter, and behind the first place of the match. -/
theorem find_index {start : Bool} (h : find start s = some (before, reference, rest)) :
    ∃ index ≤ before.length, indexOf reference.source s = some index ∧
      s = s.take index ++ (reference.source ++ s.drop (index + reference.source.length)) ∧
      (s.drop (index + reference.source.length)).length < s.length := by
  obtain ⟨hs, hmatch, -⟩ := find_eq_some h
  have hplace : reference.source <+: s.drop before.length := by
    rw [hs, drop_left]
    exact prefix_append _ _
  obtain ⟨index, hle, hindex, after, hafter⟩ := indexOf_of_prefix hplace
  have hdrop : s.drop (index + reference.source.length) = after := by
    rw [← drop_drop, ← hafter, drop_left]
  have hpos := length_pos_iff.mpr (reads_referenceAt.nonempty _ _ _ _ hmatch)
  have hsplit : s = s.take index ++ (reference.source ++ after) := by
    rw [hafter, take_append_drop]
  refine ⟨index, hle, hindex, by rw [hdrop]; exact hsplit, ?_⟩
  have hlength := congrArg length hsplit
  rw [length_append, length_append] at hlength
  rw [hdrop]
  omega

/-- No supplementary character stands directly in front of a sign. -/
def Narrow (s : Text) : Prop :=
  ∀ before u v after, s = before ++ u :: v :: sign :: after → ¬ (isHigh u ∧ isLow v)

theorem Narrow.suffix (h : Narrow (before ++ s)) : Narrow s := by
  rintro before' u v after rfl
  exact h (before ++ before') u v after (by simp)

theorem writes_link (l : Link) : Writes (Reference.link l).token l.source := by
  obtain ⟨target, display⟩ := l
  cases display <;> by_cases huri : isUri target <;> simp [Reference.token, huri, Writes]

/-- A match is its leading unit and what its token stands for. -/
theorem writes_token {start : Bool} (hnarrow : Narrow s)
    (h : find start s = some (before, reference, rest)) :
    ∃ text, Writes reference.token text ∧ reference.source = reference.lead ++ text := by
  obtain ⟨hs, hmatch, -⟩ := find_eq_some h
  cases reference with
  | link l =>
    exact ⟨l.source, writes_link l, rfl⟩
  | mention m =>
    refine ⟨sign :: m.handle, rfl, ?_⟩
    obtain ⟨-, -, ⟨-, hlead⟩ | hlead⟩ := mentionAt_eq_some (referenceAt_mention hmatch).2
    · simp [Reference.source, Reference.lead, Mention.source, hlead]
    · obtain ⟨-, ⟨u, hu, -, hsign⟩ | ⟨u, v, huv, hpair⟩⟩ := leadAt_eq_some hlead
      · simp [Reference.source, Reference.lead, Mention.source, hu, hsign]
      · refine absurd hpair (hnarrow before u v (m.handle ++ rest) ?_)
        rw [hs]
        simp [Reference.source, Mention.source, huv]

variable {fuel : ℕ}

theorem tokenizeFrom_writes (hfuel : s.length ≤ fuel) (hnarrow : Narrow s) :
    ∃ texts, List.Forall₂ Writes (tokenizeFrom fuel s) texts ∧ texts.flatten = s := by
  induction fuel generalizing s with
  | zero =>
    have hs : s = [] := length_eq_zero_iff.mp (le_zero.mp hfuel)
    exact ⟨[], .nil, by simp [hs]⟩
  | succ fuel ih =>
    unfold tokenizeFrom
    by_cases hs : s = []
    · rw [if_pos hs]
      exact ⟨[], .nil, by simp [hs]⟩
    rw [if_neg hs]
    cases hfind : find true s with
    | none => exact ⟨[s], .cons rfl .nil, by simp⟩
    | some split =>
      obtain ⟨before, reference, rest⟩ := split
      obtain ⟨index, -, hindex, hsplit, hshorter⟩ := find_index hfind
      obtain ⟨text, htext, hsource⟩ := writes_token hnarrow hfind
      have hafter : Narrow (s.drop (index + reference.source.length)) := by
        rw [hsplit, ← append_assoc] at hnarrow
        exact hnarrow.suffix
      obtain ⟨texts, hforall, hflatten⟩ := ih (by omega) hafter
      have hspells : s.take index ++ reference.lead ++ (text ++ texts.flatten) = s := by
        rw [hflatten, append_assoc, ← append_assoc reference.lead, ← hsource]
        exact hsplit.symm
      simp only [hindex, Option.getD_some]
      by_cases hbefore : s.take index ++ reference.lead = []
      · rw [if_pos hbefore]
        refine ⟨text :: texts, .cons htext hforall, ?_⟩
        rwa [hbefore] at hspells
      · rw [if_neg hbefore]
        exact ⟨_ :: text :: texts, .cons rfl (.cons htext hforall), hspells⟩

/-- No link begins among the first units. -/
def Unlinked (n : ℕ) (s : Text) : Prop := ∀ k < n, linkAt (s.drop k) = none

theorem links_drop (h : Unlinked n s) : links (s.drop n) = links s := by
  induction n generalizing s with
  | zero => rfl
  | succ n ih =>
    cases s with
    | nil => rfl
    | cons u s =>
      have hnone : linkAt (u :: s) = none := h 0 (succ_pos n)
      rw [drop_succ_cons, ih fun k hk ↦ h (k + 1) (succ_lt_succ hk), links, links,
        pieces_text hnone, found_text]

theorem links_unlinked (h : Unlinked s.length s) : links s = [] := by
  rw [← links_drop h, drop_length]
  rfl

theorem handleRun_marks {p : UInt16 → Prop} (hp : ∀ u, isHandle u → p u) (s : Text) :
    ∀ u ∈ (handleRun s).1, p u := by
  induction s with
  | nil => simp [handleRun]
  | cons u s ih =>
    unfold handleRun
    split
    · next hu =>
      rw [Bool.and_eq_true] at hu
      exact forall_mem_cons.mpr ⟨hp u hu.1, ih⟩
    · simp

/-- The units of a handle. -/
theorem handleAt_marks {p : UInt16 → Prop} (hp : ∀ u, isHandle u → p u)
    (h : handleAt s = some (handle, rest)) : ∀ u ∈ handle, p u := by
  unfold handleAt at h
  split at h
  · next u s =>
    split at h
    · next hu =>
      cases h
      rw [Bool.and_eq_true] at hu
      refine forall_mem_cons.mpr ⟨hp u ?_, handleRun_marks hp s⟩
      have hstart := hu.1
      simp only [startsHandle, decide_eq_true_eq, isHandle, isWord] at hstart ⊢
      tauto
    · cases h
  · cases h

theorem ne_opening_of_isHandle (h : isHandle u) : u ≠ opening := by
  rintro rfl
  revert h
  decide

theorem linkAt_of_next_ne {v : UInt16} (hv : v ≠ opening) (s : Text) :
    linkAt (u :: v :: s) = none := by
  simp [linkAt, hv]

theorem Unlinked.cons {u : UInt16} (hu : linkAt (u :: s) = none) (h : Unlinked n s) :
    Unlinked (n + 1) (u :: s) := by
  intro k hk
  cases k with
  | zero => exact hu
  | succ k => exact h k (lt_of_succ_lt_succ hk)

theorem unlinked_append {p : Text} (hp : ∀ u ∈ p, u ≠ opening) (s : Text) :
    Unlinked p.length (p ++ s) := by
  induction p with
  | nil => exact fun k hk ↦ absurd hk (not_lt_zero k)
  | cons u p ih =>
    obtain ⟨hu, hp⟩ := forall_mem_cons.mp hp
    exact (ih hp).cons (linkAt_of_ne hu _)

theorem ne_opening_of_isHigh {u : UInt16} (h : isHigh u) : u ≠ opening := by
  rintro rfl
  revert h
  decide

theorem ne_opening_of_isLow {u : UInt16} (h : isLow u) : u ≠ opening := by
  rintro rfl
  revert h
  decide

/-- No link begins inside a mention, whatever stands behind it. -/
theorem unlinked_mention {start : Bool} (h : mentionAt start s = some (m, rest)) (after : Text) :
    Unlinked m.source.length (m.source ++ after) := by
  obtain ⟨rfl, hhandle, hlead⟩ := mentionAt_eq_some h
  have hmarks : ∀ u ∈ sign :: m.handle, u ≠ opening :=
    forall_mem_cons.mpr ⟨by decide, handleAt_marks ne_opening_of_isHandle hhandle⟩
  have htail := unlinked_append hmarks after
  rw [Mention.source, append_assoc, length_append]
  rcases hlead with ⟨-, hempty⟩ | hlead
  · rw [hempty, length_nil, zero_add]
    exact htail
  · obtain ⟨-, ⟨u, hu, -⟩ | ⟨u, v, huv, hhigh, hlow⟩⟩ := leadAt_eq_some hlead
    · rw [hu, length_singleton, add_comm]
      exact htail.cons (linkAt_of_next_ne u (by decide) _)
    · rw [huv, add_comm]
      exact (htail.cons (linkAt_of_ne (ne_opening_of_isLow hlow) _)).cons
        (linkAt_of_ne (ne_opening_of_isHigh hhigh) _)

theorem Unlinked.append {p : Text} (hp : Unlinked p.length (p ++ s)) (hs : Unlinked n s) :
    Unlinked (p.length + n) (p ++ s) := by
  intro k hk
  by_cases hshort : k < p.length
  · exact hp k hshort
  · rw [drop_append, drop_eq_nil_of_le (by omega), nil_append]
    exact hs (k - p.length) (by omega)

/-- The first link is read from the front of what it leaves behind. -/
theorem links_source (h : linkAt s = some (l, rest)) : links s = l :: links rest := by
  rw [links, pieces_link h, found_match, links]

/-- No link begins in front of the match, nor where the loop takes the match to be. -/
theorem find_unlinked {start : Bool} (h : find start s = some (before, reference, rest)) : Unlinked before.length s := by
  intro k hk
  exact (referenceAt_eq_none.mp ((find_eq_some h).2.2 k hk)).1

/-- A link is found where it stands. -/
theorem find_link {start : Bool} (h : find start s = some (before, .link l, rest)) :
    (indexOf l.source s).getD 0 = before.length := by
  obtain ⟨index, hle, hindex, hsplit, -⟩ := find_index h
  obtain ⟨hs, hmatch, -⟩ := find_eq_some h
  have hvalid := (linkAt_eq_some (referenceAt_link hmatch)).1
  rw [show indexOf l.source s = some index from hindex, Option.getD_some]
  by_contra hne
  have hnone := find_unlinked h index (by omega)
  have hlength : index ≤ s.length := by
    rw [hs, length_append]
    omega
  rw [hsplit, drop_left' (length_take_of_le hlength), Reference.source,
    linkAt_source hvalid] at hnone
  cases hnone

/-- The tokens of links are the links of the content. -/
theorem tokenizeFrom_links {read : Token → Option Text} (htext : ∀ value, read (.text value) = none)
    (hmention : ∀ handle, read (.mention handle) = none) (hfuel : s.length ≤ fuel) :
    (tokenizeFrom fuel s).filterMap read =
      (links s).filterMap fun l ↦ read (Reference.link l).token := by
  induction fuel generalizing s with
  | zero =>
    have hs : s = [] := length_eq_zero_iff.mp (le_zero.mp hfuel)
    rw [hs]
    rfl
  | succ fuel ih =>
    unfold tokenizeFrom
    by_cases hs : s = []
    · rw [if_pos hs, hs]
      rfl
    rw [if_neg hs]
    cases hfind : find true s with
    | none =>
      have hlinks : links s = [] :=
        links_unlinked fun k _ ↦ (referenceAt_eq_none.mp (find_eq_none hfind k)).1
      simp [htext, hlinks]
    | some split =>
      obtain ⟨before, reference, rest⟩ := split
      obtain ⟨index, hle, hindex, hsplit, hshorter⟩ := find_index hfind
      have htokens : (if s.take index ++ reference.lead = [] then []
          else [Token.text (s.take index ++ reference.lead)]).filterMap read = [] := by
        split <;> simp [htext]
      simp only [hindex, Option.getD_some, filterMap_append, htokens, nil_append, filterMap_cons]
      rw [ih (by omega)]
      obtain ⟨hs, hmatch, -⟩ := find_eq_some hfind
      cases reference with
      | link l =>
        have hplace := find_link hfind
        rw [show indexOf l.source s = some index from hindex, Option.getD_some] at hplace
        have hafter : s.drop (index + l.source.length) = rest := by
          rw [hplace, hs, ← drop_drop, drop_left, Reference.source, drop_left]
        have hlinks : links s = l :: links rest := by
          have hlink := referenceAt_link hmatch
          rw [← links_drop (find_unlinked hfind), hs, drop_left, links_source hlink]
        simp only [Reference.source, hafter, hlinks, filterMap_cons]
      | mention m =>
        have hlength : (s.take index).length = index := by
          refine length_take_of_le ?_
          rw [hs, length_append]
          omega
        have hdrop : links (s.drop (index + m.source.length)) = links s := by
          refine links_drop ?_
          have hbefore : Unlinked (s.take index).length (s.take index ++ s.drop index) := by
            rw [take_append_drop, hlength]
            exact fun k hk ↦ find_unlinked hfind k (by omega)
          have hwhole := unlinked_mention (referenceAt_mention hmatch).2
            (s.drop (index + m.source.length))
          have hplace := append_cancel_left ((take_append_drop index s).trans hsplit)
          rw [Reference.source] at hplace
          rw [← hplace] at hwhole
          have hall := hbefore.append hwhole
          rwa [take_append_drop, hlength] at hall
        simp only [Reference.source, hdrop]
        simp [Reference.token, hmention]

theorem tokenizeReferences_pages : pageNames (tokenizeReferences content) =
      (pageReferences content).filter fun target ↦ !isUri target := by
  rw [pageNames, tokenizeReferences, tokenizeFrom_links (fun _ ↦ rfl) (fun _ ↦ rfl)
    (le_refl _), pageReferences, filter_map, ← filterMap_eq_map,
    filterMap_filter]
  refine filterMap_congr fun l _ ↦ ?_
  by_cases huri : isUri l.target <;> simp [Reference.token, huri]

theorem tokenizeReferences_uris :
    uris (tokenizeReferences content) = (pageReferences content).filter isUri := by
  rw [uris, tokenizeReferences, tokenizeFrom_links (fun _ ↦ rfl) (fun _ ↦ rfl)
    (le_refl _), pageReferences, filter_map, ← filterMap_eq_map,
    filterMap_filter]
  refine filterMap_congr fun l _ ↦ ?_
  by_cases huri : isUri l.target <;> simp [Reference.token, huri]

/-- A low surrogate follows every high one. -/
def Paired (s : Text) : Prop :=
  ∀ before u after, s = before ++ u :: after → isHigh u = true → pairAhead u after = true

/-- No sign with a handle stands directly behind a mention. -/
def Apart (s : Text) : Prop :=
  ∀ front back m rest, s = front ++ back → mentionAt front.isEmpty back = some (m, rest) →
    ∀ after, rest = sign :: after → handleAt after = none

theorem Paired.suffix (h : Paired (before ++ s)) : Paired s := by
  rintro front u after rfl
  exact h (before ++ front) u after (by simp)

theorem handles_text {start : Bool} {u : UInt16} (h : mentionAt start (u :: s) = none) :
    handles start (u :: s) = handles false s := by
  rw [handles, reads_mentionAt.pieces_text h, found_text, handles]

theorem handles_match {start : Bool} (h : mentionAt start s = some (m, rest)) :
    handles start s = m.handle :: handles false rest := by
  rw [handles, reads_mentionAt.pieces_match h, found_match, map_cons, handles]

theorem handles_drop {start : Bool} (hn : n ≤ s.length)
    (h : ∀ k < n, mentionAt (start && k = 0) (s.drop k) = none) :
    handles start s = handles (start && n = 0) (s.drop n) := by
  induction n generalizing start s with
  | zero => simp
  | succ n ih =>
    cases s with
    | nil => simp at hn
    | cons u s =>
      have hfirst : mentionAt start (u :: s) = none := by simpa using h 0 (succ_pos n)
      have hlater : ∀ k < n, mentionAt (false && k = 0) (s.drop k) = none := by
        intro k hk
        simpa using h (k + 1) (succ_lt_succ hk)
      rw [handles_text hfirst, ih (le_of_succ_le_succ hn) hlater]
      simp

/-- The start of the input matters only where a handle with its sign stands there. -/
theorem mentionAt_start (h : ∀ after, s = sign :: after → handleAt after = none) :
    mentionAt true s = mentionAt false s := by
  cases s with
  | nil => rfl
  | cons u s =>
    by_cases hu : u = sign
    · subst hu
      have hlead : leadAt (sign :: s) = none := by
        cases s <;> simp [leadAt, isHigh, sign, isWord, isLetter]
      simp [mentionAt, hlead, h s rfl]
    · simp [mentionAt, hu]

theorem handles_start (h : mentionAt true s = mentionAt false s) :
    handles true s = handles false s := by
  cases s with
  | nil => rfl
  | cons u s =>
    cases hat : mentionAt false (u :: s) with
    | none => rw [handles_text hat, handles_text (h.trans hat)]
    | some split => rw [handles_match hat, handles_match (h.trans hat)]

/-! ## The mentions of a link -/

theorem handleRun_append (s rest : Text) :
    handleRun (s ++ closing :: rest) = ((handleRun s).1, (handleRun s).2 ++ closing :: rest) := by
  induction s with
  | nil => simp [handleRun, isHandle, isWord, isLetter, closing]
  | cons u s ih =>
    have hpair : pairAhead u (s ++ closing :: rest) = pairAhead u s := by
      cases s <;> simp [pairAhead, isLow, closing]
    rw [cons_append, handleRun, handleRun, ih, hpair]
    split <;> rfl

theorem handleAt_append (s rest : Text) : handleAt (s ++ closing :: rest) =
      (handleAt s).map fun split ↦ (split.1, split.2 ++ closing :: rest) := by
  cases s with
  | nil => simp [handleAt, startsHandle, isLetter, closing]
  | cons u s =>
    have hpair : pairAhead u (s ++ closing :: rest) = pairAhead u s := by
      cases s <;> simp [pairAhead, isLow, closing]
    rw [cons_append, handleAt, handleAt, handleRun_append, hpair]
    split <;> rfl

/-- A closing bracket behind a text ends what is matched in it. -/
theorem mentionAt_append (hs : s ≠ []) (rest : Text) : mentionAt start (s ++ closing :: rest) =
      (mentionAt start s).map fun split ↦ (split.1, split.2 ++ closing :: rest) := by
  obtain ⟨u, s, rfl⟩ := exists_cons_of_ne_nil hs
  unfold mentionAt
  by_cases hstart : start ∧ u = sign
  · simp [hstart.1, hstart.2, handleAt_append, Option.map_map, comp_def]
  have hlead : ∀ s, (if start && (u :: s).head? = some sign then some ([], u :: s)
      else leadAt (u :: s)) = leadAt (u :: s) := by
    intro s
    refine if_neg ?_
    simpa using hstart
  rw [cons_append, hlead, hlead]
  cases s with
  | nil =>
    have hclosing : closing ≠ sign := by decide
    have hlow : isLow closing = false := by decide
    by_cases hu : isWord u || u = sign <;> simp [leadAt, hu, hlow, hclosing]
  | cons v s =>
    have hnext : closing ≠ sign := by decide
    by_cases hpair : isHigh u && isLow v
    · cases s with
      | nil => simp [leadAt, hpair, hnext]
      | cons w s =>
        by_cases hw : w = sign
        · simp [leadAt, hpair, hw, handleAt_append, Option.map_map, comp_def]
        · simp [leadAt, hpair, hw]
    · by_cases hu : isWord u || u = sign
      · simp [leadAt, hpair, hu]
      · by_cases hv : v = sign
        · subst hv
          have hlow : isLow sign = false := by decide
          simp [leadAt, hlow, hu, handleAt_append, Option.map_map, comp_def]
        · simp [leadAt, hpair, hu, hv]

/-- The mentions in front of a closing bracket are those of the text up to it. -/
theorem handles_append (s rest : Text) :
    handles start (s ++ closing :: rest) = handles start s ++ handles false (closing :: rest) := by
  refine reads_mentionAt.induction false (p := fun start s ↦
    handles start (s ++ closing :: rest) = handles start s ++ handles false (closing :: rest))
    ?_ ?_ ?_ start s
  · intro start
    cases start with
    | false => rfl
    | true => exact handles_start (mentionAt_start (by simp [closing, sign]))
  · intro start u s hnone ih
    have happend := mentionAt_append start (cons_ne_nil u s) rest
    rw [hnone, Option.map_none, cons_append] at happend
    rw [cons_append, handles_text happend, handles_text hnone, ih]
  · intro start s m after hmatch ih
    have hs : s ≠ [] := by
      rintro rfl
      cases start <;> cases hmatch
    have happend := mentionAt_append start hs rest
    rw [hmatch, Option.map_some] at happend
    rw [handles_match happend, handles_match hmatch, ih, cons_append]

theorem mentionAt_closing (s : Text) : mentionAt start (closing :: s) = if s.head? = some sign
      then (handleAt s.tail).map fun split ↦ (⟨[closing], split.1⟩, split.2) else none := by
  have hclosing : closing ≠ sign := by decide
  have hhigh : isHigh closing = false := by decide
  have hword : isWord closing = false := by decide
  cases s with
  | nil => simp [mentionAt, leadAt, hclosing]
  | cons u s =>
    by_cases hu : u = sign <;> simp [mentionAt, leadAt, hhigh, hword, hclosing, hu]

/-- A closing bracket leads a mention as the start of the input does. -/
theorem handles_closing (s : Text) : handles false (closing :: s) = handles true s := by
  cases s with
  | nil => rfl
  | cons u s =>
    by_cases hu : u = sign
    · subst hu
      cases hat : handleAt s with
      | none =>
        rw [handles_text (by simp [mentionAt_closing, hat]),
          handles_start (mentionAt_start fun after hafter ↦ by cases hafter; exact hat)]
      | some split =>
        have hstart : mentionAt true (sign :: s) = some (⟨[], split.1⟩, split.2) := by
          simp [mentionAt, hat]
        have hclosing : mentionAt false (closing :: sign :: s) =
            some (⟨[closing], split.1⟩, split.2) := by
          simp [mentionAt_closing, hat]
        rw [handles_match hclosing, handles_match hstart]
    · rw [handles_text (by simp [mentionAt_closing, hu]),
        handles_start (mentionAt_start fun after hafter ↦ by cases hafter; exact absurd rfl hu)]

theorem Link.source_eq_append (l : Link) : ∃ x, l.source = opening :: x ++ [closing] := by
  obtain ⟨target, _ | display⟩ := l
  · exact ⟨opening :: (target ++ [closing]), by simp [Link.source]⟩
  · exact ⟨opening :: (target ++ closing :: opening :: (display ++ [closing])),
      by simp [Link.source]⟩

/-- The mentions of a content that begins with a link. -/
theorem handles_link (l : Link) (start : Bool) (rest : Text) :
    handles start (l.source ++ rest) = handles true l.source ++ handles true rest := by
  obtain ⟨x, hx⟩ := l.source_eq_append
  have hlast : handles false [closing] = [] := rfl
  have hfirst : handles start (opening :: x) = handles true (opening :: x) := by
    have hflag := handles_start (mentionAt_start (s := opening :: x) (by simp [opening, sign]))
    cases start
    · exact hflag.symm
    · rfl
  rw [hx, append_assoc, singleton_append, handles_append, handles_append, hlast,
    append_nil, handles_closing, hfirst]


/-- Where a handle without a lone high surrogate stands, a handle begins. -/
theorem handleAt_again (hpaired : Paired (handle ++ rest))
    (h : handleAt (handle ++ rest) = some (handle, rest)) (after : Text) :
    (handleAt (handle ++ after)).isSome := by
  unfold handleAt at h
  split at h
  · next u s hsplit =>
    split at h
    · next hu =>
      cases h
      rw [Bool.and_eq_true, Bool.not_eq_true'] at hu
      have hhigh : isHigh u = false := by
        by_contra htrue
        have hpair := hpaired [] u s hsplit (by simpa using htrue)
        rw [hu.2] at hpair
        cases hpair
      simp [handleAt, hu.1, pairAhead, hhigh]
    · cases h
  · cases h

theorem leadAt_again {lead : Text} (h : leadAt (lead ++ sign :: rest) = some (lead, sign :: rest))
    (after : Text) : leadAt (lead ++ sign :: after) = some (lead, sign :: after) := by
  have hlow : isLow sign = false := by decide
  obtain ⟨-, ⟨u, rfl, hword, hsign⟩ | ⟨u, v, rfl, hhigh, hlow⟩⟩ := leadAt_eq_some h
  · simp [leadAt, hlow, hword, hsign]
  · simp [leadAt, hhigh, hlow]

/-- Where a mention with a leading character stands, a mention begins. -/
theorem mentionAt_again (hpaired : Paired (m.handle ++ rest))
    (hhandle : handleAt (m.handle ++ rest) = some (m.handle, rest))
    (hlead : leadAt (m.lead ++ sign :: (m.handle ++ rest)) =
      some (m.lead, sign :: (m.handle ++ rest))) (start : Bool) (after : Text) :
    mentionAt start (m.source ++ after) ≠ none := by
  have hhead : (m.lead ++ sign :: (m.handle ++ after)).head? ≠ some sign := by
    obtain ⟨-, ⟨u, hu, -, hsign⟩ | ⟨u, v, huv, hhigh, -⟩⟩ := leadAt_eq_some hlead
    · simpa [hu] using hsign
    · rw [huv]
      rintro ⟨⟩
      revert hhigh
      decide
  obtain ⟨split, hsplit⟩ := Option.isSome_iff_exists.mp (handleAt_again hpaired hhandle after)
  have hstart : ¬ ((start && decide ((m.lead ++ sign :: (m.handle ++ after)).head? = some sign)) =
      true) := by
    rw [decide_eq_false hhead, Bool.and_false]
    exact Bool.false_ne_true
  rw [Mention.source, append_assoc, cons_append, mentionAt, if_neg hstart, leadAt_again hlead]
  simp [hsplit]

/-- A match is found where it stands. -/
theorem find_place (hpaired : Paired s) (h : find true s = some (before, reference, rest)) :
    (indexOf reference.source s).getD 0 = before.length := by
  cases reference with
  | link l => exact find_link h
  | mention m =>
    obtain ⟨index, hle, hindex, hsplit, -⟩ := find_index h
    obtain ⟨hs, hmatch, hnone⟩ := find_eq_some h
    rw [hindex, Option.getD_some]
    by_contra hne
    have hlt : index < before.length := by omega
    have hplace := append_cancel_left ((take_append_drop index s).trans hsplit)
    have hmissed := (referenceAt_eq_none.mp (hnone index hlt)).2
    obtain ⟨-, hhandle, ⟨hstart, -⟩ | hlead⟩ := mentionAt_eq_some (referenceAt_mention hmatch).2
    · simp only [Bool.true_and, decide_eq_true_eq] at hstart
      omega
    · have hrest : Paired (m.handle ++ rest) := by
        have hsplit : s = (before ++ m.lead ++ [sign]) ++ (m.handle ++ rest) := by
          simp [hs, Reference.source, Mention.source]
        rw [hsplit] at hpaired
        exact hpaired.suffix
      rw [hplace] at hmissed
      exact mentionAt_again hrest hhandle hlead _ _ hmissed

theorem isEmpty_append_cons (front : Text) (u : UInt16) (s : Text) :
    (front ++ u :: s).isEmpty = false := by
  cases front <;> rfl

/-- What a mention at the start of the rest leaves is left in the whole, too. -/
theorem Apart.suffix {front : Text} (h : Apart (front ++ rest))
    (hstart : ∀ m behind, mentionAt true rest = some (m, behind) →
      ∃ front' back m', front ++ rest = front' ++ back ∧
        mentionAt front'.isEmpty back = some (m', behind)) : Apart rest := by
  intro front' back m behind hrest hm
  cases front' with
  | nil =>
    rw [nil_append] at hrest
    rw [← hrest] at hm
    obtain ⟨front', back', m', hsplit, hm'⟩ := hstart m behind hm
    exact h front' back' m' behind hsplit hm'
  | cons u front' =>
    refine h (front ++ u :: front') back m behind (by rw [hrest, append_assoc]) ?_
    rwa [isEmpty_append_cons]

theorem Apart.behind_mention (h : Apart (before ++ (m.source ++ rest)))
    (hm : mentionAt before.isEmpty (m.source ++ rest) = some (m, rest)) : Apart rest := by
  have hnone := h before _ m rest rfl hm
  rw [← append_assoc] at h
  refine h.suffix fun m' behind hm' ↦ ⟨before ++ m.source, rest, m', rfl, ?_⟩
  rw [mentionAt_start hnone] at hm'
  simpa [Mention.source, ← append_assoc, isEmpty_append_cons] using hm'

/-- The last bracket of a link leads what stands behind it. -/
theorem Apart.behind_link (h : Apart (before ++ (l.source ++ rest))) : Apart rest := by
  obtain ⟨x, hx⟩ := l.source_eq_append
  rw [← append_assoc] at h
  refine h.suffix fun m behind hm ↦ ?_
  by_cases hhead : ∃ after, rest = sign :: after ∧ handleAt after ≠ none
  · obtain ⟨after, rfl, -⟩ := hhead
    refine ⟨before ++ opening :: x, closing :: sign :: after, ⟨[closing], m.handle⟩,
      by simp [hx], ?_⟩
    obtain ⟨split, hsplit, heq⟩ := Option.map_eq_some_iff.mp
      (show (handleAt after).map (fun split ↦ (⟨[], split.1⟩, split.2)) = some (m, behind) by
        simpa [mentionAt] using hm)
    cases heq
    simp [mentionAt_closing, hsplit]
  · refine ⟨before ++ l.source, rest, m, rfl, ?_⟩
    rw [mentionAt_start fun after hafter ↦ by
      by_contra hne
      exact hhead ⟨after, hafter, hne⟩] at hm
    simpa [hx, isEmpty_append_cons] using hm

theorem mem_handles_iff (hfuel : s.length ≤ fuel) (hpaired : Paired s) (hapart : Apart s)
    (handle : Text) : handle ∈ handles true s ↔
      handle ∈ mentions (tokenizeFrom fuel s) ∨ ∃ l ∈ links s, handle ∈ handles true l.source := by
  induction fuel generalizing s with
  | zero =>
    have hs : s = [] := length_eq_zero_iff.mp (le_zero.mp hfuel)
    rw [hs]
    simp [handles, mentions, links, pieces, tokenizeFrom]
  | succ fuel ih =>
    unfold tokenizeFrom
    by_cases hs : s = []
    · rw [if_pos hs, hs]
      simp [handles, mentions, links, pieces]
    rw [if_neg hs]
    cases hfind : find true s with
    | none =>
      have hlinks : links s = [] :=
        links_unlinked fun k _ ↦ (referenceAt_eq_none.mp (find_eq_none hfind k)).1
      have hhandles : handles true s = [] := by
        rw [handles_drop (le_refl _) fun k _ ↦
          (referenceAt_eq_none.mp (find_eq_none hfind k)).2, drop_length]
        rfl
      simp [hlinks, hhandles, mentions]
    | some split =>
      obtain ⟨before, reference, rest⟩ := split
      obtain ⟨hs, hmatch, hnone⟩ := find_eq_some hfind
      have hplace := find_place hpaired hfind
      have hlength : before.length ≤ s.length := by
        rw [hs, length_append]
        omega
      have hafter : s.drop (before.length + reference.source.length) = rest := by
        rw [hs, ← drop_drop, drop_left, drop_left]
      have hshorter : rest.length ≤ fuel := by
        obtain ⟨index, -, hindex, -, hlt⟩ := find_index hfind
        rw [hindex, Option.getD_some] at hplace
        rw [hplace, hafter] at hlt
        omega
      have hhandles : handles true s = handles (true && before.length = 0)
          (reference.source ++ rest) := by
        rw [handles_drop hlength fun k hk ↦ (referenceAt_eq_none.mp (hnone k hk)).2]
        conv_lhs => rw [hs, drop_left]
      have hrest : Paired rest := by
        rw [hs, ← append_assoc] at hpaired
        exact hpaired.suffix
      have hmentions : ∀ text : Text, mentions ((if text = [] then [] else [Token.text text]) ++
          reference.token :: tokenizeFrom fuel rest) =
          mentions (reference.token :: tokenizeFrom fuel rest) := by
        intro text
        split <;> rfl
      simp only [hplace, hafter, hmentions, hhandles]
      have hlinks : links s = links (reference.source ++ rest) := by
        rw [← links_drop (find_unlinked hfind)]
        conv_lhs => rw [hs, drop_left]
      rw [hlinks]
      rw [hs] at hapart
      cases reference with
      | link l =>
        have ih := ih hshorter hrest hapart.behind_link
        have htokens : mentions ((Reference.link l).token :: tokenizeFrom fuel rest) =
            mentions (tokenizeFrom fuel rest) := by
          by_cases huri : isUri l.target <;> simp [mentions, Reference.token, huri]
        have hmatch := referenceAt_link hmatch
        rw [Reference.source] at hmatch
        rw [Reference.source, handles_link, mem_append, ih, links_source hmatch, htokens]
        simp only [mem_cons, exists_eq_or_imp]
        tauto
      | mention m =>
        have hm := (referenceAt_mention hmatch).2
        rw [Reference.source] at hm
        have hstart : (true && decide (before.length = 0)) = before.isEmpty := by
          cases before <;> rfl
        rw [hstart] at hm
        have hbehind := mentionAt_start (hapart before _ m rest rfl hm)
        have ih := ih hshorter hrest (hapart.behind_mention hm)
        rw [Reference.source, hstart, handles_match hm, ← handles_start hbehind, mem_cons, ih,
          ← links_drop (unlinked_mention hm rest), drop_left]
        simp only [mentions, Reference.token, filterMap_cons, mem_cons, or_assoc]

/-! ## Tokens and extractors -/

theorem mem_extractUserMentions {content : Text} : handle ∈ extractUserMentions content ↔
      handle ∈ handles true content ∧ isBlank handle = false := by
  simp [extractUserMentions, mem_eraseDups]

theorem mem_extractPageReferences {content target : Text} :
    target ∈ extractPageReferences content ↔ target ∈ pageReferences content := by
  simp [extractPageReferences, mem_eraseDups]

/-- The tokens spell the content and read its links, and its mentions with those inside of links
that are not blank. -/
theorem tokens_read_references (content : Text) :
    (Narrow content → ∃ texts, List.Forall₂ Writes (tokenizeReferences content) texts ∧
      texts.flatten = content) ∧ (∀ target, target ∈ pageNames (tokenizeReferences content) ↔
      target ∈ extractPageReferences content ∧ isUri target = false) ∧
    (∀ target, target ∈ uris (tokenizeReferences content) ↔
      target ∈ extractPageReferences content ∧ isUri target = true) ∧
    (Paired content → Apart content → ∀ handle,
      handle ∈ extractUserMentions content ↔ isBlank handle = false ∧
        (handle ∈ mentions (tokenizeReferences content) ∨
          ∃ l ∈ links content, handle ∈ extractUserMentions l.source)) := by
  refine ⟨fun hnarrow ↦ tokenizeFrom_writes (le_refl _) hnarrow, ?_, ?_, ?_⟩
  · simp [tokenizeReferences_pages, mem_extractPageReferences]
  · simp [tokenizeReferences_uris, mem_extractPageReferences]
  · intro hpaired hapart handle
    simp only [mem_extractUserMentions, tokenizeReferences,
      mem_handles_iff (le_refl _) hpaired hapart]
    constructor
    · rintro ⟨hmention | ⟨l, hl, hinside⟩, hblank⟩
      · exact ⟨hblank, .inl hmention⟩
      · exact ⟨hblank, .inr ⟨l, hl, hinside, hblank⟩⟩
    · rintro ⟨hblank, hmention | ⟨l, hl, hinside, -⟩⟩
      · exact ⟨.inl hmention, hblank⟩
      · exact ⟨.inr ⟨l, hl, hinside⟩, hblank⟩

theorem paired_of_marks (h : ∀ u ∈ s, isHigh u = false) : Paired s := by
  rintro before u after rfl hu
  rw [h u (by simp)] at hu
  cases hu

/-- Two mentions have two signs. -/
theorem apart_of_count (h : s.count sign ≤ 1) : Apart s := by
  rintro front back m rest rfl hm after rfl
  rw [(mentionAt_eq_some hm).1] at h
  simp only [Mention.source, count_append, count_cons_self] at h
  omega

/-- `[[@a]]` -/
def mentionInLink : Text := [91, 91, 64, 97, 93, 93]

/-- The extractor reads a mention in a link. -/
theorem tokens_read_references_link : [97] ∈ extractUserMentions mentionInLink ∧
      mentions (tokenizeReferences mentionInLink) = [] := by
  have hmarks : ∀ u ∈ mentionInLink, isHigh u = false := Lists.forall_of_all (by decide)
  have hread := (tokens_read_references mentionInLink).2.2.2 (paired_of_marks hmarks)
    (apart_of_count (by decide)) [97]
  refine ⟨hread.mpr ⟨by decide, .inr ⟨⟨[64, 97], none⟩, ?_, ?_⟩⟩, ?_⟩ <;> decide

/-- `((aaaaaaaa-aaaa-4aaa-8aaa-aaaaaaaaaaaa))` -/
def blockReference : Text :=
  [40, 40, 97, 97, 97, 97, 97, 97, 97, 97, 45, 97, 97, 97, 97, 45, 52, 97, 97, 97, 45, 56, 97, 97,
    97, 45, 97, 97, 97, 97, 97, 97, 97, 97, 97, 97, 97, 97, 41, 41]

/-- A block reference is extracted, and is no token. -/
theorem block_reference_not_token :
    extractBlockReferences blockReference = [(blockReference.drop 2).take 36] ∧
      tokenizeReferences blockReference = [.text blockReference] := by
  decide

end Simmis.Wiki.References
