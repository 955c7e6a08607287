import Simmis.Library.LocalRewrites
import Simmis.Library.Replays
import Simmis.RichDocuments.Hunks
import Simmis.RichDocuments.Projections

/-!
# Edits of a rich document

An edited region is serialized block by block where it changed. The regions are rewritten from the
last to the first, so the positions of the source stay valid for those in front.
-/

namespace Simmis.RichDocuments

open List Option Nat Hunk Except
open Documents (Uuid)
open Substitutions

inductive ListType
  | bullet
  | ordered
deriving DecidableEq

/-- What the model of a region is to the codec of rich text. -/
structure Codec (N : Type) where
  /-- `rich/normalize` -/
  normalize : List N → Except Refusal (List N)
  /-- `rich/markdown` in a newline style -/
  markdown : List N → Source → Except Refusal Source
  /-- `rich/validate-provenance!` -/
  validateProvenance : List N → List N → Except Refusal Unit
  /-- `rich/validate-model!` -/
  validateModel : List (Part N) → Except Refusal Unit
  listType : N → Option ListType
  isEmptyParagraph : N → Bool
  /-- `re-find #"[\r\n]+$"` -/
  ending : Source → Source

/-- `re-find #"\r\n|\n|\r"` -/
def lineBreak? : Source → Option Source
  | [] => none
  | u :: rest =>
    if u = 13 ∧ rest.head? = some 10 then some [13, 10]
    else if isBreak u then some [u]
    else lineBreak? rest

def newlineOf (source : Source) : Source := (lineBreak? source).getD [10]

/-- The matches of `re-seq #"\r\n|\n|\r"`. -/
def countBreaks : Source → ℕ
  | [] => 0
  | u :: rest => (if isBreak u ∧ ¬(u = 13 ∧ rest.head? = some 10) then 1 else 0) + countBreaks rest

section Runs

variable {N : Type} [DecidableEq N] (codec : Codec N)

/-- `rich/apply-region` -/
def applyRegion (text : Source) (start stop : ℕ) (model edited provenance : List N) :
    Except Refusal Source := do
  require (start ≤ stop ∧ stop ≤ text.length) .unsupported
  codec.validateProvenance provenance edited
  let before ← codec.normalize model
  let after ← codec.normalize edited
  if before = after then pure text
  else
    let span := slice text start stop
    let replacement ← codec.markdown after (newlineOf span)
    pure (splice text ⟨start, stop, replacement ++ codec.ending span⟩)

def adjacentLists (nodes : List N) : Bool :=
  let shown := nodes.filter fun n ↦ !codec.isEmptyParagraph n
  (shown.zip shown.tail).any fun p ↦
    (codec.listType p.1).isSome && codec.listType p.1 == codec.listType p.2

/-- The hunks of two lists of the same length. -/
def positionHunks (old new : List (List N)) : List Hunk :=
  (List.range old.length).filterMap fun i ↦
    if old[i]? ≠ new[i]? then some ⟨i, i + 1, i, i + 1⟩ else none

/-- The hunks between the blocks of a region and their edited version. -/
def hunksOf (old new : List N) : Except Refusal (List Hunk) := do
  let normalizedOld ← old.mapM fun n ↦ codec.normalize [n]
  let normalizedNew ← new.mapM fun n ↦ codec.normalize [n]
  let found ← (if old.length = new.length then .ok (positionHunks normalizedOld normalizedNew)
    else changedHunks normalizedOld normalizedNew)
  -- Touching lists choose their markers together.
  if found ≠ [] ∧ (adjacentLists codec old ∨ adjacentLists codec new) then
    pure [⟨0, old.length, 0, new.length⟩]
  else pure found

/-- The hunks are applied to the slots; `ending` are the last line breaks. -/
def applyHunk (newline ending : Source) (first : Editable N) (more : List (Editable N))
    (old new : List N) (h : Hunk) (text : Source) : Except Refusal Source := do
  let replacement := h.brings new
  let next := (first :: more)[h.a]?
  if h.a < h.b then
    let left ← demand next .index
    let right ← demand (first :: more)[h.b - 1]? .index
    applyRegion codec text left.start right.stop ((old.drop h.a).take (h.b - h.a)) replacement old
  else
    let previous := more.getLastD first
    let position := (next.map Editable.start).getD previous.stop
    let leading := if next.isSome then []
      else (List.replicate (2 - countBreaks ending) newline).flatten
    let trailing := if next.isSome then newline ++ newline
      else if ending = [] then [] else newline
    let serialized ← codec.markdown replacement newline
    pure (splice text ⟨position, position, leading ++ serialized ++ trailing⟩)

/-- Text for a region that was empty. -/
def insertText (layout : Layout N) (newline : Source) (position : ℕ) (new : List N)
    (text : Source) : Except Refusal Source := do
  let serialized ← codec.markdown new newline
  if layout.blank serialized then pure text
  else
    let leading := if position = 0 ∨ text.take position = [0xFEFF] then [] else newline
    pure (splice text ⟨position, position, leading ++ serialized ++ newline ++ newline⟩)

/-- `apply-run` in a newline style. -/
def applyRunWith (layout : Layout N) (newline : Source) (region : Region N) (model : List N)
    (source : Source) : Except Refusal Source := do
  codec.validateProvenance region.content model
  let new ← codec.normalize model
  match region with
  | .empty position => insertText codec layout newline position new source
  | .run first more =>
    if first.start = first.stop then insertText codec layout newline first.start new source
    else
      let old := (first :: more).map Editable.block
      let hunks ← hunksOf codec old new
      let previous := more.getLastD first
      let ending := codec.ending (slice source previous.start previous.stop)
      hunks.reverse.foldlM (fun text h ↦ applyHunk codec newline ending first more old new h text)
        source

/-- `apply-run` -/
def applyRun (layout : Layout N) (source : Source) (region : Region N) (model : List N) :
    Except Refusal Source :=
  applyRunWith codec layout (newlineOf source) region model source

end Runs

section Slots

variable {N : Type} {source : Source} {first a b : Editable N} {more : List (Editable N)} {i j : ℕ}

/-- The slots of a region, one behind the other. -/
structure InOrder (first : Editable N) (more : List (Editable N)) : Prop where
  nonempty : ∀ slot ∈ first :: more, slot.start < slot.stop
  ordered : (first :: more).Pairwise fun a b ↦ a.stop ≤ b.start

theorem Region.Sound.inOrder (h : (Region.run first more).Sound source) : InOrder first more :=
  ⟨fun slot hslot ↦ (h.nonempty slot hslot).1, h.ordered⟩

theorem getElem?_last (first : Editable N) (more : List (Editable N)) :
    (first :: more)[more.length]? = some (more.getLastD first) := by
  have hlast : (first :: more).getLast? = some (more.getLastD first) := by
    rw [getLast?_cons, getLastD_eq_getLast?]
  rwa [getLast?_eq_getElem?] at hlast

section

variable (h : InOrder first more)
include h

theorem InOrder.stop_le_start (hij : i < j) (ha : (first :: more)[i]? = some a)
    (hb : (first :: more)[j]? = some b) : a.stop ≤ b.start := by
  obtain ⟨hi, rfl⟩ := List.getElem?_eq_some_iff.mp ha
  obtain ⟨hj, rfl⟩ := List.getElem?_eq_some_iff.mp hb
  exact pairwise_iff_getElem.mp h.ordered i j hi hj hij

theorem InOrder.start_le (hij : i ≤ j) (ha : (first :: more)[i]? = some a)
    (hb : (first :: more)[j]? = some b) : a.start ≤ b.stop := by
  have hfront := h.nonempty a (mem_of_getElem? ha)
  have hback := h.nonempty b (mem_of_getElem? hb)
  rcases hij.eq_or_lt with rfl | hlt
  · obtain rfl := some.inj (ha.symm.trans hb)
    exact hfront.le
  · have hle := h.stop_le_start hlt ha hb
    omega

theorem InOrder.stop_le_last (ha : (first :: more)[i]? = some a) :
    a.stop ≤ (more.getLastD first).stop := by
  have hlast := getElem?_last first more
  have hi : i < (first :: more).length := (List.getElem?_eq_some_iff.mp ha).1
  rcases (le_of_lt_succ hi).eq_or_lt with rfl | hlt
  · obtain rfl := some.inj (ha.symm.trans hlast)
    exact le_rfl
  · have hle := h.stop_le_start hlt ha hlast
    have hnonempty := h.nonempty _ (mem_of_getElem? hlast)
    omega

theorem InOrder.first_le (ha : (first :: more)[i]? = some a) : first.start ≤ a.start := by
  rcases Nat.eq_zero_or_pos i with rfl | hpos
  · obtain rfl := some.inj ha
    exact le_rfl
  · have hle := h.stop_le_start hpos rfl ha
    have hnonempty := h.nonempty first mem_cons_self
    omega

end

/-- The first unit that a hunk concerns. -/
def Hunk.low (first : Editable N) (more : List (Editable N)) (h : Hunk) : ℕ :=
  ((first :: more)[h.a]?.map Editable.start).getD (more.getLastD first).stop

/-- The end of what a hunk concerns. -/
def Hunk.high (first : Editable N) (more : List (Editable N)) (h : Hunk) : ℕ :=
  if h.a < h.b then ((first :: more)[h.b - 1]?.map Editable.stop).getD (more.getLastD first).stop
  else h.low first more

variable {h k : Hunk}

/-- The hunks that a region is rewritten by. -/
structure Follow (n : ℕ) (hunks : List Hunk) : Prop where
  ordered : ∀ h ∈ hunks, h.a ≤ h.b ∧ h.b ≤ n
  apart : hunks.Pairwise fun h k ↦ h.b ≤ k.a

theorem low_cases (first : Editable N) (more : List (Editable N)) (h : Hunk) :
    (∃ slot, (first :: more)[h.a]? = some slot ∧ h.low first more = slot.start) ∨
      (first :: more).length ≤ h.a ∧ h.low first more = (more.getLastD first).stop := by
  rcases lt_or_ge h.a (first :: more).length with hlt | hge
  · refine .inl ⟨_, getElem?_eq_getElem hlt, ?_⟩
    rw [low, getElem?_eq_getElem hlt]
    rfl
  · refine .inr ⟨hge, ?_⟩
    rw [low, getElem?_eq_none hge]
    rfl

theorem high_cases (hordered : h.a ≤ h.b ∧ h.b ≤ (first :: more).length) :
    (h.a < h.b ∧ ∃ slot, (first :: more)[h.b - 1]? = some slot ∧ h.high first more = slot.stop) ∨
      h.a = h.b ∧ h.high first more = h.low first more := by
  by_cases hlt : h.a < h.b
  · have hget : (first :: more)[h.b - 1]? = some _ := getElem?_eq_getElem (by omega)
    refine .inl ⟨hlt, _, hget, ?_⟩
    rw [high, if_pos hlt, hget]
    rfl
  · exact .inr ⟨by omega, by rw [high, if_neg hlt]⟩

section

variable (hslots : InOrder first more)
include hslots

theorem low_le_last (h : Hunk) : h.low first more ≤ (more.getLastD first).stop := by
  rcases low_cases first more h with ⟨slot, hslot, heq⟩ | ⟨-, heq⟩
  · have hlt := hslots.nonempty slot (mem_of_getElem? hslot)
    have hle := hslots.stop_le_last hslot
    omega
  · exact heq.le

theorem first_le_low (h : Hunk) : first.start ≤ h.low first more := by
  rcases low_cases first more h with ⟨slot, hslot, heq⟩ | ⟨-, heq⟩
  · rw [heq]
    exact hslots.first_le hslot
  · rw [heq]
    exact hslots.start_le (zero_le _) rfl (getElem?_last first more)

theorem high_le_last (hordered : h.a ≤ h.b ∧ h.b ≤ (first :: more).length) :
    h.high first more ≤ (more.getLastD first).stop := by
  rcases high_cases hordered with ⟨-, slot, hslot, heq⟩ | ⟨-, heq⟩
  · rw [heq]
    exact hslots.stop_le_last hslot
  · rw [heq]
    exact low_le_last hslots h

/-- A hunk ends where the next one begins or before. -/
theorem high_le_low (hh : h.a ≤ h.b ∧ h.b ≤ (first :: more).length) (hhk : h.b ≤ k.a) :
    h.high first more ≤ k.low first more := by
  rcases low_cases first more k with ⟨slot, hslot, heq⟩ | ⟨-, heq⟩
  · rw [heq]
    rcases high_cases hh with ⟨hlt, before, hbefore, hhigh⟩ | ⟨hab, hhigh⟩
    · rw [hhigh]
      exact hslots.stop_le_start (by omega) hbefore hslot
    · rw [hhigh]
      rcases low_cases first more h with ⟨start, hstart, hlow⟩ | ⟨hge, hlow⟩
      · rw [hlow]
        rcases lt_or_ge h.a k.a with hlt | hge
        · have hle := hslots.stop_le_start hlt hstart hslot
          have hnonempty := hslots.nonempty start (mem_of_getElem? hstart)
          omega
        · rw [show h.a = k.a by omega] at hstart
          obtain rfl := some.inj (hstart.symm.trans hslot)
          exact le_rfl
      · have hbound := (List.getElem?_eq_some_iff.mp hslot).1
        omega
  · rw [heq]
    exact high_le_last hslots hh

end

end Slots

section Local

open LocalRewrites

variable {N : Type} {codec : Codec N} {layout : Layout N} {source newline ending : Source}
  {first : Editable N} {more : List (Editable N)} {old new : List N} {hunks : List Hunk}
  {h k : Hunk}

theorem insertText_local {position : ℕ} :
    Local position position (insertText codec layout newline position new) := by
  let leading (text : Source) : Source :=
    if position = 0 ∨ text.take position = [0xFEFF] then [] else newline
  let step (leading text : Source) : Except Refusal Source := do
    let serialized ← codec.markdown new newline
    if layout.blank serialized then pure text
    else pure (splice text ⟨position, position, leading ++ serialized ++ newline ++ newline⟩)
  apply Local.reading leading step
  · intro text post hlength
    simp only [leading, take_append_of_le_length hlength]
  · intro leading
    apply Local.const_bind le_rfl
    intro serialized _
    by_cases hblank : layout.blank serialized
    · simp only [if_pos hblank]
      exact .pure le_rfl
    · simp only [if_neg hblank]
      exact .of_slice (fun _ ↦ .ok (leading ++ serialized ++ newline ++ newline)) le_rfl
        fun _ _ ↦ rfl
  · exact le_rfl

variable [DecidableEq N]

theorem splice_slice {start stop : ℕ} (hle : start ≤ stop) :
    splice source ⟨start, stop, slice source start stop⟩ = source := by
  calc
    source.take start ++ slice source start stop ++ source.drop stop =
        source.take start ++ ((source.drop start).take (stop - start) ++
          (source.drop start).drop (stop - start)) := by
      rw [drop_drop, show start + (stop - start) = stop by omega, append_assoc, slice]
    _ = source := by rw [take_append_drop, take_append_drop]

theorem applyRegion_local {start stop : ℕ} {model edited provenance : List N} (hle : start ≤ stop) :
    Local start stop fun text ↦ applyRegion codec text start stop model edited provenance := by
  let replacement (span : Source) : Except Refusal Source := do
    codec.validateProvenance provenance edited
    let before ← codec.normalize model
    let after ← codec.normalize edited
    if before = after then pure span
    else
      let serialized ← codec.markdown after (newlineOf span)
      pure (serialized ++ codec.ending span)
  have hreplacement : ∀ text : Source, stop ≤ text.length →
      applyRegion codec text start stop model edited provenance =
        (fun r ↦ splice text ⟨start, stop, r⟩) <$> replacement (slice text start stop) := by
    intro text hlength
    simp only [applyRegion, replacement, require, if_pos (And.intro hle hlength)]
    cases codec.validateProvenance provenance edited with
    | error e => rfl
    | ok u =>
      cases codec.normalize model with
      | error e => rfl
      | ok before =>
        cases codec.normalize edited with
        | error e => rfl
        | ok after =>
          by_cases hsame : before = after
          · simp only [bind, Except.bind, if_pos hsame, pure, Except.pure, Functor.map, Except.map,
              splice_slice hle]
          · simp only [bind, Except.bind, if_neg hsame, pure, Except.pure]
            cases codec.markdown after (newlineOf (slice text start stop)) with
            | error e => rfl
            | ok serialized => rfl
  exact Local.of_slice replacement hle hreplacement

/-- An insertion at a position. -/
theorem insertion_local {position : ℕ} {c : Except Refusal Source} {leading trailing : Source} :
    Local position position fun text ↦ (do
      let serialized ← c
      pure (splice text ⟨position, position, leading ++ serialized ++ trailing⟩) :
        Except Refusal Source) := by
  apply Local.of_slice (fun _ ↦ c.map fun serialized ↦ leading ++ serialized ++ trailing) le_rfl
  intro text _
  cases c <;> rfl

theorem applyHunk_local (hslots : InOrder first more) (hlast : h.b ≤ (first :: more).length) :
    Local (h.low first more) (h.high first more)
      (applyHunk codec newline ending first more old new h) := by
  by_cases hlt : h.a < h.b
  · obtain ⟨left, hleft⟩ : ∃ left, (first :: more)[h.a]? = some left :=
      ⟨_, getElem?_eq_getElem (by omega)⟩
    obtain ⟨right, hright⟩ : ∃ right, (first :: more)[h.b - 1]? = some right :=
      ⟨_, getElem?_eq_getElem (by omega)⟩
    have hlow : h.low first more = left.start := by
      rw [low, hleft]
      rfl
    have hhigh : h.high first more = right.stop := by
      rw [high, if_pos hlt, hright]
      rfl
    have hle : left.start ≤ right.stop := hslots.start_le (by omega) hleft hright
    have hstep : applyHunk codec newline ending first more old new h = fun text ↦
        applyRegion codec text left.start right.stop ((old.drop h.a).take (h.b - h.a))
          (h.brings new) old := by
      funext text
      rw [applyHunk, if_pos hlt, hleft, hright]
      rfl
    rw [hlow, hhigh, hstep]
    exact applyRegion_local hle
  · have hhigh : h.high first more = h.low first more := by rw [high, if_neg hlt]
    rw [hhigh]
    let next := (first :: more)[h.a]?
    let leading := if next.isSome then []
      else (replicate (2 - countBreaks ending) newline).flatten
    let trailing := if next.isSome then newline ++ newline
      else if ending = [] then [] else newline
    have hstep : applyHunk codec newline ending first more old new h = fun text ↦ (do
        let serialized ← codec.markdown (h.brings new) newline
        pure (splice text
          ⟨h.low first more, h.low first more, leading ++ serialized ++ trailing⟩)) := by
      funext text
      rw [applyHunk, if_neg hlt]
      rfl
    rw [hstep]
    exact insertion_local

theorem applyHunks_local (hslots : InOrder first more)
    (hfollow : Follow (first :: more).length hunks) :
    Local first.start (more.getLastD first).stop fun text ↦ hunks.reverse.foldlM
      (fun text h ↦ applyHunk codec newline ending first more old new h text) text := by
  apply Local.foldrM (fun h hh ↦ applyHunk_local hslots (hfollow.ordered h hh).2)
  · intro h hh
    exact ⟨first_le_low hslots h, high_le_last hslots (hfollow.ordered h hh)⟩
  · exact hslots.start_le (zero_le _) rfl (getElem?_last first more)
  · exact hfollow.apart.imp_of_mem fun hh _ hhk ↦ high_le_low hslots (hfollow.ordered _ hh) hhk

theorem length_mapM {α β : Type} {f : α → Except Refusal β} {l : List α} {bs : List β}
    (h : l.mapM f = .ok bs) : bs.length = l.length := by
  induction l generalizing bs with
  | nil =>
    obtain rfl := ok.inj h
    rfl
  | cons a l ih =>
    obtain ⟨b, rest, -, hrest, rfl⟩ := mapM_cons_eq_ok.mp h
    rw [length_cons, length_cons, ih hrest]

theorem positionHunks_follow (old new : List (List N)) :
    Follow old.length (positionHunks old new) where
  ordered := by
    intro h hh
    obtain ⟨i, hi, hsome⟩ := mem_filterMap.mp hh
    obtain ⟨-, hsome⟩ := ite_none_right_eq_some.mp hsome
    obtain rfl := some.inj hsome
    have hlt := mem_range.mp hi
    exact ⟨le_succ i, hlt⟩
  apart := by
    apply pairwise_lt_range.filterMap
    intro i j hij h hh k hk
    obtain ⟨-, hh⟩ := ite_none_right_eq_some.mp hh
    obtain ⟨-, hk⟩ := ite_none_right_eq_some.mp hk
    obtain rfl := some.inj hh
    obtain rfl := some.inj hk
    exact hij

theorem Diff.follow {α : Type} {old new : List α} {hunks : List Hunk} (h : Diff old new hunks) :
    Follow old.length hunks where
  ordered := fun hunk hhunk ↦ ⟨(h.within hunk hhunk).ordered.1, (h.within hunk hhunk).last.1⟩
  apart := h.separate.imp fun hab ↦ hab.1.le

theorem hunksOf_follow (h : hunksOf codec old new = .ok hunks) : Follow old.length hunks := by
  obtain ⟨normalizedOld, hold, h⟩ := bind_eq_ok.mp h
  obtain ⟨normalizedNew, -, h⟩ := bind_eq_ok.mp h
  obtain ⟨found, hfound, h⟩ := bind_eq_ok.mp h
  split at h
  · obtain rfl := ok.inj h
    exact ⟨by simp, by simp⟩
  · obtain rfl := ok.inj h
    rw [← length_mapM hold]
    split at hfound
    · obtain rfl := ok.inj hfound
      exact positionHunks_follow _ _
    · exact (changedHunks_diff hfound).follow

/-- `apply-run` rewrites its region. -/
theorem applyRunWith_local {region : Region N} {model : List N} (hregion : region.Sound source) :
    Local region.start region.stop (applyRunWith codec layout newline region model) := by
  have hle := hregion.start_le
  apply Local.const_bind hle
  intro _ _
  apply Local.const_bind hle
  intro new _
  cases region with
  | empty position => exact insertText_local
  | run first more =>
    have hslots := hregion.inOrder
    have hnonempty := hslots.nonempty first mem_cons_self
    simp only [if_neg hnonempty.ne]
    apply Local.const_bind hle
    intro hunks hhunks
    have hfollow := hunksOf_follow hhunks
    rw [length_map] at hfollow
    let previous := more.getLastD first
    let old := (first :: more).map Editable.block
    apply Local.reading (fun text ↦ codec.ending (slice text previous.start previous.stop))
      fun ending text ↦ hunks.reverse.foldlM
        (fun text h ↦ applyHunk codec newline ending first more old new h text) text
    · intro text post hlength
      exact congrArg codec.ending (slice_append hlength)
    · intro ending
      exact applyHunks_local hslots hfollow
    · exact hle

end Local

end Simmis.RichDocuments
