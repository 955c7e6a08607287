import Simmis.Documents.Blocks
import Mathlib.Data.List.Chain

/-!
# Projections of a document

The top-level nodes of a Markdown source that rich text can edit form regions. Each region is a run
of neighbours without anything else between them, or the place inside an empty block.
-/

namespace Simmis.RichDocuments

open List Option Maps
open Documents (Block Node Uuid)

abbrev Source := List ℕ

/-- `subs` -/
def slice (source : Source) (start stop : ℕ) : Source := (source.drop start).take (stop - start)

/-- A top-level node, with the block that rich text makes of it. -/
structure Slot (N : Type) where
  start : ℕ
  stop : ℕ
  model : Option N

/-- A slot with a model. -/
structure Editable (N : Type) where
  start : ℕ
  stop : ℕ
  block : N

def Slot.editable? {N : Type} (slot : Slot N) : Option (Editable N) :=
  slot.model.map fun block ↦ ⟨slot.start, slot.stop, block⟩

inductive Region (N : Type)
  | empty (position : ℕ)
  | run (first : Editable N) (more : List (Editable N))

namespace Region

variable {N : Type}

/-- `:from` -/
def start : Region N → ℕ
  | empty position => position
  | run first _ => first.start

/-- `:to` -/
def stop : Region N → ℕ
  | empty position => position
  | run first more => (more.getLastD first).stop

/-- The slots with a block. -/
def slots : Region N → List (Editable N)
  | empty _ => []
  | run first more => first :: more

/-- The content of `:model`. -/
def content (region : Region N) : List N := region.slots.map Editable.block

end Region

/-- A part of the projected document. A region is known by its position. -/
inductive Part (N : Type)
  | block (id : Uuid) (content : List (Part N))
  | region (key : ℕ) (owner : Option Uuid) (content : List N)
  | opaqueNode (key : ℕ) (label : Source) (content : List (Part N))
  | other

/-- A node or a block with an identity, in which its own entries stand in order. -/
inductive Entry
  | node (start stop : ℕ)
  | container (start : ℕ) (id : Uuid) (entries : List Entry)

namespace Entry

/-- `:from` -/
def start : Entry → ℕ
  | node start _ => start
  | container start _ _ => start

/-- `sort-by :from` -/
def sort (entries : List Entry) : List Entry := entries.insertionSort fun a b ↦ a.start ≤ b.start

def ofNode (n : Node) : Entry := node n.start n.stop

/-- A block with its syntax and its children. -/
def ofBlock : Block → Entry
  | .mk id _ span _ syntactic _ children =>
    container span.start id (sort (syntactic.map ofNode ++ children.map ofBlock))

/-- A block of the top level stands for its syntax unless it has an identity. -/
def ofTop : Block → List Entry
  | .mk id .explicit span regions syntactic ordinal children =>
    [ofBlock (.mk id .explicit span regions syntactic ordinal children)]
  | .mk _ _ _ _ syntactic _ _ => syntactic.map ofNode

end Entry

structure Analysis (N : Type) where
  slots : List (Slot N)
  blocks : List Block
  bodyFrom : Option ℕ

/-- The document that is edited, and the regions of the source under their keys. -/
structure Projection (N : Type) where
  model : List (Part N)
  regions : List (ℕ × Region N)

/-- Text that is blank, and the paragraph that stands in an empty region. -/
structure Layout (N : Type) where
  blank : Source → Bool
  emptyParagraph : N

section Project

variable {N : Type} (layout : Layout N) (source : Source) (slots : List (Slot N))

/-- `(get slots from)`; a later slot replaces an earlier one. -/
def slotAt (start : ℕ) : Option (Slot N) :=
  Maps.get? (Maps.ofPairs (slots.map fun s ↦ (s.start, s))) start

def editableAt (start : ℕ) : Option (Editable N) := (slotAt slots start).bind Slot.editable?

/-- The neighbours that join the run of `previous`, and what is left. -/
def takeRun (previous : Editable N) : List Entry → List (Editable N) × List Entry
  | .node start stop :: rest =>
    match editableAt slots start with
    | some slot =>
      if layout.blank (slice source previous.stop start) then
        let (more, left) := takeRun slot rest
        (slot :: more, left)
      else ([], .node start stop :: rest)
    | none => ([], .node start stop :: rest)
  | entries => ([], entries)

theorem sizeOf_takeRun (previous : Editable N) (entries : List Entry) :
    sizeOf (takeRun layout source slots previous entries).2 ≤ sizeOf entries := by
  fun_induction takeRun layout source slots previous entries with
  | case1 previous start stop rest slot hslot hblank more left hrec ih =>
    rw [hrec] at ih
    exact ih.trans (by simp)
  | case2 => exact le_rfl
  | case3 => exact le_rfl
  | case4 => exact le_rfl

def emptyRegion (position : ℕ) (owner : Option Uuid) : List (Part N) × List (ℕ × Region N) :=
  ([.region position owner [layout.emptyParagraph]], [(position, .empty position)])

/-- `render-entries`: the parts, and the regions in the order in which they are found. -/
def renderEntries (owner : Option Uuid) : List Entry → List (Part N) × List (ℕ × Region N)
  | [] => ([], [])
  | .container start id entries :: rest =>
    let nested :=
      if entries = [] then
        emptyRegion layout (((slotAt slots start).map Slot.stop).getD 0) (some id)
      else renderEntries (some id) entries
    let later := renderEntries owner rest
    (.block id nested.1 :: later.1, nested.2 ++ later.2)
  | .node start stop :: rest =>
    match editableAt slots start with
    | some first =>
      let run := takeRun layout source slots first rest
      let region := Region.run first run.1
      let later := renderEntries owner run.2
      (.region first.start owner region.content :: later.1, (first.start, region) :: later.2)
    | none =>
      let later := renderEntries owner rest
      (.opaqueNode start (slice source start stop) [] :: later.1, later.2)
termination_by entries => sizeOf entries
decreasing_by
  all_goals
    simp only [List.cons.sizeOf_spec, Entry.container.sizeOf_spec, Entry.node.sizeOf_spec]
    try have hsize := sizeOf_takeRun layout source slots first rest
    omega

/-- `project` -/
def project (analysis : Analysis N) : Option (Projection N) :=
  let entries := Entry.sort (analysis.blocks.flatMap Entry.ofTop)
  let result :=
    if analysis.blocks = [] then emptyRegion layout (analysis.bodyFrom.getD 0) none
    else renderEntries layout source analysis.slots none entries
  if result.1 = [] then none else some ⟨result.1, Maps.ofPairs result.2⟩

end Project

/-- `\r` or `\n` -/
def isBreak (u : ℕ) : Bool := u = 10 ∨ u = 13

/-- The top-level nodes of a source: in order, with line breaks between them. -/
structure Laid {N : Type} (layout : Layout N) (source : Source) (slots : List (Slot N)) : Prop where
  nonempty : ∀ slot ∈ slots, slot.start < slot.stop ∧ slot.stop ≤ source.length
  ordered : slots.Pairwise fun a b ↦ a.stop ≤ b.start
  blank : slots.IsChain fun a b ↦ layout.blank (slice source a.stop b.start)
  lines : slots.IsChain fun a b ↦
    ∃ i, a.start ≤ i ∧ i < b.start ∧ (source[i]?.any isBreak)

/-- The entries stand for the slots one after the other. A container has one in front of its entries
and one behind them. -/
inductive Spells {N : Type} : List Entry → List (Slot N) → Prop
  | nil : Spells [] []
  | node {slot : Slot N} {rest : List Entry} {later : List (Slot N)} (hrest : Spells rest later) :
    Spells (.node slot.start slot.stop :: rest) (slot :: later)
  | container {opening closing : Slot N} {id : Uuid} {entries rest : List Entry}
    {inner later : List (Slot N)} (hopening : opening.model = none)
    (hclosing : closing.model = none) (hinner : Spells entries inner) (hrest : Spells rest later) :
    Spells (.container opening.start id entries :: rest) (opening :: inner ++ closing :: later)

section Regions

variable {N : Type} {layout : Layout N} {source : Source} {all slots : List (Slot N)}
  {entries : List Entry}

theorem Laid.sublist_ordered (h : Laid layout source all) (hsub : slots.Sublist all) :
    slots.Pairwise fun a b ↦ a.stop ≤ b.start := h.ordered.sublist hsub

theorem Laid.nodup (h : Laid layout source all) : (all.map Slot.start).Nodup := by
  rw [List.Nodup, pairwise_map]
  refine h.ordered.imp_of_mem fun ha _ hab ↦ ?_
  have hlt := (h.nonempty _ ha).1
  omega

variable {slot : Slot N}

/-- A line break in front of the unit before `position`. -/
def Behind (source : Source) (position : ℕ) : Prop := ∃ i, i + 1 < position ∧ source[i]?.any isBreak

theorem Behind.mono {p q : ℕ} (h : Behind source p) (hpq : p ≤ q) : Behind source q := by
  obtain ⟨i, hi, hbreak⟩ := h
  exact ⟨i, by omega, hbreak⟩

theorem infix_tail (h : slot :: slots <:+: all) : slots <:+: all :=
  (suffix_cons slot slots).isInfix.trans h

def Editable.toSlot (e : Editable N) : Slot N := ⟨e.start, e.stop, some e.block⟩

theorem Slot.eq_toSlot {e : Editable N} (h : slot.editable? = some e) : slot = e.toSlot := by
  obtain ⟨start, stop, model⟩ := slot
  cases model with
  | none => exact absurd h (by simp [Slot.editable?])
  | some block =>
    obtain rfl := some.inj h
    rfl

/-- The slots of a region follow one another. -/
structure Region.Sound (source : Source) (region : Region N) : Prop where
  position : region.start ≤ source.length
  nonempty : ∀ slot ∈ region.slots, slot.start < slot.stop ∧ slot.stop ≤ source.length
  ordered : region.slots.Pairwise fun a b ↦ a.stop ≤ b.start

/-- Regions in order, with a line break in front of each but the first. -/
structure Placed (source : Source) (regions : List (ℕ × Region N)) : Prop where
  keys : ∀ p ∈ regions, p.1 = p.2.start
  sound : ∀ p ∈ regions, p.2.Sound source
  apart : regions.Pairwise fun p q ↦
    p.2.stop ≤ q.2.start ∧ p.2.start < q.2.start ∧ Behind source q.2.start

/-- The regions that stand between the slots. -/
structure Between (source : Source) (slots : List (Slot N)) (regions : List (ℕ × Region N)) : Prop
    extends Placed source regions where
  first : ∀ p ∈ regions, ∃ slot ∈ slots, slot.start ≤ p.2.start
  last : ∀ p ∈ regions, ∃ slot ∈ slots, p.2.stop ≤ slot.stop
  head : ∀ slot ∈ slots.head?, slot.model = none → ∀ p ∈ regions, slot.stop ≤ p.2.start

theorem Region.Sound.start_le {region : Region N} (h : region.Sound source) :
    region.start ≤ region.stop := by
  cases region with
  | empty position => exact le_rfl
  | run first more =>
    have hordered : ∀ e ∈ more, first.stop ≤ e.start := (pairwise_cons.mp h.ordered).1
    have hfirst := (h.nonempty first mem_cons_self).1
    simp only [Region.start, Region.stop]
    rcases mem_cons.mp getLastD_mem_cons with heq | hmem
    · rw [heq]
      omega
    · have hlast := hordered _ hmem
      have hlt := (h.nonempty _ (mem_cons_of_mem _ hmem)).1
      omega

theorem Between.nil : Between source ([] : List (Slot N)) [] where
  keys := by simp
  sound := by simp
  first := by simp
  last := by simp
  apart := .nil
  head := by simp

section

variable (h : Laid layout source all)
include h

theorem Laid.slotAt (hslot : slot ∈ all) : slotAt all slot.start = some slot := by
  have hnodup : ((all.map fun s ↦ (s.start, s)).map (·.1)).Nodup := by
    rw [List.map_map]
    exact h.nodup
  have hreverse : ((all.map fun s ↦ (s.start, s)).reverse.map (·.1)).Nodup := by
    rwa [map_reverse, nodup_reverse]
  rw [RichDocuments.slotAt, get?_ofPairs, get?_eq_some_iff hreverse, mem_reverse]
  exact mem_map_of_mem hslot

theorem Laid.editableAt (hslot : slot ∈ all) : editableAt all slot.start = slot.editable? := by
  rw [RichDocuments.editableAt, h.slotAt hslot]
  rfl

/-- Behind every node but the first there is a line break that is not its last unit. -/
theorem Laid.behind {before after : List (Slot N)} (hsub : before ++ slot :: after <:+: all)
    (hbefore : before ≠ []) : Behind source slot.stop := by
  obtain ⟨init, last, rfl⟩ := (eq_nil_or_concat before).resolve_left hbefore
  have hchain := (isChain_append.mp ( List.IsChain.infix h.lines hsub)).2.2
  obtain ⟨i, -, hi, hbreak⟩ := hchain last (by simp) slot (by simp)
  have hlt := (h.nonempty slot (hsub.subset (by simp))).1
  exact ⟨i, by omega, hbreak⟩

/-- What is left behind a run begins with something that rich text cannot edit. -/
theorem takeRun_spells {previous : Editable N} (hspells : Spells entries slots)
    (hsub : previous.toSlot :: slots <:+: all) :
    ∃ left, slots = (takeRun layout source all previous entries).1.map Editable.toSlot ++ left ∧
      Spells (takeRun layout source all previous entries).2 left ∧
      ∀ slot ∈ left.head?, slot.model = none := by
  fun_induction takeRun layout source all previous entries generalizing slots with
  | case1 previous start stop rest slot hslot hblank more left hrec ih =>
    cases hspells with
    | @node found _ later hrest =>
      have hmem : found ∈ all := hsub.subset (by simp)
      rw [h.editableAt hmem] at hslot
      obtain rfl := Slot.eq_toSlot hslot
      obtain ⟨left', hlater, hleft, hhead⟩ := ih hrest (infix_tail hsub)
      rw [hrec] at hlater hleft
      exact ⟨left', by rw [hlater]; rfl, hleft, hhead⟩
  | case2 previous start stop rest slot hslot hblank =>
    cases hspells with
    | @node found _ later hrest =>
      have hchain := List.IsChain.infix h.blank hsub
      exact absurd (isChain_cons_cons.mp hchain).1 hblank
  | case3 previous start stop rest hnone =>
    cases hspells with
    | @node found _ later hrest =>
      have hmem : found ∈ all := hsub.subset (by simp)
      rw [h.editableAt hmem] at hnone
      refine ⟨found :: later, rfl, .node hrest, fun slot hslot ↦ ?_⟩
      obtain rfl := some.inj hslot
      simpa [Slot.editable?] using hnone
  | case4 previous entries hentries =>
    refine ⟨slots, rfl, hspells, fun slot hslot ↦ ?_⟩
    cases hspells with
    | nil => exact absurd hslot (by simp)
    | node hrest => exact absurd rfl (hentries _ _ _)
    | container hopening _ _ _ =>
      obtain rfl := some.inj hslot
      exact hopening

end

variable {regions : List (ℕ × Region N)}

theorem Placed.empty {position : ℕ} (h : position ≤ source.length) :
    Placed source [(position, (.empty position : Region N))] where
  keys := by simp [Region.start]
  sound := by simpa using ⟨h, by simp [Region.slots], by simp [Region.slots]⟩
  apart := by simp

section

variable (h : Laid layout source all)
include h

/-- A slot that rich text cannot edit is left out. -/
theorem Between.cons (hsub : slot :: slots <:+: all) (hlater : Between source slots regions) :
    Between source (slot :: slots) regions where
  keys := hlater.keys
  sound := hlater.sound
  first := fun p hp ↦ by
    obtain ⟨s, hs, hle⟩ := hlater.first p hp
    exact ⟨s, mem_cons_of_mem _ hs, hle⟩
  last := fun p hp ↦ by
    obtain ⟨s, hs, hle⟩ := hlater.last p hp
    exact ⟨s, mem_cons_of_mem _ hs, hle⟩
  apart := hlater.apart
  head := fun s hs _ p hp ↦ by
    obtain rfl := some.inj hs
    obtain ⟨t, ht, hle⟩ := hlater.first p hp
    have hordered := h.sublist_ordered hsub.sublist
    exact ((pairwise_cons.mp hordered).1 t ht).trans hle

/-- What stands inside a container and what stands behind it. -/
theorem Between.append {opening closing : Slot N} {inner later : List (Slot N)}
    {nested : List (ℕ × Region N)} (hsub : opening :: inner ++ closing :: later <:+: all)
    (hnested : Between source (opening :: inner) nested) (hlater : Between source later regions) :
    Between source (opening :: inner ++ closing :: later) (nested ++ regions) := by
  have hordered := h.sublist_ordered hsub.sublist
  obtain ⟨-, hclosing, hcross⟩ := pairwise_append.mp hordered
  have hclosing := (pairwise_cons.mp hclosing).1
  have hbehind : Behind source closing.stop := h.behind hsub (by simp)
  have hnonempty := (h.nonempty closing (hsub.subset (by simp))).1
  refine ⟨⟨?_, ?_, ?_⟩, ?_, ?_, ?_⟩
  · exact fun p hp ↦ (mem_append.mp hp).elim (hnested.keys p) (hlater.keys p)
  · exact fun p hp ↦ (mem_append.mp hp).elim (hnested.sound p) (hlater.sound p)
  · refine pairwise_append.mpr ⟨hnested.apart, hlater.apart, fun p hp q hq ↦ ?_⟩
    obtain ⟨s, hs, hlast⟩ := hnested.last p hp
    obtain ⟨t, ht, hfirst⟩ := hlater.first q hq
    have hfront := hcross s hs closing mem_cons_self
    have hback := hclosing t ht
    have hle := (hnested.sound p hp).start_le
    exact ⟨by omega, by omega, hbehind.mono (by omega)⟩
  · intro p hp
    rcases mem_append.mp hp with hp | hp
    · obtain ⟨s, hs, hle⟩ := hnested.first p hp
      exact ⟨s, mem_append_left _ hs, hle⟩
    · obtain ⟨s, hs, hle⟩ := hlater.first p hp
      exact ⟨s, by simp [hs], hle⟩
  · intro p hp
    rcases mem_append.mp hp with hp | hp
    · obtain ⟨s, hs, hle⟩ := hnested.last p hp
      exact ⟨s, mem_append_left _ hs, hle⟩
    · obtain ⟨s, hs, hle⟩ := hlater.last p hp
      exact ⟨s, by simp [hs], hle⟩
  · intro slot hslot hmodel p hp
    rcases mem_append.mp hp with hp | hp
    · exact hnested.head slot hslot hmodel p hp
    · obtain rfl := some.inj hslot
      obtain ⟨t, ht, hfirst⟩ := hlater.first p hp
      have hall := (pairwise_cons.mp (cons_append ▸ hordered)).1 t (by simp [ht])
      omega

theorem Between.run {first : Editable N} {more : List (Editable N)} {left : List (Slot N)}
    (hsub : first.toSlot :: (more.map Editable.toSlot ++ left) <:+: all)
    (hhead : ∀ slot ∈ left.head?, slot.model = none) (hlater : Between source left regions) :
    Between source (first.toSlot :: (more.map Editable.toSlot ++ left))
      ((first.start, .run first more) :: regions) := by
  have hordered := h.sublist_ordered hsub.sublist
  rw [← cons_append] at hordered hsub ⊢
  obtain ⟨hrun, hleft, hcross⟩ := pairwise_append.mp hordered
  have hmem : ∀ e ∈ first :: more, e.toSlot ∈ first.toSlot :: more.map Editable.toSlot :=
    fun e he ↦ mem_map_of_mem he
  have hspan : ∀ e ∈ first :: more, e.start < e.stop ∧ e.stop ≤ source.length := fun e he ↦
    h.nonempty e.toSlot (hsub.subset (mem_append_left _ (hmem e he)))
  have hlast : more.getLastD first ∈ first :: more := getLastD_mem_cons
  have hsound : (Region.run first more).Sound source := by
    refine ⟨?_, hspan, ?_⟩
    · have hfirst := hspan first mem_cons_self
      simp only [Region.start]
      omega
    · rw [← map_cons, pairwise_map] at hrun
      exact hrun
  refine ⟨⟨?_, ?_, ?_⟩, ?_, ?_, ?_⟩
  · exact forall_mem_cons.mpr ⟨rfl, hlater.keys⟩
  · exact forall_mem_cons.mpr ⟨hsound, hlater.sound⟩
  · refine pairwise_cons.mpr ⟨fun q hq ↦ ?_, hlater.apart⟩
    obtain ⟨t, ht, -⟩ := hlater.first q hq
    -- What ends the run is not a region itself, so a whole node separates the two regions.
    obtain ⟨c, left, rfl⟩ := exists_cons_of_ne_nil (ne_nil_of_mem ht)
    have hbehind : Behind source c.stop := h.behind hsub (by simp)
    have hq := hlater.head c rfl (hhead c rfl) q hq
    have hfront : (more.getLastD first).stop ≤ c.start := hcross _ (hmem _ hlast) c mem_cons_self
    have hnonempty := (h.nonempty c (hsub.subset (by simp))).1
    have hle := hsound.start_le
    change first.start ≤ (more.getLastD first).stop at hle
    change (more.getLastD first).stop ≤ q.2.start ∧ first.start < q.2.start ∧ _
    exact ⟨by omega, by omega, hbehind.mono (by omega)⟩
  · refine forall_mem_cons.mpr ⟨⟨first.toSlot, by simp, le_rfl⟩, fun p hp ↦ ?_⟩
    obtain ⟨s, hs, hle⟩ := hlater.first p hp
    exact ⟨s, by simp [hs], hle⟩
  · refine forall_mem_cons.mpr
      ⟨⟨_, mem_append_left _ (hmem _ hlast), le_rfl⟩, fun p hp ↦ ?_⟩
    obtain ⟨s, hs, hle⟩ := hlater.last p hp
    exact ⟨s, by simp [hs], hle⟩
  · intro slot hslot hmodel
    obtain rfl := some.inj hslot
    exact absurd hmodel (by simp [Editable.toSlot])

/-- The place inside an empty container. -/
theorem Between.empty {opening : Slot N} (hopening : opening ∈ all) :
    Between source [opening] [(opening.stop, .empty opening.stop)] := by
  obtain ⟨hlt, hle⟩ := h.nonempty opening hopening
  refine ⟨.empty hle, ?_, by simp [Region.stop], by simp [Region.start]⟩
  simpa [Region.start] using hlt.le

theorem renderEntries_between {owner : Option Uuid} (hspells : Spells entries slots)
    (hsub : slots <:+: all) :
    Between source slots (renderEntries layout source all owner entries).2 := by
  induction owner, entries using renderEntries.induct layout source all generalizing slots with
  | case1 owner =>
    cases hspells
    rw [renderEntries]
    exact .nil
  | case2 owner start id entries rest ihinner ihrest =>
    cases hspells with
    | @container opening closing _ _ _ inner later hopening hclosing hinner hrest =>
      have hopened : opening ∈ all := hsub.subset (by simp)
      have hrest := ihrest hrest (infix_tail
        ((suffix_append (opening :: inner) (closing :: later)).isInfix.trans hsub))
      have hinside : opening :: inner <:+: all :=
        (prefix_append (opening :: inner) (closing :: later)).isInfix.trans hsub
      rw [renderEntries]
      apply Between.append h hsub _ hrest
      split
      · next hempty =>
        subst hempty
        cases hinner
        rw [h.slotAt hopened]
        exact .empty h hopened
      · exact .cons h hinside (ihinner hinner (infix_tail hinside))
  | case3 owner start stop rest first hfirst run =>
    rename_i ih
    cases hspells with
    | @node slot _ later hrest =>
      have hmem : slot ∈ all := hsub.subset (by simp)
      have hslot := hfirst
      rw [h.editableAt hmem] at hslot
      obtain rfl := Slot.eq_toSlot hslot
      obtain ⟨left, rfl, hleft, hhead⟩ := takeRun_spells h hrest hsub
      rw [renderEntries, hfirst]
      apply Between.run h hsub hhead
      exact ih hleft ((suffix_append _ left).isInfix.trans (infix_tail hsub))
  | case4 owner start stop rest hnone ih =>
    cases hspells with
    | @node slot _ later hrest =>
      rw [renderEntries, hnone]
      exact .cons h hsub (ih hrest (infix_tail hsub))

end

theorem ofPairs_of_nodup {κ β : Type} [DecidableEq κ] {pairs : List (κ × β)}
    (h : (pairs.map (·.1)).Nodup) : ofPairs pairs = pairs := by
  induction pairs using reverseRecOn with
  | nil => rfl
  | append_singleton pairs p ih =>
    rw [map_append, nodup_append] at h
    obtain ⟨hpairs, -, hnew⟩ := h
    have hnone : get? pairs p.1 = none := by
      rw [← not_isSome_iff_eq_none, get?_isSome]
      exact fun hmem ↦ hnew p.1 hmem p.1 (by simp) rfl
    rw [ofPairs, foldl_append, ← ofPairs, ih hpairs]
    exact assoc_of_none hnone

theorem Placed.nodup (h : Placed source regions) : (regions.map (·.1)).Nodup := by
  rw [List.Nodup, pairwise_map]
  refine h.apart.imp_of_mem fun hp hq hpq ↦ ?_
  rw [h.keys _ hp, h.keys _ hq]
  exact hpq.2.1.ne

/-- The regions of a document whose blocks spell its nodes are placed in its source. -/
theorem project_placed {analysis : Analysis N} {projection : Projection N}
    (hlaid : Laid layout source analysis.slots)
    (hspells : Spells (Entry.sort (analysis.blocks.flatMap Entry.ofTop)) analysis.slots)
    (hbody : analysis.bodyFrom.getD 0 ≤ source.length)
    (hproject : project layout source analysis = some projection) :
    Placed source projection.regions := by
  let result :=
    if analysis.blocks = [] then emptyRegion layout (analysis.bodyFrom.getD 0) none
    else renderEntries layout source analysis.slots none
      (Entry.sort (analysis.blocks.flatMap Entry.ofTop))
  have hplaced : Placed source result.2 := by
    simp only [result]
    split
    · exact .empty hbody
    · exact (renderEntries_between hlaid hspells infix_rfl).toPlaced
  obtain ⟨-, hsome⟩ := ite_none_left_eq_some.mp hproject
  obtain rfl := some.inj hsome
  rwa [ofPairs_of_nodup hplaced.nodup]

end Regions

end Simmis.RichDocuments
