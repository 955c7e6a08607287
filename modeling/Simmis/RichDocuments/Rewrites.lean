import Simmis.RichDocuments.Analyses
import Simmis.RichDocuments.Edits
import Simmis.Library.Lists

/-!
# Rewrites of a rich document

All edited regions of a document are replaced at once, each by what editing it alone puts in its
place. Positions in the result are found by adding up what the regions in front have gained.
-/

namespace Simmis.RichDocuments

open List Option Except Nat Lists

open Documents
open LocalRewrites Substitutions

/-- What an edit may not change: the parts with those behind them. -/
inductive Topology
  | done
  | block (id : Uuid) (content next : Topology)
  | region (key : ℕ) (owner : Option Uuid) (next : Topology)
  | opaqueNode (key : ℕ) (label : Source) (next : Topology)
deriving DecidableEq

structure RegionEdit (N : Type) where
  start : ℕ
  stop : ℕ
  model : List N

/-- Where a region is in the edited source. -/
structure Located where
  key : ℕ
  start : ℤ
  stop : ℤ
  text : Source

section Rewrites

variable {N : Type} [DecidableEq N] (codec : Codec N) (layout : Layout N)

def topologyOf : List (Part N) → Except Refusal Topology
  | [] => pure .done
  | .block id content :: rest => do
    let inner ← topologyOf content
    let next ← topologyOf rest
    pure (.block id inner next)
  | .region key owner content :: rest => do
    let _ ← codec.markdown content [10]
    let next ← topologyOf rest
    pure (.region key owner next)
  | .opaqueNode key label content :: rest => do
    require (content = []) .boundary
    let next ← topologyOf rest
    pure (.opaqueNode key label next)
  | .other :: _ => .error .boundary

def topology (model : List (Part N)) : Except Refusal Topology := do
  codec.validateModel model
  topologyOf codec model

def regionModels : List (Part N) → List (ℕ × List N)
  | [] => []
  | .block _ content :: rest => regionModels content ++ regionModels rest
  | .region key _ content :: rest => (key, content) :: regionModels rest
  | .opaqueNode _ _ _ :: rest => regionModels rest
  | .other :: rest => regionModels rest

/-- The edit of a region, if its model has changed. -/
def editOf (models : List (ℕ × List N)) (p : ℕ × Region N) :
    Except Refusal (Option (RegionEdit N)) := do
  let edited ← demand (Maps.get? models p.1) .unsupported
  codec.validateProvenance p.2.content edited
  let before ← codec.normalize p.2.content
  let after ← codec.normalize edited
  pure (if before = after then none else some ⟨p.2.start, p.2.stop, edited⟩)

def edits (projection : Projection N) (model : List (Part N)) :
    Except Refusal (List (RegionEdit N)) := do
  let mine ← topology codec projection.model
  let theirs ← topology codec model
  require (mine = theirs) .boundary
  let found ← projection.regions.mapM (editOf codec (Maps.ofPairs (regionModels model)))
  pure (found.filterMap id)

/-- The region of an edit, found by its position. -/
def regionAt (projection : Projection N) (start : ℕ) : Except Refusal (Region N) :=
  demand ((projection.regions.map (·.2)).find? (·.start = start)) .index

def applyModel (source : Source) (projection : Projection N) (model : List (Part N)) :
    Except Refusal Source := do
  let changes ← edits codec projection model
  (changes.insertionSort fun a b ↦ b.start ≤ a.start).foldlM
    (fun text e ↦ do
      let region ← regionAt projection e.start
      applyRun codec layout text region e.model) source

/-- By how much an edit alone changes the length of the source. -/
def delta (source : Source) (projection : Projection N) (e : RegionEdit N) : Except Refusal ℤ := do
  let region ← regionAt projection e.start
  let text ← applyRun codec layout source region e.model
  pure ((text.length : ℤ) - source.length)

def regionSource (source : Source) (projection : Projection N) (model : List (Part N)) (key : ℕ) :
    Except Refusal (Option Located) :=
  match Maps.get? projection.regions key with
  | none => pure none
  | some region => do
    let changes ← edits codec projection model
    let early := changes.filter (·.start < region.start)
    let deltas ← early.mapM (delta codec layout source projection)
    let own ← (match changes.find? (·.start = region.start) with
      | some e => delta codec layout source projection e
      | none => .ok 0)
    let start := region.start + deltas.sum
    let stop := region.stop + deltas.sum + own
    let current ← applyModel codec layout source projection model
    pure (some ⟨key, start, stop, slice current start.toNat stop.toNat⟩)

end Rewrites

section Regions

variable {N : Type} {source : Source} {regions others : List (ℕ × Region N)}

/-- Regions that do not overlap, with a line break in front of each but the first. -/
structure Scattered (source : Source) (regions : List (ℕ × Region N)) : Prop where
  keys : ∀ p ∈ regions, p.1 = p.2.start
  sound : ∀ p ∈ regions, p.2.Sound source
  nodup : (regions.map fun p ↦ p.2.start).Nodup
  apart : ∀ p ∈ regions, ∀ q ∈ regions, p.2.start < q.2.start →
    p.2.stop ≤ q.2.start ∧ Behind source q.2.start

theorem Placed.scattered (h : Placed source regions) : Scattered source regions where
  keys := h.keys
  sound := h.sound
  nodup := pairwise_map.mpr (h.apart.imp fun hpq ↦ hpq.2.1.ne)
  apart := by
    intro p hp q hq hlt
    obtain ⟨i, hi, rfl⟩ := mem_iff_getElem.mp hp
    obtain ⟨j, hj, rfl⟩ := mem_iff_getElem.mp hq
    have hpairwise := pairwise_iff_getElem.mp h.apart
    rcases lt_trichotomy i j with hij | rfl | hji
    · have hboth := hpairwise i j hi hj hij
      exact ⟨hboth.1, hboth.2.2⟩
    · exact absurd hlt (lt_irrefl _)
    · have hback := (hpairwise j i hj hi hji).2.1
      omega

theorem Scattered.perm (h : Scattered source regions) (hperm : regions.Perm others) :
    Scattered source others where
  keys := fun p hp ↦ h.keys p (hperm.mem_iff.mpr hp)
  sound := fun p hp ↦ h.sound p (hperm.mem_iff.mpr hp)
  nodup := (hperm.map _).nodup_iff.mp h.nodup
  apart := fun p hp q hq ↦ h.apart p (hperm.mem_iff.mpr hp) q (hperm.mem_iff.mpr hq)

theorem Scattered.find? (h : Scattered source regions) {p : ℕ × Region N} (hp : p ∈ regions) :
    (regions.map (·.2)).find? (·.start = p.2.start) = some p.2 := by
  apply Maps.find?_of_mem Region.start
  · rw [List.map_map]
    exact h.nodup
  · exact mem_map_of_mem hp

theorem regionAt_of_mem {projection : Projection N}
    (hregions : Scattered source projection.regions) {p : ℕ × Region N}
    (hp : p ∈ projection.regions) : regionAt projection p.2.start = .ok p.2 := by
  rw [regionAt, hregions.find? hp]
  rfl

theorem Region.Sound.stop_le {region : Region N} (h : region.Sound source) :
    region.stop ≤ source.length := by
  cases region with
  | empty position => exact h.position
  | run first more => exact (h.nonempty _ getLastD_mem_cons).2

/-- A region is known by where it begins. -/
theorem region_unique (hregions : Scattered source regions) {p q : ℕ × Region N}
    (hp : p ∈ regions) (hq : q ∈ regions) (h : q.2.start = p.2.start) : q = p :=
  inj_on_of_nodup_map hregions.nodup hq hp h

theorem sort_pairwise {changes : List (RegionEdit N)}
    (hnodup : (changes.map RegionEdit.start).Nodup) :
    (changes.insertionSort fun a b ↦ b.start ≤ a.start).reverse.Pairwise
      fun e f ↦ e.start < f.start := by
  have hsorted : (changes.insertionSort fun a b ↦ b.start ≤ a.start).Pairwise
      fun a b ↦ b.start ≤ a.start := pairwise_insertionSort _ _
  have hdistinct := ((perm_insertionSort (fun a b ↦ b.start ≤ a.start) changes).map
    RegionEdit.start).nodup_iff.mpr hnodup
  rw [List.Nodup, pairwise_map] at hdistinct
  rw [pairwise_reverse]
  exact (hsorted.and hdistinct).imp fun hab ↦ lt_of_le_of_ne hab.1 hab.2.symm

end Regions

section Newlines

variable {source text front rest : Source} {k : ℕ}

theorem lineBreak?_append (h : ∃ i, i + 1 < front.length ∧ front[i]?.any isBreak) :
    lineBreak? (front ++ rest) = lineBreak? front := by
  induction front with
  | nil =>
    obtain ⟨i, hi, -⟩ := h
    exact absurd hi (by simp)
  | cons u front ih =>
    obtain ⟨i, hi, hbreak⟩ := h
    rw [length_cons] at hi
    have hhead : (front ++ rest).head? = front.head? := by
      cases front with
      | nil => exact absurd hi (by simp)
      | cons v front => rfl
    rw [cons_append, lineBreak?, lineBreak?, hhead]
    by_cases hu : isBreak u
    · simp only [hu, if_true]
    · have hlater : lineBreak? (front ++ rest) = lineBreak? front := by
        cases i with
        | zero => exact absurd (by simpa using hbreak) hu
        | succ i => exact ih ⟨i, by omega, by simpa using hbreak⟩
      rw [hlater]

/-- A line break that is not at the very end of a common front decides the style. -/
theorem newlineOf_congr (h : Behind source k) (hk : k ≤ source.length)
    (htake : text.take k = source.take k) : newlineOf text = newlineOf source := by
  obtain ⟨i, hi, hbreak⟩ := h
  have hfront : ∃ i, i + 1 < (source.take k).length ∧ (source.take k)[i]?.any isBreak := by
    refine ⟨i, ?_, ?_⟩
    · rw [length_take_of_le hk]
      exact hi
    · rwa [getElem?_take_of_lt (by omega)]
  calc
    newlineOf text = (lineBreak? (source.take k ++ text.drop k)).getD [10] := by
      rw [← htake, take_append_drop, newlineOf]
    _ = (lineBreak? (source.take k)).getD [10] := by rw [lineBreak?_append hfront]
    _ = (lineBreak? (source.take k ++ source.drop k)).getD [10] := by rw [lineBreak?_append hfront]
    _ = newlineOf source := by rw [take_append_drop, newlineOf]

end Newlines

section Changes

variable {N : Type} [DecidableEq N] {codec : Codec N} {layout : Layout N} {source : Source}
  {projection : Projection N} {changes : List (RegionEdit N)} {e : RegionEdit N}

variable {p : ℕ × Region N}

theorem editOf_span {models : List (ℕ × List N)} (h : editOf codec models p = .ok (some e)) :
    e.start = p.2.start ∧ e.stop = p.2.stop := by
  obtain ⟨edited, -, h⟩ := bind_eq_ok.mp h
  obtain ⟨_, -, h⟩ := bind_eq_ok.mp h
  obtain ⟨before, -, h⟩ := bind_eq_ok.mp h
  obtain ⟨after, -, h⟩ := bind_eq_ok.mp h
  have hsome := ok.inj h
  split at hsome
  · exact absurd hsome (by simp)
  · obtain rfl := some.inj hsome
    exact ⟨rfl, rfl⟩

theorem starts_sublist {models : List (ℕ × List N)} {regions : List (ℕ × Region N)}
    {found : List (Option (RegionEdit N))} (h : regions.mapM (editOf codec models) = .ok found) :
    ((found.filterMap id).map RegionEdit.start).Sublist (regions.map fun p ↦ p.2.start) := by
  induction regions generalizing found with
  | nil =>
    obtain rfl := ok.inj h
    exact nil_sublist _
  | cons p regions ih =>
    obtain ⟨edit, rest, hedit, hrest, rfl⟩ := mapM_cons_eq_ok.mp h
    have ih := ih hrest
    cases edit with
    | none => exact ih.cons _
    | some e =>
      have hstart := (editOf_span hedit).1
      simp only [filterMap_cons, id_eq, map_cons, hstart]
      exact ih.cons_cons _

variable {model : List (Part N)}

/-- Every edit belongs to a region, and no two to the same one. -/
theorem edits_spec (hregions : Scattered source projection.regions)
    (h : edits codec projection model = .ok changes) :
    (∀ e ∈ changes, ∃ p ∈ projection.regions, e.start = p.2.start ∧ e.stop = p.2.stop) ∧
      (changes.map RegionEdit.start).Nodup := by
  obtain ⟨mine, -, h⟩ := bind_eq_ok.mp h
  obtain ⟨theirs, -, h⟩ := bind_eq_ok.mp h
  obtain ⟨_, -, h⟩ := bind_eq_ok.mp h
  obtain ⟨found, hfound, h⟩ := bind_eq_ok.mp h
  obtain rfl := ok.inj h
  refine ⟨fun e he ↦ ?_, hregions.nodup.sublist (starts_sublist hfound)⟩
  obtain ⟨edit, hedit, rfl⟩ := mem_filterMap.mp he
  obtain ⟨p, hp, hspan⟩ := of_mem_mapM hfound hedit
  exact ⟨p, hp, editOf_span hspan⟩

/-- A later edit makes no difference to how a region is rewritten. -/
theorem applyRun_later {region : Region N} {model : List N} {text result : Source}
    (hregion : region.Sound source) (htake : text.take region.stop = source.take region.stop)
    (hlength : region.stop ≤ text.length) (hnewline : newlineOf text = newlineOf source)
    (h : applyRun codec layout text region model = .ok result) :
    ∃ replacement, applyRun codec layout source region model =
        .ok (splice source ⟨region.start, region.stop, replacement⟩) ∧
      result = splice text ⟨region.start, region.stop, replacement⟩ := by
  have hlocal : Local region.start region.stop
      (applyRunWith codec layout (newlineOf source) region model) := applyRunWith_local hregion
  rw [applyRun, hnewline, hlocal.eq_splice hlength, body_congr htake] at h
  obtain ⟨replacement, hbody, rfl⟩ := map_eq_ok.mp h
  refine ⟨replacement, ?_, rfl⟩
  rw [applyRun, hlocal.eq_splice hregion.stop_le, hbody]
  rfl

/-- The replacement that an edit alone makes of its region. -/
def Replaces (codec : Codec N) (layout : Layout N) (source : Source) (projection : Projection N)
    (e : RegionEdit N) (c : Edit ℕ) : Prop :=
  ∃ p ∈ projection.regions, e.start = p.2.start ∧ c.start = p.2.start ∧ c.stop = p.2.stop ∧
    applyRun codec layout source p.2 e.model = .ok (splice source c)

/-- One step of the reduction over the edits. -/
def applyEdit (codec : Codec N) (layout : Layout N) (projection : Projection N) (e : RegionEdit N)
    (text : Source) : Except Refusal Source := do
  let region ← regionAt projection e.start
  applyRun codec layout text region e.model

/-- The replacements of edits in order, each made in the source as it was. -/
structure Replaced (codec : Codec N) (layout : Layout N) (source : Source)
    (projection : Projection N) (changes : List (RegionEdit N)) (cs : List (Edit ℕ)) : Prop where
  each : List.Forall₂ (Replaces codec layout source projection) changes cs
  valid : ∀ c ∈ cs, c.start ≤ c.stop ∧ c.stop ≤ source.length
  before : cs.Pairwise Before

theorem Replaced.nil : Replaced codec layout source projection [] [] where
  each := .nil
  valid := by simp
  before := .nil

/-- Replacements behind a line break leave the newline style as it is. -/
theorem newlineOf_substitute {cs : List (Edit ℕ)}
    (h : Replaced codec layout source projection changes cs)
    (hbehind : ∀ c ∈ cs, Behind source c.start) :
    newlineOf (substitute source cs) = newlineOf source := by
  have hvalid := h.valid
  have hbefore := h.before
  cases cs with
  | nil =>
    rw [substitute, after_nil (zero_le _)]
    rfl
  | cons c rest =>
    obtain ⟨⟨hle, hstop⟩, -⟩ := forall_mem_cons.mp hvalid
    have hfirst := (pairwise_cons.mp hbefore).1
    have hstarts : ∀ d ∈ c :: rest, c.start ≤ d.start :=
      forall_mem_cons.mpr ⟨le_rfl, fun d hd ↦ hle.trans (hfirst d hd).1⟩
    have hk := hle.trans hstop
    apply newlineOf_congr (hbehind c mem_cons_self) hk
    rw [substitute_eq hk hstarts]
    exact take_left' (length_take_of_le hk)

/-- Behind a region that is edited there are only later replacements. -/
theorem applyEdits_replaced (hregions : Scattered source projection.regions)
    (hmem : ∀ e ∈ changes, ∃ p ∈ projection.regions, e.start = p.2.start ∧ e.stop = p.2.stop)
    (hordered : changes.Pairwise fun e f ↦ e.start < f.start) {current : Source}
    (h : changes.foldrM (applyEdit codec layout projection) source = .ok current) :
    ∃ cs, Replaced codec layout source projection changes cs ∧ current = substitute source cs := by
  induction changes generalizing current with
  | nil =>
    obtain rfl := ok.inj h
    refine ⟨[], .nil, ?_⟩
    rw [substitute, after_nil (zero_le _)]
    rfl
  | cons e rest ih =>
    obtain ⟨⟨p, hp, hstart, hstop⟩, hmem⟩ := forall_mem_cons.mp hmem
    obtain ⟨hfirst, hordered⟩ := pairwise_cons.mp hordered
    rw [foldrM_cons] at h
    obtain ⟨text, htext, h⟩ := bind_eq_ok.mp h
    obtain ⟨cs, hreplaced, rfl⟩ := ih hmem hordered htext
    have hsound := hregions.sound p hp
    -- Every later replacement begins behind this region, with a line break in front of it.
    have hlater : ∀ c ∈ cs, p.2.start < c.start ∧ p.2.stop ≤ c.start ∧ Behind source c.start := by
      intro c hc
      obtain ⟨f, hf, q, hq, hfstart, hcstart, -⟩ := forall₂_right hreplaced.each hc
      have hlt : p.2.start < q.2.start := by
        have hef := hfirst f hf
        omega
      have hapart := hregions.apart p hp q hq hlt
      rw [hcstart]
      exact ⟨hlt, hapart⟩
    have hfront := substitute_eq hsound.stop_le fun c hc ↦ (hlater c hc).2.1
    have hlength : (source.take p.2.stop).length = p.2.stop := length_take_of_le hsound.stop_le
    have htake : (substitute source cs).take p.2.stop = source.take p.2.stop := by
      rw [hfront]
      exact take_left' hlength
    have hlong : p.2.stop ≤ (substitute source cs).length := by
      rw [hfront, length_append, hlength]
      omega
    have hnewline := newlineOf_substitute hreplaced fun c hc ↦ (hlater c hc).2.2
    obtain ⟨region, hregion, h⟩ := bind_eq_ok.mp h
    rw [hstart, regionAt_of_mem hregions hp] at hregion
    obtain rfl := ok.inj hregion
    obtain ⟨replacement, hrun, rfl⟩ := applyRun_later hsound htake hlong hnewline h
    have hvalid : ∀ c ∈ (⟨p.2.start, p.2.stop, replacement⟩ : Edit ℕ) :: cs,
        c.start ≤ c.stop ∧ c.stop ≤ source.length :=
      forall_mem_cons.mpr ⟨⟨hsound.start_le, hsound.stop_le⟩, hreplaced.valid⟩
    have hbefore : ((⟨p.2.start, p.2.stop, replacement⟩ : Edit ℕ) :: cs).Pairwise Before :=
      pairwise_cons.mpr
        ⟨fun c hc ↦ ⟨(hlater c hc).2.1, (hlater c hc).1.ne⟩, hreplaced.before⟩
    refine ⟨_ :: cs, ⟨.cons ⟨p, hp, hstart, rfl, rfl, hrun⟩ hreplaced.each, hvalid, hbefore⟩, ?_⟩
    rw [← foldr_splice hvalid hbefore, foldr_cons,
      foldr_splice hreplaced.valid hreplaced.before]

/-- `apply-model` replaces all edited regions at once. -/
theorem applyModel_replaced {current : Source} (hregions : Scattered source projection.regions)
    (h : applyModel codec layout source projection model = .ok current) :
    ∃ changes ordered cs, edits codec projection model = .ok changes ∧ ordered.Perm changes ∧
      Replaced codec layout source projection ordered cs ∧ current = substitute source cs := by
  obtain ⟨changes, hchanges, h⟩ := bind_eq_ok.mp h
  obtain ⟨hmem, hnodup⟩ := edits_spec hregions hchanges
  let ordered := (changes.insertionSort fun a b ↦ b.start ≤ a.start).reverse
  have hperm : ordered.Perm changes := (reverse_perm _).trans (perm_insertionSort _ _)
  have hfold : ordered.foldrM (applyEdit codec layout projection) source = .ok current := by
    rw [← foldlM_reverse, reverse_reverse]
    exact h
  obtain ⟨cs, hreplaced, hcurrent⟩ := applyEdits_replaced hregions
    (fun e he ↦ hmem e (hperm.mem_iff.mp he)) (sort_pairwise hnodup) hfold
  exact ⟨changes, ordered, cs, hchanges, hperm, hreplaced, hcurrent⟩

variable {c : Edit ℕ} {ordered : List (RegionEdit N)} {cs : List (Edit ℕ)}

/-- What an edit gains, if it can be made. -/
def gainOf (codec : Codec N) (layout : Layout N) (source : Source) (projection : Projection N)
    (e : RegionEdit N) : ℤ :=
  (delta codec layout source projection e).toOption.getD 0

theorem Replaces.start_eq (h : Replaces codec layout source projection e c) :
    e.start = c.start := by
  obtain ⟨p, -, hstart, hc, -⟩ := h
  rw [hstart, hc]

theorem mapM_of_forall {α β : Type} {f : α → Except Refusal β} {g : α → β} {l : List α}
    (h : ∀ a ∈ l, f a = .ok (g a)) : l.mapM f = .ok (l.map g) := by
  induction l with
  | nil => rfl
  | cons a l ih =>
    obtain ⟨ha, hl⟩ := forall_mem_cons.mp h
    exact mapM_cons_eq_ok.mpr ⟨g a, l.map g, ha, ih hl, rfl⟩

/-- The text of a region stands between what the edits before and behind it make of the source. -/
structure Agrees (codec : Codec N) (layout : Layout N) (source : Source)
    (changes : List (RegionEdit N)) (cs : List (Edit ℕ)) (region : Region N) (current : Source)
    (located : Located) : Prop where
  place : ∃ front back, current = front ++ located.text ++ back ∧
    front = substitute (source.take region.start) (cs.filter (·.start < region.start)) ∧
    back = after source (cs.filter (region.start < ·.start)) region.stop ∧
    located.start = front.length ∧ located.stop = front.length + located.text.length
  edited : ∀ e ∈ changes, e.start = region.start → applyRun codec layout source region e.model =
    .ok (splice source ⟨region.start, region.stop, located.text⟩)
  unedited : (∀ e ∈ changes, e.start ≠ region.start) →
    located.text = slice source region.start region.stop

theorem region_edited (h : Replaced codec layout source projection ordered cs) {start : ℕ}
    (hc : c ∈ cs) (hstart : c.start = start) : after source (cs.filter (start ≤ ·.start)) start =
      c.text ++ after source (cs.filter (start < ·.start)) c.stop := by
  obtain ⟨rest, hrest⟩ : ∃ rest, cs.filter (start ≤ ·.start) = c :: rest := by
    apply eq_cons_of_first
    · exact fun d hd ↦ (h.valid d (mem_filter.mp hd).1).1
    · exact h.before.filter _
    · exact mem_filter.mpr ⟨hc, by simp [hstart]⟩
    · intro d hd
      rw [hstart]
      exact of_decide_eq_true (mem_filter.mp hd).2
  have hbefore : ∀ d ∈ rest, Before c d := by
    have hpairwise := h.before.filter (start ≤ ·.start)
    rw [hrest] at hpairwise
    exact (pairwise_cons.mp hpairwise).1
  have hlater : cs.filter (start < ·.start) = rest := by
    have hboth : (cs.filter (start ≤ ·.start)).filter (start < ·.start) =
        cs.filter (start < ·.start) := by
      rw [List.filter_filter]
      apply filter_congr
      intro d _
      rw [← Bool.decide_and, decide_eq_decide]
      omega
    rw [← hboth, hrest, filter_cons_of_neg (by simp [hstart])]
    apply filter_eq_self.mpr
    intro d hd
    obtain ⟨hle, hne⟩ := hbefore d hd
    have hvalid := (h.valid c hc).1
    exact decide_eq_true (by omega)
  obtain ⟨hle, hstop⟩ := h.valid c hc
  rw [hrest, hlater, ← hstart]
  exact after_cons hle hstop hbefore

section

variable (hregions : Scattered source projection.regions)
include hregions

/-- `delta` is what a replacement gains. -/
theorem delta_eq (h : Replaces codec layout source projection e c)
    (hvalid : c.start ≤ c.stop ∧ c.stop ≤ source.length) :
    delta codec layout source projection e = .ok (gain c) := by
  obtain ⟨p, hp, hstart, -, -, hrun⟩ := h
  have hlength : ((splice source c).length : ℤ) - source.length = gain c := by
    simp only [splice, length_append, length_take, length_drop, gain]
    omega
  rw [delta, hstart, regionAt_of_mem hregions hp]
  change (applyRun codec layout source p.2 e.model >>= fun text ↦
    pure ((text.length : ℤ) - source.length)) = _
  rw [hrun]
  exact congrArg ok hlength

theorem gainOf_eq (h : Replaces codec layout source projection e c)
    (hvalid : c.start ≤ c.stop ∧ c.stop ≤ source.length) :
    gainOf codec layout source projection e = gain c := by
  rw [gainOf, delta_eq hregions h hvalid]
  rfl

theorem map_gainOf {k : ℕ} (hvalid : ∀ c ∈ cs, c.start ≤ c.stop ∧ c.stop ≤ source.length)
    (h : List.Forall₂ (Replaces codec layout source projection) ordered cs) :
    (ordered.filter (·.start < k)).map (gainOf codec layout source projection) =
      (cs.filter (·.start < k)).map gain := by
  induction h with
  | nil => rfl
  | @cons e c ordered cs hec _ ih =>
    obtain ⟨hc, hvalid⟩ := forall_mem_cons.mp hvalid
    have ih := ih hvalid
    by_cases hk : c.start < k
    · rw [filter_cons_of_pos (by simpa [hec.start_eq] using hk),
        filter_cons_of_pos (by simpa using hk), map_cons, map_cons, ih,
        gainOf_eq hregions hec hc]
    · rw [filter_cons_of_neg (by simpa [hec.start_eq] using hk),
        filter_cons_of_neg (by simpa using hk), ih]

/-- In the place of a region is its replacement, or the source. -/
theorem region_cases (h : Replaced codec layout source projection ordered cs)
    (hp : p ∈ projection.regions) : substitute source cs =
        substitute (source.take p.2.start) (cs.filter (·.start < p.2.start)) ++
          after source (cs.filter (p.2.start ≤ ·.start)) p.2.start ∧
      ((substitute (source.take p.2.start) (cs.filter (·.start < p.2.start))).length : ℤ) =
        p.2.start + ((cs.filter (·.start < p.2.start)).map gain).sum := by
  have hsound := hregions.sound p hp
  have hcut : ∀ c ∈ cs, c.start < p.2.start → c.stop ≤ p.2.start := by
    intro c hc hlt
    obtain ⟨e, -, q, hq, -, hstart, hstop, -⟩ := forall₂_right h.each hc
    rw [hstop]
    exact (hregions.apart q hq p hp (by omega)).1
  refine ⟨substitute_cut hcut hsound.position, ?_⟩
  rw [length_substitute, length_take_of_le hsound.position]
  · intro c hc
    obtain ⟨hc, hlt⟩ := mem_filter.mp hc
    rw [length_take_of_le hsound.position]
    exact ⟨(h.valid c hc).1, hcut c hc (of_decide_eq_true hlt)⟩
  · exact h.before.filter _

theorem region_unedited (h : Replaced codec layout source projection ordered cs)
    (hp : p ∈ projection.regions) (hnone : ∀ c ∈ cs, c.start ≠ p.2.start) :
    after source (cs.filter (p.2.start ≤ ·.start)) p.2.start = slice source p.2.start p.2.stop ++
        after source (cs.filter (p.2.start < ·.start)) p.2.stop := by
  have hsound := hregions.sound p hp
  have hfilter : cs.filter (p.2.start ≤ ·.start) = cs.filter (p.2.start < ·.start) := by
    apply filter_congr
    intro c hc
    have hne := hnone c hc
    rw [decide_eq_decide]
    omega
  rw [hfilter]
  apply after_eq hsound.start_le hsound.stop_le
  intro c hc
  obtain ⟨hc, hlt⟩ := mem_filter.mp hc
  obtain ⟨e, -, q, hq, -, hstart, -, -⟩ := forall₂_right h.each hc
  have hlt := of_decide_eq_true hlt
  rw [hstart] at hlt ⊢
  exact (hregions.apart p hp q hq hlt).1

/-- The own part of `region-source`, and what it gains. -/
theorem region_text (hnodup : (changes.map RegionEdit.start).Nodup) (hperm : ordered.Perm changes)
    (h : Replaced codec layout source projection ordered cs) (hp : p ∈ projection.regions) :
    ∃ text, after source (cs.filter (p.2.start ≤ ·.start)) p.2.start =
        text ++ after source (cs.filter (p.2.start < ·.start)) p.2.stop ∧
      (match changes.find? (·.start = p.2.start) with
        | some e => delta codec layout source projection e
        | none => .ok 0) = .ok ((text.length : ℤ) - (p.2.stop - p.2.start)) ∧
      (∀ e ∈ changes, e.start = p.2.start → applyRun codec layout source p.2 e.model =
        .ok (splice source ⟨p.2.start, p.2.stop, text⟩)) ∧
      ((∀ e ∈ changes, e.start ≠ p.2.start) → text = slice source p.2.start p.2.stop) := by
  have hsound := hregions.sound p hp
  cases hfind : changes.find? (·.start = p.2.start) with
  | none =>
    have hnone : ∀ e ∈ changes, e.start ≠ p.2.start := by simpa using find?_eq_none.mp hfind
    have hcs : ∀ c ∈ cs, c.start ≠ p.2.start := by
      intro c hc
      obtain ⟨e, he, hec⟩ := forall₂_right h.each hc
      rw [← hec.start_eq]
      exact hnone e (hperm.mem_iff.mp he)
    refine ⟨slice source p.2.start p.2.stop, region_unedited hregions h hp hcs, ?_,
      fun e he hstart ↦ absurd hstart (hnone e he), fun _ ↦ rfl⟩
    have hlength : ((slice source p.2.start p.2.stop).length : ℤ) = p.2.stop - p.2.start := by
      have hle := hsound.start_le
      have hstop := hsound.stop_le
      simp only [slice, length_take, length_drop]
      omega
    rw [hlength, Int.sub_self]
  | some e =>
    have he := mem_of_find?_eq_some hfind
    have hstart : e.start = p.2.start := by simpa using find?_some hfind
    obtain ⟨c, hc, hec⟩ := forall₂_left h.each (hperm.mem_iff.mpr he)
    have hdelta := delta_eq hregions hec (h.valid c hc)
    have hcstart : c.start = p.2.start := hec.start_eq.symm.trans hstart
    obtain ⟨q, hq, -, hqstart, hqstop, hrun⟩ := hec
    obtain rfl := region_unique hregions hp hq (hqstart.symm.trans hcstart)
    have hspan : (⟨q.2.start, q.2.stop, c.text⟩ : Edit ℕ) = c := by
      rw [← hqstart, ← hqstop]
    refine ⟨c.text, ?_, ?_, ?_, fun hnone ↦ absurd hstart (hnone e he)⟩
    · rw [← hqstop]
      exact region_edited h hc hcstart
    · rw [← hqstart, ← hqstop]
      exact hdelta
    · intro e' he' hstart'
      obtain rfl := inj_on_of_nodup_map hnodup he' he (hstart'.trans hstart.symm)
      rw [hspan]
      exact hrun

theorem regionSource_agrees (hchanges : edits codec projection model = .ok changes)
    (hperm : ordered.Perm changes) (h : Replaced codec layout source projection ordered cs)
    (hcurrent : applyModel codec layout source projection model = .ok (substitute source cs))
    (hp : p ∈ projection.regions) (hkey : Maps.get? projection.regions p.1 = some p.2) :
    ∃ located, regionSource codec layout source projection model p.1 = .ok (some located) ∧
      Agrees codec layout source changes cs p.2 (substitute source cs) located := by
  have hnodup := (edits_spec hregions hchanges).2
  have hdelta : ∀ e ∈ changes, delta codec layout source projection e =
      .ok (gainOf codec layout source projection e) := by
    intro e he
    obtain ⟨c, hc, hec⟩ := forall₂_left h.each (hperm.mem_iff.mpr he)
    rw [delta_eq hregions hec (h.valid c hc), gainOf_eq hregions hec (h.valid c hc)]
  let early := changes.filter (·.start < p.2.start)
  let gains := early.map (gainOf codec layout source projection)
  have hgains : early.mapM (delta codec layout source projection) = .ok gains :=
    mapM_of_forall fun e he ↦ hdelta e (mem_filter.mp he).1
  have hsum : gains.sum = ((cs.filter (·.start < p.2.start)).map gain).sum := by
    rw [← map_gainOf hregions h.valid h.each]
    exact ((hperm.symm.filter _).map _).sum_eq
  obtain ⟨hcurrentEq, hfront⟩ := region_cases hregions h hp
  obtain ⟨text, htext, hown, hedited, hunedited⟩ := region_text hregions hnodup hperm h hp
  let front := substitute (source.take p.2.start) (cs.filter (·.start < p.2.start))
  let back := after source (cs.filter (p.2.start < ·.start)) p.2.stop
  have hplace : substitute source cs = front ++ text ++ back := by
    rw [hcurrentEq, htext, append_assoc]
  have hstart : (p.2.start : ℤ) + gains.sum = front.length := by rw [hsum, hfront]
  have hstop : (p.2.stop : ℤ) + gains.sum + (text.length - (p.2.stop - p.2.start)) =
      front.length + text.length := by
    omega
  have hslice : slice (substitute source cs) ((front.length : ℤ)).toNat
      ((front.length : ℤ) + text.length).toNat = text := by
    rw [hplace, show ((front.length : ℤ) + text.length).toNat = front.length + text.length by omega,
      Int.toNat_natCast, slice, append_assoc, drop_left, Nat.add_sub_cancel_left,
      take_left]
  refine ⟨⟨p.1, front.length, front.length + text.length, text⟩, ?_,
    ⟨front, back, hplace, rfl, rfl, rfl, rfl⟩, hedited, hunedited⟩
  rw [regionSource, hkey]
  simp only [hchanges, bind, Except.bind]
  rw [show (changes.filter (·.start < p.2.start)).mapM (delta codec layout source projection) =
    .ok gains from hgains]
  simp only [hown, hcurrent, hstart, hstop, hslice, pure, Except.pure]

end

end Changes

/-- A document without diagnostics. Its regions may be listed in any order. -/
structure RichDocument {N : Type} (layout : Layout N) (editor : Editor N) where
  hash : Uuid → Uuid → ℕ → ℕ → Uuid
  id : Uuid
  parsed : Parsed
  semantic : Documents.Blocks.Semantic
  bodyFrom : Option ℕ
  projected : Projection N
  regions : List (ℕ × Region N)
  blocks : Documents.Blocks.project hash id parsed = .ok semantic
  ready : semantic.diagnostics = []
  laid : Laid layout (Text.units parsed.source) (parsed.nodes.map (slotOf editor))
  body : bodyFrom.getD 0 ≤ (Text.units parsed.source).length
  projects : project layout (Text.units parsed.source)
    (analysisOf editor parsed semantic bodyFrom) = some projected
  listed : regions.Perm projected.regions

namespace RichDocument

variable {N : Type} {layout : Layout N} {editor : Editor N}

def source (doc : RichDocument layout editor) : Source := Text.units doc.parsed.source

def projection (doc : RichDocument layout editor) : Projection N :=
  ⟨doc.projected.model, doc.regions⟩

theorem scattered (doc : RichDocument layout editor) :
    Scattered doc.source doc.projection.regions := by
  have hordered : (doc.parsed.nodes.map (slotOf editor)).Pairwise fun a b ↦ a.start < b.start := by
    refine doc.laid.ordered.imp_of_mem fun ha _ hab ↦ ?_
    have hlt := (doc.laid.nonempty _ ha).1
    omega
  have hplaced := project_placed doc.laid (project_spells doc.blocks doc.ready hordered) doc.body
    doc.projects
  exact hplaced.scattered.perm doc.listed.symm

/-- A document that is one paragraph. -/
example : RichDocument (⟨fun text ↦ text.all isBreak, "p"⟩ : Layout String)
    ⟨fun node ↦ if node.kind = "Paragraph" then some "p" else none, by
      intro node h
      rw [if_neg]
      intro hkind
      simp [hkind, Blocks.commentKinds] at h⟩ where
  hash := fun _ _ start _ ↦ start
  id := 0
  parsed := ⟨"a\n", 0, none, [], [.mk "Paragraph" 0 2 []]⟩
  semantic := ⟨[.mk 0 .provisional ⟨0, 2⟩ [⟨0, 2⟩] [.mk "Paragraph" 0 2 []] 0 []], []⟩
  bodyFrom := none
  projected := ⟨[.region 0 none ["p"]], [(0, .run ⟨0, 2, "p"⟩ [])]⟩
  regions := [(0, .run ⟨0, 2, "p"⟩ [])]
  blocks := by
    simp [Blocks.project, Blocks.step, Blocks.marker, Blocks.commentKinds, Node.kind, Node.children,
      Node.start, Node.stop, Blocks.appendBlock, Blocks.plainBlock, Block.blocks, Block.id, bind,
      Except.bind, pure, Except.pure]
  ready := rfl
  laid := ⟨by simp [slotOf, Node.start, Node.stop]; decide, by simp, by simp, by simp⟩
  body := Nat.zero_le _
  projects := by
    simp [project, analysisOf, slotOf, Entry.sort, Entry.ofTop, Entry.ofNode, renderEntries,
      takeRun, editableAt, slotAt, Slot.editable?, Node.start, Node.stop, Node.kind, Maps.get?,
      Maps.ofPairs, Maps.assoc, Region.content, Region.slots]
  listed := .refl _

end RichDocument

/-- Hunks rebuild the new list around a longest common subsequence, and an edited document is its
source with the edited regions replaced. -/
theorem edits_touch_only_changes {α N : Type} [DecidableEq α] [DecidableEq N] (codec : Codec N)
    {layout : Layout N} {editor : Editor N} (doc : RichDocument layout editor) :
    (∀ old new : List α,
      (old.length * new.length ≤ maxCells →
        ∃ hunks, changedHunks old new = .ok hunks ∧ Diff old new hunks) ∧
      (maxCells < old.length * new.length → changedHunks old new = .error .limit)) ∧
    ∀ model current, applyModel codec layout doc.source doc.projection model = .ok current →
      ∃ changes ordered cs, edits codec doc.projection model = .ok changes ∧ ordered.Perm changes ∧
        Replaced codec layout doc.source doc.projection ordered cs ∧
        current = substitute doc.source cs ∧
        (∀ k m, k < m → m ≤ doc.source.length → (∀ c ∈ cs, c.stop ≤ k ∨ m ≤ c.start) →
          current = substitute (doc.source.take k) (cs.filter fun c ↦ c.stop ≤ k) ++
            slice doc.source k m ++ after doc.source cs m) ∧
        ∀ p ∈ doc.projection.regions, ∃ located,
          regionSource codec layout doc.source doc.projection model p.1 = .ok (some located) ∧
            Agrees codec layout doc.source changes cs p.2 current located := by
  refine ⟨fun old new ↦ ⟨fun hle ↦ ?_, fun hlt ↦ ?_⟩, fun model current hcurrent ↦ ?_⟩
  · have hok := changedHunks_eq_ok.mpr ⟨hle, rfl⟩
    exact ⟨_, hok, changedHunks_diff hok⟩
  · rw [changedHunks, require, if_neg (not_not.mpr hlt)]
    rfl
  · have hregions := doc.scattered
    obtain ⟨changes, ordered, cs, hchanges, hperm, hreplaced, rfl⟩ :=
      applyModel_replaced hregions hcurrent
    refine ⟨changes, ordered, cs, hchanges, hperm, hreplaced, rfl, ?_, ?_⟩
    · intro k m hkm hm hout
      exact substitute_stretch hkm hout (fun c hc ↦ (hreplaced.valid c hc).1) hm
    · intro p hp
      have hkeys : (doc.projection.regions.map (·.1)).Nodup := by
        rw [map_congr_left hregions.keys]
        exact hregions.nodup
      exact regionSource_agrees hregions hchanges hperm hreplaced hcurrent hp
        (Maps.get?_of_mem hkeys hp)

/-- Two lists that are too long to be aligned. -/
theorem long_lists_refused :
    changedHunks (List.replicate 401 0) (List.replicate 400 0) = .error .limit := by
  rw [changedHunks, length_replicate, length_replicate]
  rfl

end Simmis.RichDocuments
