import Simmis.Library.Replays
import Simmis.Library.StrictUtf8
import Simmis.Library.Substitutions

/-!
# Patches of a Markdown source

Edits in the coordinates of one revision are applied to its source. The edits are sorted and applied
one after the other from the last to the first. That is the substitution of all their ranges at
once.
-/

namespace Simmis.Markdown

open List JavaString
open Substitutions (Apart Before splice substitute)

abbrev Source := List UInt16

def maxSourceBytes : ℕ := 2097152
def maxEdits : ℕ := 1000

inductive Refusal
  | invalid (message : String)
  | conflict (message : String)
  | malformedInput
deriving DecidableEq

def tooLarge : Refusal := .invalid "Document is too large"

/-- The hash of the content and the projection of the parser's syntax tree. -/
structure Host (R V : Type) where
  uuid : List UInt8 → R
  view : Source → Except Refusal V

/-- `:source`, `:revision` and everything that is read from the syntax tree. -/
structure Parsed (R V : Type) where
  source : Source
  revision : R
  view : V
deriving DecidableEq

/-- An edit, `:from` and `:to` first. -/
structure Edit where
  start : ℤ
  stop : ℤ
  text : Source
deriving DecidableEq

namespace Edit

/-- The range of an edit that was accepted. -/
def range (e : Edit) : Substitutions.Edit UInt16 := ⟨e.start.toNat, e.stop.toNat, e.text⟩

/-- `(juxt :from :to)` -/
def le (a b : Edit) : Bool := a.start < b.start ∨ a.start = b.start ∧ a.stop ≤ b.stop

end Edit

def sourceBytes (source : Source) : Except Refusal (List UInt8) := do
  require (source.length ≤ maxSourceBytes) tooLarge
  let bytes ← demand (JavaString.encode source) .malformedInput
  require (bytes.length ≤ maxSourceBytes) tooLarge
  pure bytes

/-- `boundary?` -/
def boundary (source : Source) (position : ℕ) : Bool :=
  !(decide (0 < position ∧ position < source.length) &&
    source[position - 1]?.any (JavaString.isHigh ·.toNat) &&
    source[position]?.any (JavaString.isLow ·.toNat))

/-- The range of an edit is in bounds and its ends are boundaries. -/
def InRange (source : Source) (e : Edit) : Prop :=
  (0 ≤ e.start ∧ e.start ≤ e.stop ∧ e.stop ≤ source.length) ∧
    boundary source e.start.toNat ∧ boundary source e.stop.toNat

instance (source : Source) (e : Edit) : Decidable (InRange source e) :=
  inferInstanceAs (Decidable (_ ∧ _))

def checkEdit (source : Source) (e : Edit) : Except Refusal Unit := do
  require (InRange source e) (.invalid "Invalid document edit")
  let _ ← sourceBytes e.text
  pure ()

def checkOrder (pair : Edit × Edit) : Except Refusal Unit :=
  require (¬(pair.1.stop > pair.2.start ∨ pair.1.start = pair.2.start))
    (.invalid "Document edits overlap or have ambiguous ordering")

/-- `sort-by` -/
def sortEdits (edits : List Edit) : List Edit := edits.insertionSort fun a b ↦ a.le b

section Patch

variable {R V : Type} [DecidableEq R] (host : Host R V)

def revision (source : Source) : Except Refusal R := host.uuid <$> sourceBytes source

def parse (source : Source) : Except Refusal (Parsed R V) := do
  let id ← revision host source
  let view ← host.view source
  pure ⟨source, id, view⟩

def patch (source : Source) (expected : R) (edits : List Edit) : Except Refusal (Parsed R V) := do
  let current ← revision host source
  require (expected = current)
    (.conflict "Document changed; review the current revision before saving")
  require (edits.length ≤ maxEdits) (.invalid "Document edits must be a bounded vector")
  edits.forM (checkEdit source)
  let ordered := sortEdits edits
  (ordered.zip ordered.tail).forM checkOrder
  parse host (ordered.reverse.foldl (fun text e ↦ splice text e.range) source)

end Patch

structure Document (R : Type) where
  source : Source
  revision : R

structure Receipt (R : Type) where
  revision : R
  unchanged : Bool

/-- How a document is read, and how its parsed source is published. -/
structure Repository (D K R V : Type) where
  read : D → K → Except Refusal (Document R)
  publish : D → K → Document R → Parsed R V → D × Except Refusal Unit

/-- `edit!`, with what is stored before and after. -/
def edit {D K R V : Type} [DecidableEq R] (host : Host R V) (repository : Repository D K R V)
    (db : D) (id : K) (expected : R) (edits : List Edit) : D × Except Refusal (Receipt R) :=
  match repository.read db id with
  | .error refusal => (db, .error refusal)
  | .ok document =>
    match patch host document.source expected edits with
    | .error refusal => (db, .error refusal)
    | .ok parsed =>
      if document.revision = parsed.revision then (db, .ok ⟨document.revision, true⟩)
      else
        let published := repository.publish db id document parsed
        (published.1, published.2.map fun _ ↦ ⟨parsed.revision, false⟩)

variable {source : Source} {edits ordered : List Edit} {e : Edit}

theorem sourceBytes_eq_ok {bytes : List UInt8} :
    sourceBytes source = .ok bytes ↔ source.length ≤ maxSourceBytes ∧
      encode source = some bytes ∧ bytes.length ≤ maxSourceBytes := by
  simp only [sourceBytes, bind_eq_ok, Unique.exists_iff, require_eq_ok, demand_eq_ok, pure,
    Except.pure, Except.ok.injEq]
  constructor
  · rintro ⟨hcount, found, hfound, hlength, rfl⟩
    exact ⟨hcount, hfound, hlength⟩
  · rintro ⟨hcount, hfound, hlength⟩
    exact ⟨hcount, bytes, hfound, hlength, rfl⟩

/-- A text that can be stored. -/
def Storable (source : Source) : Prop := ∃ bytes, sourceBytes source = .ok bytes

theorem Storable.encodable (h : Storable source) : JavaString.Encodable source := by
  obtain ⟨bytes, hbytes⟩ := h
  rw [JavaString.Encodable, (sourceBytes_eq_ok.mp hbytes).2.1]
  rfl

theorem checkEdit_eq_ok {u : Unit} :
    checkEdit source e = .ok u ↔ InRange source e ∧ Storable e.text := by
  simp only [checkEdit, bind_eq_ok, Unique.exists_iff, require_eq_ok, Storable, pure, Except.pure,
    and_true]

theorem cutsPair_eq {k : ℕ} (hk : k ≤ source.length) (h : boundary source k) :
    cutsPair (source.take k) (source.drop k) = false := by
  rw [boundary, Bool.not_eq_true'] at h
  rw [cutsPair, head?_drop, getLast?_take]
  rcases Nat.eq_zero_or_pos k with rfl | hpos
  · simp
  rw [if_neg hpos.ne']
  rcases Nat.lt_or_ge k source.length with hlt | hge
  · rw [decide_eq_true ⟨hpos, hlt⟩, Bool.true_and] at h
    rw [getElem?_eq_getElem (by omega : k - 1 < source.length)] at h ⊢
    exact h
  · rw [getElem?_eq_none hge]
    simp

theorem encodable_drop {k : ℕ} (hk : k ≤ source.length) (h : JavaString.Encodable source)
    (hb : boundary source k) : JavaString.Encodable (source.drop k) := by
  rw [← take_append_drop k source] at h
  exact (h.cut (cutsPair_eq hk hb)).2

theorem encodable_slice {k m : ℕ} (hkm : k ≤ m) (hm : m ≤ source.length)
    (h : JavaString.Encodable source) (hk : boundary source k) (hb : boundary source m) :
    JavaString.Encodable ((source.drop k).take (m - k)) := by
  have hdrop := encodable_drop (hkm.trans hm) h hk
  rw [← take_append_drop (m - k) (source.drop k), drop_drop, show k + (m - k) = m by omega] at hdrop
  refine (hdrop.cut ?_).1
  have hcut := cutsPair_eq hm hb
  rcases hkm.eq_or_lt with rfl | hlt
  · simp [cutsPair]
  rw [cutsPair, getLast?_take, if_neg (by omega)] at hcut ⊢
  rw [getElem?_drop, show k + (m - k - 1) = m - 1 by omega]
  rw [getElem?_eq_getElem (by omega : m - 1 < source.length)] at hcut ⊢
  exact hcut

theorem InRange.range (h : InRange source e) :
    e.range.start ≤ e.range.stop ∧ e.range.stop ≤ source.length := by
  obtain ⟨⟨hstart, hle, hstop⟩, -⟩ := h
  simp only [Edit.range]
  omega

/-- The order check of two neighbours. -/
theorem checkOrder_eq_ok {a b : Edit} {u : Unit} (ha : InRange source a) :
    checkOrder (a, b) = .ok u ↔ Before a.range b.range := by
  obtain ⟨⟨hstart, hle, -⟩, -⟩ := ha
  rw [checkOrder, require_eq_ok, Before]
  simp only [Edit.range]
  omega

theorem forM_zip_tail {f : Edit × Edit → Except Refusal Unit} :
    (ordered.zip ordered.tail).forM f = .ok () ↔ ordered.IsChain fun a b ↦ f (a, b) = .ok () := by
  rw [forM_eq_ok]
  induction ordered with
  | nil => simp
  | cons a rest ih =>
    cases rest with
    | nil => simp
    | cons b rest =>
      rw [isChain_cons_cons, ← ih]
      simp

/-- Neighbours are checked, and that is enough for every two ranges. -/
theorem isChain_before (hrange : ∀ e ∈ ordered, InRange source e) :
    ordered.IsChain (fun a b ↦ checkOrder (a, b) = .ok ()) ↔
      (ordered.map Edit.range).Pairwise Before := by
  induction ordered with
  | nil => simp
  | cons a rest ih =>
    obtain ⟨ha, hrest⟩ := forall_mem_cons.mp hrange
    have ih := ih hrest
    cases rest with
    | nil => simp
    | cons b rest =>
      have hb := hrest b mem_cons_self
      rw [isChain_cons_cons, ih, checkOrder_eq_ok ha]
      constructor
      · rintro ⟨⟨hab, habne⟩, hpairwise⟩
        refine pairwise_cons.mpr ⟨forall_mem_cons.mpr ⟨⟨hab, habne⟩, ?_⟩, hpairwise⟩
        intro d hd
        -- An empty range between two others still separates their starts.
        have hbd := (pairwise_cons.mp hpairwise).1 d hd
        have hale := ha.range.1
        have hble := hb.range.1
        obtain ⟨hbd, hbdne⟩ := hbd
        exact ⟨by omega, by omega⟩
      · intro h
        obtain ⟨hfirst, hpairwise⟩ := pairwise_cons.mp h
        exact ⟨hfirst b.range mem_cons_self, hpairwise⟩

theorem le_total (a b : Edit) : a.le b ∨ b.le a := by
  simp only [Edit.le, decide_eq_true_eq]
  omega

theorem le_trans (a b c : Edit) (hab : a.le b) (hbc : b.le c) : a.le c := by
  simp only [Edit.le, decide_eq_true_eq] at *
  omega

theorem sortEdits_perm (edits : List Edit) : (sortEdits edits).Perm edits := perm_insertionSort _ _

theorem sortEdits_sorted (edits : List Edit) : (sortEdits edits).Pairwise fun a b ↦ a.le b := by
  have : Std.Total fun a b : Edit ↦ (a.le b : Prop) := ⟨le_total⟩
  have : IsTrans Edit fun a b ↦ (a.le b : Prop) := ⟨le_trans⟩
  exact pairwise_insertionSort _ _

theorem before_of_le {a b : Edit} (hb : InRange source b) (hle : a.le b)
    (hapart : Apart a.range b.range) : Before a.range b.range := by
  obtain ⟨⟨hstart', hstop', -⟩, -⟩ := hb
  obtain ⟨hne, hcase⟩ := hapart
  simp only [Edit.le, decide_eq_true_eq] at hle
  simp only [Before, Edit.range] at hne hcase ⊢
  omega

/-- The sorted edits are accepted when every two of the edits are apart. -/
theorem pairwise_before (hrange : ∀ e ∈ edits, InRange source e) :
    ((sortEdits edits).map Edit.range).Pairwise Before ↔ (edits.map Edit.range).Pairwise Apart := by
  have hperm : ((sortEdits edits).map Edit.range).Perm (edits.map Edit.range) :=
    (sortEdits_perm edits).map _
  rw [← hperm.pairwise_iff Substitutions.apart_symm]
  constructor
  · intro h
    exact h.imp fun hab ↦ ⟨hab.2, .inl hab.1⟩
  · intro h
    rw [pairwise_map] at h ⊢
    have hboth := h.and (sortEdits_sorted edits)
    refine hboth.imp_of_mem fun _ hb hab ↦ ?_
    exact before_of_le (hrange _ ((sortEdits_perm edits).mem_iff.mp hb)) hab.2 hab.1

/-- The source with every range replaced at once. -/
def patched (source : Source) (edits : List Edit) : Source :=
  substitute source (edits.map Edit.range)

/-- The edits that a patch accepts. -/
structure Acceptable (source : Source) (edits : List Edit) : Prop where
  bounded : edits.length ≤ maxEdits
  inRange : ∀ e ∈ edits, InRange source e
  texts : ∀ e ∈ edits, Storable e.text
  apart : (edits.map Edit.range).Pairwise Apart

theorem Acceptable.perm {other : List Edit} (h : Acceptable source edits)
    (hperm : edits.Perm other) : Acceptable source other where
  bounded := hperm.length_eq ▸ h.bounded
  inRange := fun e he ↦ h.inRange e (hperm.mem_iff.mpr he)
  texts := fun e he ↦ h.texts e (hperm.mem_iff.mpr he)
  apart := ((hperm.map _).pairwise_iff Substitutions.apart_symm).mp h.apart

theorem range_of_mem (hrange : ∀ e ∈ edits, InRange source e) :
    ∀ r ∈ edits.map Edit.range, r.start ≤ r.stop ∧ r.stop ≤ source.length := by
  intro r hr
  obtain ⟨e, he, rfl⟩ := mem_map.mp hr
  exact (hrange e he).range

theorem foldl_splice (h : Acceptable source edits) :
    (sortEdits edits).reverse.foldl (fun text e ↦ splice text e.range) source =
      patched source edits := by
  have hperm : ((sortEdits edits).map Edit.range).Perm (edits.map Edit.range) :=
    (sortEdits_perm edits).map _
  have hbefore := (pairwise_before h.inRange).mpr h.apart
  have hvalid : ∀ r ∈ (sortEdits edits).map Edit.range, r.start ≤ r.stop ∧ r.stop ≤ source.length :=
    fun r hr ↦ range_of_mem h.inRange r (hperm.mem_iff.mp hr)
  calc
    (sortEdits edits).reverse.foldl (fun text e ↦ splice text e.range) source =
        ((sortEdits edits).map Edit.range).foldr (fun r text ↦ splice text r) source := by
      rw [foldl_reverse, foldr_map]
    _ = substitute source ((sortEdits edits).map Edit.range) :=
      Substitutions.foldr_splice hvalid hbefore
    _ = patched source edits := (Substitutions.substitute_perm hperm.symm h.apart).symm

/-- No surrogate stands alone in the text with the later ranges replaced. -/
theorem encodable_after (hsource : JavaString.Encodable source)
    (hrange : ∀ e ∈ ordered, InRange source e) (htexts : ∀ e ∈ ordered, Storable e.text)
    (hbefore : (ordered.map Edit.range).Pairwise Before) {k : ℕ} (hk : k ≤ source.length)
    (hb : boundary source k) (hstart : ∀ e ∈ ordered, k ≤ e.range.start) :
    JavaString.Encodable (Substitutions.after source (ordered.map Edit.range) k) := by
  induction ordered generalizing k with
  | nil =>
    rw [map_nil, Substitutions.after_nil hk]
    exact encodable_drop hk hsource hb
  | cons e rest ih =>
    obtain ⟨he, hrange⟩ := forall_mem_cons.mp hrange
    obtain ⟨htext, htexts⟩ := forall_mem_cons.mp htexts
    rw [map_cons, pairwise_cons] at hbefore
    obtain ⟨hfirst, hbefore⟩ := hbefore
    obtain ⟨hle, hstop⟩ := he.range
    have hlater : ∀ r ∈ e.range :: rest.map Edit.range, e.range.start ≤ r.start :=
      forall_mem_cons.mpr ⟨le_rfl, fun r hr ↦ hle.trans (hfirst r hr).1⟩
    have hke := hstart e mem_cons_self
    have hrest := ih hrange htexts hbefore hstop he.2.2 fun d hd ↦
      (hfirst d.range (mem_map_of_mem hd)).1
    rw [map_cons, Substitutions.after_eq hke (hle.trans hstop) hlater,
      Substitutions.after_cons hle hstop hfirst]
    exact (encodable_slice hke (hle.trans hstop) hsource hb he.2.1).append
      (htext.encodable.append hrest)

theorem encodable_patched (hsource : JavaString.Encodable source) (h : Acceptable source edits) :
    JavaString.Encodable (patched source edits) := by
  have hperm : ((sortEdits edits).map Edit.range).Perm (edits.map Edit.range) :=
    (sortEdits_perm edits).map _
  have hmem : ∀ e, e ∈ sortEdits edits → e ∈ edits :=
    fun e he ↦ (sortEdits_perm edits).mem_iff.mp he
  rw [patched, Substitutions.substitute_perm hperm.symm h.apart]
  exact encodable_after hsource (fun e he ↦ h.inRange e (hmem e he))
    (fun e he ↦ h.texts e (hmem e he)) ((pairwise_before h.inRange).mpr h.apart) (Nat.zero_le _)
    rfl fun _ _ ↦ Nat.zero_le _

/-- A stretch outside the ranges stands behind what the edits in front of it leave. -/
theorem patched_stretch {k m : ℕ} (hkm : k < m) (hm : m ≤ source.length)
    (hrange : ∀ e ∈ edits, InRange source e)
    (hout : ∀ e ∈ edits, e.stop ≤ (k : ℤ) ∨ (m : ℤ) ≤ e.start) : ∃ back, patched source edits =
      patched (source.take k) (edits.filter fun e ↦ e.stop ≤ (k : ℤ)) ++
        (source.drop k).take (m - k) ++ back := by
  have hout' : ∀ r ∈ edits.map Edit.range, r.stop ≤ k ∨ m ≤ r.start := by
    intro r hr
    obtain ⟨e, he, rfl⟩ := mem_map.mp hr
    have hcase := hout e he
    simp only [Edit.range]
    omega
  have hfilter : (edits.map Edit.range).filter (fun r ↦ r.stop ≤ k) =
      (edits.filter fun e ↦ e.stop ≤ (k : ℤ)).map Edit.range := by
    have hsame : ∀ e : Edit, e.range.stop ≤ k ↔ e.stop ≤ k := by
      simp only [Edit.range]
      omega
    rw [List.filter_map]
    simp only [Function.comp_def, hsame]
  refine ⟨Substitutions.after source (edits.map Edit.range) m, ?_⟩
  rw [patched, Substitutions.substitute_stretch hkm hout'
    (fun r hr ↦ (range_of_mem hrange r hr).1) hm, hfilter]
  rfl

section Outcomes

variable {R V D K : Type} {host : Host R V} {expected : R} {parsed : Parsed R V}

theorem revision_eq_ok {id : R} : revision host source = .ok id ↔
    ∃ bytes, sourceBytes source = .ok bytes ∧ host.uuid bytes = id := by
  rw [revision, map_eq_ok]

theorem storable_of_revision {id : R} (h : revision host source = .ok id) : Storable source := by
  obtain ⟨bytes, hbytes, -⟩ := revision_eq_ok.mp h
  exact ⟨bytes, hbytes⟩

theorem parse_source (h : parse host source = .ok parsed) : parsed.source = source := by
  simp only [parse, bind_eq_ok, pure, Except.pure, Except.ok.injEq] at h
  obtain ⟨id, -, view, -, rfl⟩ := h
  rfl

theorem exists_parse : (∃ parsed, parse host source = .ok parsed) ↔
    Storable source ∧ ∃ view, host.view source = .ok view := by
  simp only [parse, bind_eq_ok, pure, Except.pure, Except.ok.injEq]
  constructor
  · rintro ⟨parsed, id, hid, view, hview, -⟩
    exact ⟨storable_of_revision hid, view, hview⟩
  · rintro ⟨⟨bytes, hbytes⟩, view, hview⟩
    exact ⟨_, _, revision_eq_ok.mpr ⟨bytes, hbytes, rfl⟩, view, hview, rfl⟩

variable [DecidableEq R]

theorem patch_eq_ok : patch host source expected edits = .ok parsed ↔
    revision host source = .ok expected ∧ Acceptable source edits ∧
      parse host (patched source edits) = .ok parsed := by
  simp only [patch, bind_eq_ok, Unique.exists_iff, require_eq_ok, forM_eq_ok, checkEdit_eq_ok]
  constructor
  · rintro ⟨current, hcurrent, rfl, hbounded, hedits, horder, hparse⟩
    have hrange : ∀ e ∈ edits, InRange source e := fun e he ↦ (hedits e he).1
    have hchain := isChain_before fun e he ↦ hrange e ((sortEdits_perm edits).mem_iff.mp he)
    have hordered := hchain.mp (forM_zip_tail.mp (forM_eq_ok.mpr horder))
    have haccepted : Acceptable source edits :=
      ⟨hbounded, hrange, fun e he ↦ (hedits e he).2, (pairwise_before hrange).mp hordered⟩
    rw [foldl_splice haccepted] at hparse
    exact ⟨hcurrent, haccepted, hparse⟩
  · rintro ⟨hcurrent, haccepted, hparse⟩
    have hchain := isChain_before fun e he ↦
      haccepted.inRange e ((sortEdits_perm edits).mem_iff.mp he)
    have hordered := hchain.mpr ((pairwise_before haccepted.inRange).mpr haccepted.apart)
    refine ⟨expected, hcurrent, rfl, haccepted.bounded,
      fun e he ↦ ⟨haccepted.inRange e he, haccepted.texts e he⟩,
      forM_eq_ok.mp (forM_zip_tail.mpr hordered), ?_⟩
    rwa [foldl_splice haccepted]

theorem edit_refused {refusal : Refusal} (h : patch host source expected edits = .error refusal)
    {repository : Repository D K R V} {db : D} {id : K} {current : R}
    (hread : repository.read db id = .ok ⟨source, current⟩) :
    edit host repository db id expected edits = (db, .error refusal) := by
  simp only [edit, hread, h]

/-- A patch replaces all ranges at once, in any order, exactly for the current revision and ranges
that are apart, and changes nothing else. -/
theorem patch_substitutes (host : Host R V) (source : Source) (expected : R) (edits : List Edit) :
    ((∃ parsed, patch host source expected edits = .ok parsed) ↔
      revision host source = .ok expected ∧ Acceptable source edits ∧
        Storable (patched source edits) ∧ ∃ view, host.view (patched source edits) = .ok view) ∧
    (∀ parsed, patch host source expected edits = .ok parsed →
      parsed.source = patched source edits ∧ JavaString.Encodable parsed.source ∧
      (∀ other, edits.Perm other → patch host source expected other = .ok parsed) ∧
      ∀ k m, k < m → m ≤ source.length → (∀ e ∈ edits, e.stop ≤ (k : ℤ) ∨ (m : ℤ) ≤ e.start) →
        ∃ back, parsed.source = patched (source.take k) (edits.filter fun e ↦ e.stop ≤ (k : ℤ)) ++
          (source.drop k).take (m - k) ++ back) ∧
    ∀ refusal, patch host source expected edits = .error refusal →
      ∀ (repository : Repository D K R V) (db : D) (id : K) (current : R),
        repository.read db id = .ok ⟨source, current⟩ →
        edit host repository db id expected edits = (db, .error refusal) := by
  refine ⟨?_, fun parsed hparsed ↦ ?_, fun refusal h repository db id current hread ↦
    edit_refused h hread⟩
  · simp only [patch_eq_ok, exists_and_left, exists_parse]
  · obtain ⟨hcurrent, haccepted, hparse⟩ := patch_eq_ok.mp hparsed
    have hsource := parse_source hparse
    rw [hsource]
    refine ⟨rfl, encodable_patched (storable_of_revision hcurrent).encodable haccepted, ?_, ?_⟩
    · intro other hperm
      have hsame : patched source edits = patched source other :=
        Substitutions.substitute_perm (hperm.map _) haccepted.apart
      exact patch_eq_ok.mpr ⟨hcurrent, haccepted.perm hperm, hsame ▸ hparse⟩
    · intro k m hkm hm hout
      exact patched_stretch hkm hm haccepted.inRange hout

end Outcomes

def plainHost : Host (List UInt8) Unit where
  uuid := id
  view := fun _ ↦ .ok ()

/-- A range in bounds and on boundaries is refused, because its text is half a pair. -/
theorem lone_surrogate_refused : InRange [97] ⟨0, 1, [0xD83E]⟩ ∧
      patch plainHost [97] [97] [⟨0, 1, [0xD83E]⟩] = .error .malformedInput ∧
      patch plainHost [97] [97] [⟨0, 1, [98]⟩] = .ok ⟨[98], [98], ()⟩ := by
  decide

end Simmis.Markdown
