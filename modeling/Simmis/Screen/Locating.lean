import Simmis.Screen.Recording

/-!
# A moment in the recordings

`locate` finds the time of a screenshot in the video. It looks at the segments of the session that
started last before the moment, so a moment that only another session recorded is not found.
-/

namespace Simmis.Screen

open List Option

section Latest

variable {α : Type} {key : α → ℤ} {rows : List α} {r : α}

/-- `(->> rows (sort-by key >) first)` -/
def latest (key : α → ℤ) (rows : List α) : Option α :=
  (rows.mergeSort fun a b ↦ key b ≤ key a).head?

/-- The first of the rows with the greatest key. -/
def IsLatest (key : α → ℤ) (rows : List α) (r : α) : Prop :=
  (∀ t ∈ rows, key t ≤ key r) ∧ rows.find? (fun t ↦ key t = key r) = some r

theorem IsLatest.mem (h : IsLatest key rows r) : r ∈ rows := mem_of_find?_eq_some h.2

theorem IsLatest.unique {r' : α} (h : IsLatest key rows r) (h' : IsLatest key rows r') :
    r = r' := by
  have hkey : key r = key r' := Int.le_antisymm (h'.1 r h.mem) (h.1 r' h'.mem)
  exact some.inj (h.2.symm.trans (hkey ▸ h'.2))

theorem latest_isLatest (h : latest key rows = some r) : IsLatest key rows r := by
  let le : α → α → Bool := fun a b ↦ key b ≤ key a
  have htrans : ∀ a b c, le a b → le b c → le a c := by simp only [le, decide_eq_true_eq]; omega
  have htotal : ∀ a b, le a b || le b a := by
    simp only [le, Bool.or_eq_true, decide_eq_true_eq]; omega
  obtain ⟨rest, hsorted⟩ := head?_eq_some_iff.mp h
  change rows.mergeSort le = _ at hsorted
  refine ⟨fun t ht ↦ ?_, ?_⟩
  · have hpair := pairwise_mergeSort htrans htotal rows
    rw [hsorted, pairwise_cons] at hpair
    rcases mem_cons.mp (hsorted ▸ mem_mergeSort.mpr ht) with heq | hmem
    · exact Int.le_of_eq (by rw [heq])
    · exact of_decide_eq_true (hpair.1 t hmem)
  · -- The sort is stable: the rows with the greatest key keep their order.
    let top : α → Bool := fun t ↦ key t = key r
    have hequal : (rows.filter top).Pairwise fun a b ↦ le a b := by
      refine pairwise_iff_forall_sublist.mpr fun {a b} hab ↦ ?_
      have ha := (mem_filter.mp (hab.subset (by simp : a ∈ [a, b]))).2
      have hb := (mem_filter.mp (hab.subset (by simp : b ∈ [a, b]))).2
      simp only [top, le, decide_eq_true_eq] at ha hb ⊢
      omega
    have hsub := (sublist_mergeSort htrans htotal hequal filter_sublist).filter top
    have hperm := ((mergeSort_perm rows le).filter top).length_eq
    have hsame := hsub.eq_of_length (by simp [List.filter_filter, hperm])
    rw [hsorted, List.filter_filter, List.filter_cons_of_pos (by simp [top])] at hsame
    simp only [Bool.and_self] at hsame
    rw [← head?_filter, hsame]
    rfl

theorem latest_eq_some_iff : latest key rows = some r ↔ IsLatest key rows r := by
  refine ⟨latest_isLatest, fun h ↦ ?_⟩
  cases hlatest : latest key rows with
  | none =>
    have hnil := (mergeSort_perm rows fun a b ↦ key b ≤ key a).symm.subset h.mem
    rw [head?_eq_none_iff.mp hlatest] at hnil
    exact nomatch hnil
  | some r' => rw [(latest_isLatest hlatest).unique h]

theorem latest_of_mem (h : r ∈ rows) : ∃ r', latest key rows = some r' := by
  cases hlatest : latest key rows with
  | none =>
    have hnil := (mergeSort_perm rows fun a b ↦ key b ≤ key a).symm.subset h
    rw [head?_eq_none_iff.mp hlatest] at hnil
    exact nomatch hnil
  | some r' => exact ⟨r', rfl⟩

end Latest

variable {S B K : Type} [DecidableEq S]

/-- A place in the video. -/
structure Moment (S K : Type) where
  session : S
  segment : ℤ
  blobId : K
  offsetInSegmentMs : ℤ
deriving DecidableEq

namespace Db

variable (db : Db S B K) (at_ : ℤ)

/-- The sessions with their starts, in the order of the answer to the query. -/
def starts : List (S × ℤ) := db.sessions.filterMap fun row ↦ do return (← row.id, ← row.startedAt)

def segmentsOf (sid : S) : List (SegmentRow S B K) :=
  db.segments.filter fun seg ↦ seg.session = some sid

/-- The filter on the segments; a duration of zero is an unknown one. -/
def covers (want : ℤ) (seg : SegmentRow S B K) : Bool :=
  seg.offsetMs ≤ want && (seg.durationMs = 0 || want < seg.offsetMs + seg.durationMs)

/-- `locate` -/
def locate : Option (Moment S K) := do
  let (sid, start) ← latest Prod.snd (db.starts.filter fun s ↦ s.2 ≤ at_)
  let want := at_ - start
  let seg ← latest SegmentRow.offsetMs ((db.segmentsOf sid).filter (covers want))
  return ⟨sid, seg.idx, seg.blobId, want - seg.offsetMs⟩

/-- A segment of the session covers the moment. -/
def Covered (s : S × ℤ) (seg : SegmentRow S B K) : Prop :=
  s ∈ db.starts ∧ seg ∈ db.segmentsOf s.1 ∧ s.2 + seg.offsetMs ≤ at_ ∧
    (seg.durationMs = 0 ∨ at_ < s.2 + seg.offsetMs + seg.durationMs)

/-- What is answered is a segment that covers the moment, at the moment. -/
def Answered (m : Moment S K) : Prop :=
  ∃ s seg, db.Covered at_ s seg ∧ m.session = s.1 ∧ m.segment = seg.idx ∧ m.blobId = seg.blobId ∧
    s.2 + seg.offsetMs + m.offsetInSegmentMs = at_

/-- A moment inside a recording is found, and nothing else is. -/
def Finds : Prop :=
  ((∃ s seg, db.Covered at_ s seg) → ∃ m, db.locate at_ = some m ∧ db.Answered at_ m) ∧
    (db.locate at_ = none → ¬∃ s seg, db.Covered at_ s seg)

variable {db at_}

omit [DecidableEq S] in
theorem covers_sub {start : ℤ} {seg : SegmentRow S B K} :
    covers (at_ - start) seg ↔ start + seg.offsetMs ≤ at_ ∧
      (seg.durationMs = 0 ∨ at_ < start + seg.offsetMs + seg.durationMs) := by
  simp only [covers, Bool.and_eq_true, Bool.or_eq_true, decide_eq_true_eq]
  omega

theorem locate_eq_some {m : Moment S K} (h : db.locate at_ = some m) :
    ∃ s seg, IsLatest Prod.snd (db.starts.filter fun s ↦ s.2 ≤ at_) s ∧ db.Covered at_ s seg ∧
      m = ⟨s.1, seg.idx, seg.blobId, at_ - s.2 - seg.offsetMs⟩ := by
  simp only [locate, Option.bind_eq_bind, Option.bind_eq_some_iff, Option.pure_def,
    Option.some.injEq] at h
  obtain ⟨s, hs, seg, hseg, rfl⟩ := h
  have hs := latest_isLatest hs
  obtain ⟨hmem, hcovers⟩ := mem_filter.mp (latest_isLatest hseg).mem
  exact ⟨s, seg, hs, ⟨(mem_filter.mp hs.mem).1, hmem, covers_sub.mp hcovers⟩, rfl⟩

/-- The answer is always right. -/
theorem locate_answered {m : Moment S K} (h : db.locate at_ = some m) : db.Answered at_ m := by
  obtain ⟨s, seg, -, hcovered, rfl⟩ := locate_eq_some h
  exact ⟨s, seg, hcovered, rfl, rfl, rfl, by simp only; omega⟩

theorem locate_of_covered {s : S × ℤ} {seg : SegmentRow S B K}
    (hs : IsLatest Prod.snd (db.starts.filter fun s ↦ s.2 ≤ at_) s)
    (hcovered : db.Covered at_ s seg) : ∃ m, db.locate at_ = some m := by
  have hmem := mem_filter.mpr ⟨hcovered.2.1, covers_sub.mpr hcovered.2.2⟩
  obtain ⟨seg', hseg'⟩ : ∃ seg', latest SegmentRow.offsetMs _ = some seg' := latest_of_mem hmem
  exact ⟨⟨s.1, seg'.idx, seg'.blobId, at_ - s.2 - seg'.offsetMs⟩,
    by simp [locate, latest_eq_some_iff.mpr hs, hseg']⟩

/-- A moment is found exactly if the session that started last before it, the first of equals,
recorded it. -/
theorem finds_iff : db.Finds at_ ↔ ((∃ s seg, db.Covered at_ s seg) →
    ∃ s seg, IsLatest Prod.snd (db.starts.filter fun s ↦ s.2 ≤ at_) s ∧ db.Covered at_ s seg) := by
  constructor
  · rintro ⟨hfound, -⟩ hcovered
    obtain ⟨m, hm, -⟩ := hfound hcovered
    obtain ⟨s, seg, hs, hcovered, -⟩ := locate_eq_some hm
    exact ⟨s, seg, hs, hcovered⟩
  · intro h
    have hfound : (∃ s seg, db.Covered at_ s seg) → ∃ m, db.locate at_ = some m := fun hcovered ↦ by
      obtain ⟨s, seg, hs, hcovered⟩ := h hcovered
      exact locate_of_covered hs hcovered
    refine ⟨fun hcovered ↦ ?_, fun hnone hcovered ↦ ?_⟩
    · obtain ⟨m, hm⟩ := hfound hcovered
      exact ⟨m, hm, locate_answered hm⟩
    · obtain ⟨m, hm⟩ := hfound hcovered
      exact nomatch hnone.symm.trans hm

/-- A second session starts while the first records; its segment begins later. -/
def overlapping : Db String ℕ ℕ where
  sessions := [{ id := some "laptop", startedAt := some 0 },
    { id := some "phone", startedAt := some 50 }]
  segments := [⟨some "laptop", 0, 0, 100, 1, 7, []⟩, ⟨some "phone", 0, 20, 100, 1, 8, []⟩]

theorem overlapping_not_found : ¬overlapping.Finds 60 := by
  intro h
  have hcovered : overlapping.Covered 60 ("laptop", 0) ⟨some "laptop", 0, 0, 100, 1, 7, []⟩ := by
    simp [Covered, overlapping, starts, segmentsOf]
  have hnone : overlapping.locate 60 = none := by
    simp [locate, latest, starts, segmentsOf, covers, overlapping, mergeSort,
      List.MergeSort.Internal.splitInTwo]
  exact h.2 hnone ⟨_, _, hcovered⟩

end Db

end Simmis.Screen
