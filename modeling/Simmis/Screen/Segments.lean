import Simmis.Library.Lists
import Simmis.Screen.Interleavings

/-!
# Keys of segments

The table, the threads and the background jobs hold every segment under its own key, so that a step
for one key leaves the entry, the file, the streams, the jobs and the rows of the others alone.
-/

namespace Simmis.Screen

open List Option Thread

variable {O S B K : Type} [DecidableEq O] [DecidableEq S]

/-- A segment whose file and stream lie under the key. -/
def Segment.Under (key : Key S) (seg : Segment O S) : Prop :=
  seg.path.key = key ∧ seg.out.path.key = key

/-- What a thread holds lies under its key. -/
def Thread.Placed : Thread O S B → Prop
  | .append _ chunk (.publish seg) => seg.Under chunk.key
  | .append _ chunk (.write seg) => seg.Under chunk.key
  | .finalize _ req (.close seg) => seg.Under req.key
  | .finalize _ req (.remove seg) => seg.Under req.key
  | _ => True

/-- The table and the jobs hold segments under their own keys. -/
structure Recorder.Placed (s : Recorder O S B K) : Prop where
  segments : ∀ key seg, s.openSegments key = some seg → seg.Under key
  jobs : ∀ owner, ∀ job ∈ s.jobs owner, job.path.key = job.key

structure World.Placed (w : World O S B K) : Prop where
  recorder : w.recorder.Placed
  threads : ∀ th ∈ w.threads, th.Placed

/-- Two recorders agree on everything that is kept under a key. -/
structure Recorder.SameKey (key : Key S) (s t : Recorder O S B K) : Prop where
  segment : t.openSegments key = s.openSegments key
  files : ∀ path, path.key = key → t.files path = s.files path
  streams : ∀ path, path.key = key → t.streams path = s.streams path
  closed : ∀ out, out.path.key = key → t.closed out = s.closed out
  jobs : ∀ owner, (t.jobs owner).filter (fun job ↦ job.key = key) =
    (s.jobs owner).filter fun job ↦ job.key = key
  rows : ∀ owner, ((t.dbs owner).segments.filter fun row ↦ row.key = key) =
    (s.dbs owner).segments.filter fun row ↦ row.key = key

namespace Recorder

variable {key : Key S} {s t u : Recorder O S B K}

variable {owner : O} {chunk : Chunk S B}

namespace SameKey

section

omit [DecidableEq O]

theorem refl (key : Key S) (s : Recorder O S B K) : SameKey key s s where
  segment := rfl
  files _ _ := rfl
  streams _ _ := rfl
  closed _ _ := rfl
  jobs _ := rfl
  rows _ := rfl

theorem trans (hst : SameKey key s t) (htu : SameKey key t u) : SameKey key s u where
  segment := htu.segment.trans hst.segment
  files path hkey := (htu.files path hkey).trans (hst.files path hkey)
  streams path hkey := (htu.streams path hkey).trans (hst.streams path hkey)
  closed out hkey := (htu.closed out hkey).trans (hst.closed out hkey)
  jobs owner := (htu.jobs owner).trans (hst.jobs owner)
  rows owner := (htu.rows owner).trans (hst.rows owner)

theorem setSegment {key' : Key S} (hne : key' ≠ key) (seg : Option (Segment O S)) :
    SameKey key s (s.setSegment key' seg) where
  __ := SameKey.refl key s
  segment := by simp [Recorder.setSegment, hne.symm]

end

section

variable {path : Path O S} (hne : path.key ≠ key)
include hne

theorem setFile (content : List B) : SameKey key s (s.setFile path content) where
  __ := SameKey.refl key s
  files path' hkey := by
    have hpath : path' ≠ path := fun h ↦ hne (h ▸ hkey)
    simp [Recorder.setFile, hpath]

theorem setStreams (count : ℕ) : SameKey key s (s.setStreams path count) where
  __ := SameKey.refl key s
  streams path' hkey := by
    have hpath : path' ≠ path := fun h ↦ hne (h ▸ hkey)
    simp [Recorder.setStreams, hpath]

theorem openStream : SameKey key s (s.openStream path) := (setFile hne _).trans (setStreams hne _)

end

theorem close {out : Stream O S} (hne : out.path.key ≠ key) : SameKey key s (s.close out) where
  __ := SameKey.refl key s
  closed out' hkey := by
    have hout : out' ≠ out := fun h ↦ hne (h ▸ hkey)
    simp [Recorder.close, hout]

theorem setJobs {jobs : List (Job O S B)} (hjobs : (jobs.filter fun job ↦ job.key = key) =
      (s.jobs owner).filter fun job ↦ job.key = key) : SameKey key s (s.setJobs owner jobs) where
  __ := SameKey.refl key s
  jobs owner' := by
    by_cases howner : owner' = owner
    · subst howner
      simpa [Recorder.setJobs] using hjobs
    · simp [Recorder.setJobs, howner]

theorem setDb {db : Db S B K} (hrows : (db.segments.filter fun row ↦ row.key = key) =
      (s.dbs owner).segments.filter fun row ↦ row.key = key) :
    SameKey key s (s.setDb owner db) where
  __ := SameKey.refl key s
  rows owner' := by
    by_cases howner : owner' = owner
    · subst howner
      simpa [Recorder.setDb] using hrows
    · simp [Recorder.setDb, howner]

/-- A step of a request for another key. -/
theorem stepAppend {at_ : AppendAt O S} (hne : chunk.key ≠ key)
    (hplaced : (append owner chunk at_).Placed) :
    SameKey key s (s.stepAppend owner chunk at_).1 := by
  cases at_ with
  | read =>
    unfold Recorder.stepAppend
    dsimp only
    split <;> exact SameKey.refl key s
  | opening => exact openStream hne
  | publish seg => exact setSegment hne _
  | write seg =>
    have hpath : seg.out.path.key ≠ key := fun h ↦ hne (hplaced.2.symm.trans h)
    unfold Recorder.stepAppend Recorder.write
    dsimp only
    by_cases hclosed : s.closed seg.out
    · rw [if_pos hclosed]
      exact SameKey.refl key s
    · rw [if_neg hclosed]
      exact setFile hpath _
  | count =>
    unfold Recorder.stepAppend Recorder.count
    dsimp only
    cases hseg : s.openSegments chunk.key with
    | none => exact SameKey.refl key s
    | some seg => exact setSegment hne _
  | done answer => exact SameKey.refl key s

theorem stepFinalize {req : Finalize S} {at_ : FinalizeAt O S} (hne : req.key ≠ key)
    (hplaced : (finalize (B := B) owner req at_).Placed) :
    SameKey key s (s.stepFinalize owner req at_).1 := by
  cases at_ with
  | read =>
    unfold Recorder.stepFinalize
    dsimp only
    split <;> exact SameKey.refl key s
  | close seg =>
    have hpath : seg.out.path.key ≠ key := fun h ↦ hne (hplaced.2.symm.trans h)
    exact close hpath
  | remove seg =>
    refine (setSegment hne none).trans (setJobs ?_)
    have hjob : (req.job seg : Job O S B).key ≠ key := hne
    simp [Recorder.setSegment, hjob]
  | done answer => exact SameKey.refl key s

end SameKey

namespace Placed

omit [DecidableEq O] in
theorem setSegment (h : s.Placed) (key : Key S) {seg : Option (Segment O S)}
    (hseg : ∀ seg', seg = some seg' → seg'.Under key) : (s.setSegment key seg).Placed where
  __ := h
  segments key' seg' hopen := by
    by_cases hkey : key' = key
    · subst hkey
      exact hseg seg' (by simpa [Recorder.setSegment] using hopen)
    · exact h.segments key' seg' (by simpa [Recorder.setSegment, hkey] using hopen)

omit [DecidableEq S] in
theorem setJobs (h : s.Placed) (owner : O) {jobs : List (Job O S B)}
    (hjobs : ∀ job ∈ jobs, job.path.key = job.key) : (s.setJobs owner jobs).Placed where
  __ := h
  jobs owner' job hjob := by
    by_cases howner : owner' = owner
    · subst howner
      exact hjobs job (by simpa [Recorder.setJobs] using hjob)
    · exact h.jobs owner' job (by simpa [Recorder.setJobs, howner] using hjob)

omit [DecidableEq O] [DecidableEq S] in
/-- Files, streams and rows do not matter. -/
theorem congr (h : s.Placed) (hsegments : t.openSegments = s.openSegments)
    (hjobs : t.jobs = s.jobs) : t.Placed where
  segments key seg hopen := h.segments key seg (by rwa [← hsegments])
  jobs owner job hjob := h.jobs owner job (by rwa [← hjobs])

omit [DecidableEq O] [DecidableEq S] in
theorem check {seg : Segment O S} (hseg : seg.Under chunk.key) :
    (append owner chunk (chunk.check seg)).Placed := by
  obtain ⟨hcheck, -⟩ | ⟨hcheck, -⟩ | ⟨hcheck, -⟩ := check_cases chunk seg
  · rw [hcheck]
    trivial
  · rw [hcheck]
    trivial
  · rw [hcheck]
    exact hseg

theorem stepAppend (h : s.Placed) {at_ : AppendAt O S} (hplaced : (append owner chunk at_).Placed) :
    (s.stepAppend owner chunk at_).1.Placed ∧
      (append owner chunk (s.stepAppend owner chunk at_).2).Placed := by
  cases at_ with
  | read =>
    unfold Recorder.stepAppend
    dsimp only
    split
    · next seg hseg => exact ⟨h, check (h.segments _ seg hseg)⟩
    · exact ⟨h, trivial⟩
  | opening => exact ⟨h.congr rfl rfl, rfl, rfl⟩
  | publish seg =>
    refine ⟨h.setSegment chunk.key fun seg' hseg' ↦ ?_, check hplaced⟩
    obtain rfl := some.inj hseg'
    exact hplaced
  | write seg =>
    unfold Recorder.stepAppend Recorder.write
    dsimp only
    by_cases hclosed : s.closed seg.out
    · rw [if_pos hclosed]
      exact ⟨h, trivial⟩
    · rw [if_neg hclosed]
      exact ⟨h.congr rfl rfl, trivial⟩
  | count =>
    unfold Recorder.stepAppend Recorder.count
    dsimp only
    cases hseg : s.openSegments chunk.key with
    | none => exact ⟨h, trivial⟩
    | some seg =>
      refine ⟨h.setSegment chunk.key fun seg' hseg' ↦ ?_, trivial⟩
      obtain rfl := some.inj hseg'
      exact h.segments chunk.key seg hseg
  | done answer => exact ⟨h, hplaced⟩

theorem stepFinalize (h : s.Placed) {req : Finalize S} {at_ : FinalizeAt O S}
    (hplaced : (finalize (B := B) owner req at_).Placed) :
    (s.stepFinalize owner req at_).1.Placed ∧
      (finalize (B := B) owner req (s.stepFinalize owner req at_).2).Placed := by
  cases at_ with
  | read =>
    unfold Recorder.stepFinalize
    dsimp only
    split
    · next seg hseg => exact ⟨h, h.segments _ seg hseg⟩
    · exact ⟨h, trivial⟩
  | close seg => exact ⟨h.congr rfl rfl, hplaced⟩
  | remove seg =>
    refine ⟨(h.setSegment req.key (by simp)).setJobs owner fun job hjob ↦ ?_, trivial⟩
    rcases mem_append.mp hjob with hjob | hjob
    · exact h.jobs owner job hjob
    · rw [mem_singleton.mp hjob]
      exact hplaced.1
  | done answer => exact ⟨h, hplaced⟩

theorem remux (h : s.Placed) (owner : O) (i : ℕ) (fixed : Option (List B)) :
    (s.remux owner i fixed).Placed := by
  unfold Recorder.remux
  split
  · next job hjob =>
    split
    · refine (h.congr (t := s.setFile job.path _) rfl rfl).setJobs owner fun job' hjob' ↦ ?_
      rcases mem_or_eq_of_mem_set hjob' with hold | rfl
      · exact h.jobs owner job' hold
      · exact h.jobs owner job (mem_of_getElem? hjob)
    · exact h
  · exact h

theorem record (blobId : List B → K) (h : s.Placed) (owner : O) (i : ℕ) (duration : Option ℤ) :
    (s.record blobId owner i duration).Placed := by
  unfold Recorder.record
  split
  · split
    · exact (h.congr (t := s.setDb owner _) rfl rfl).setJobs owner fun job hjob ↦
        h.jobs owner job (mem_of_mem_eraseIdx hjob)
    · exact h
  · exact h

theorem startSession (h : s.Placed) (owner : O) (now : ℤ) (req : Start S) :
    (s.startSession owner now req).1.Placed := by
  unfold Recorder.startSession
  split
  · exact h
  · exact h.congr rfl rfl

end Placed

end Recorder

namespace World

variable {w : World O S B K}

theorem Placed.advance (h : w.Placed) (i : ℕ) : (w.advance i).Placed := by
  unfold World.advance
  split
  · next th hth =>
    have hplaced := h.threads th (mem_of_getElem? hth)
    have hstep : (th.step w.recorder).1.Placed ∧ (th.step w.recorder).2.Placed := by
      cases th with
      | append owner chunk at_ => exact h.recorder.stepAppend hplaced
      | finalize owner req at_ => exact h.recorder.stepFinalize hplaced
    refine ⟨hstep.1, fun th' hth' ↦ ?_⟩
    rcases mem_or_eq_of_mem_set hth' with hold | rfl
    · exact h.threads th' hold
    · exact hstep.2
  · exact h

omit [DecidableEq O] [DecidableEq S] in
theorem Placed.cut {th : Thread O S B} : th.cut.Placed := by
  cases th with
  | append owner chunk at_ => cases at_ <;> trivial
  | finalize owner req at_ => cases at_ <;> trivial

theorem Placed.step (blobId : List B → K) (h : w.Placed) (move : Move O S B) :
    (w.step blobId move).Placed := by
  have hnew (th : Thread O S B) (hth : th.Placed) : ∀ th' ∈ w.threads ++ [th], th'.Placed := by
    intro th' hmem
    rcases mem_append.mp hmem with hmem | hmem
    · exact h.threads th' hmem
    · rw [mem_singleton.mp hmem]
      exact hth
  cases move with
  | append owner chunk => exact ⟨h.recorder, hnew _ trivial⟩
  | finalize owner req => exact ⟨h.recorder, hnew _ trivial⟩
  | advance i => exact h.advance i
  | start owner now req => exact ⟨h.recorder.startSession owner now req, h.threads⟩
  | finish owner now session => exact ⟨h.recorder.congr rfl rfl, h.threads⟩
  | remux owner i fixed => exact ⟨h.recorder.remux owner i fixed, h.threads⟩
  | record owner i duration => exact ⟨h.recorder.record blobId owner i duration, h.threads⟩
  | abandon owner i =>
    exact ⟨h.recorder.setJobs owner fun job hjob ↦
      h.recorder.jobs owner job (mem_of_mem_eraseIdx hjob), h.threads⟩
  | restart =>
    constructor
    · constructor
      · intro key seg hopen
        cases hopen
      · intro owner job hjob
        cases hjob
    · intro th hth
      obtain ⟨th', -, rfl⟩ := mem_map.mp hth
      exact Placed.cut

end World

end Simmis.Screen
