import Simmis.Screen.Recording

/-!
# Owners of recordings

Files and rows are derived from the owner of a request, the table of open segments is keyed by what
the client names. As long as a request names no segment that another owner holds open, an owner's
archive and answers depend on the owner's requests alone.
-/

namespace Simmis.Screen

open List Option Recorder Runs

variable {O S B K : Type} [DecidableEq O] [DecidableEq S]

/-- A request of an owner, or a step of one of the owner's jobs. -/
inductive Event (O S B : Type) where
  | start (owner : O) (now : ℤ) (req : Start S)
  | append (owner : O) (chunk : Chunk S B)
  | finalize (owner : O) (req : Finalize S)
  | finish (owner : O) (now : ℤ) (session : Option S)
  | remux (owner : O) (i : ℕ) (fixed : Option (List B))
  | record (owner : O) (i : ℕ) (duration : Option ℤ)
  | abandon (owner : O) (i : ℕ)

def Event.owner : Event O S B → O
  | .start owner .. | .append owner _ | .finalize owner _ | .finish owner .. | .remux owner ..
  | .record owner .. | .abandon owner _ => owner

/-- The recorder with the answers that each owner was given, oldest first. -/
structure History (O S B K : Type) where
  recorder : Recorder O S B K
  answers : O → List (Option Answer)

def History.empty : History O S B K := ⟨.empty, fun _ ↦ []⟩

def History.answer (owner : O) (h : History O S B K) (r : Recorder O S B K × Option Answer) :
    History O S B K :=
  ⟨r.1, Function.update h.answers owner (h.answers owner ++ [r.2])⟩

/-- One request, answered as a whole, or one step of a background job. -/
def History.step (blobId : List B → K) (h : History O S B K) : Event O S B → History O S B K
  | .start owner now req => h.answer owner ((h.recorder.startSession owner now req).map id some)
  | .append owner chunk => h.answer owner (h.recorder.appendChunk owner chunk)
  | .finalize owner req => h.answer owner ((h.recorder.finalizeSegment owner req).map id some)
  | .finish owner now session =>
    h.answer owner ((h.recorder.endSession owner now session).map id some)
  | .remux owner i fixed => { h with recorder := h.recorder.remux owner i fixed }
  | .record owner i duration => { h with recorder := h.recorder.record blobId owner i duration }
  | .abandon owner i => { h with recorder := h.recorder.abandon owner i }

/-- The segment that a request names is not held open by another owner. -/
def NamesOwn (h : History O S B K) : Event O S B → Prop
  | .append owner chunk => ∀ seg, h.recorder.openSegments chunk.key = some seg → seg.owner = owner
  | .finalize owner req => ∀ seg, h.recorder.openSegments req.key = some seg → seg.owner = owner
  | _ => True

instance (h : History O S B K) : (e : Event O S B) → Decidable (NamesOwn h e)
  | .append owner chunk =>
    inferInstanceAs (Decidable (∀ seg ∈ h.recorder.openSegments chunk.key, seg.owner = owner))
  | .finalize owner req =>
    inferInstanceAs (Decidable (∀ seg ∈ h.recorder.openSegments req.key, seg.owner = owner))
  | .start .. | .finish .. | .remux .. | .record .. | .abandon .. => isTrue trivial

/-- Two recorders hold the same segments, files, rows and jobs of an owner. -/
structure Recorder.SameFor (a : O) (s t : Recorder O S B K) : Prop where
  segments : ∀ key seg, seg.owner = a →
    (s.openSegments key = some seg ↔ t.openSegments key = some seg)
  files : ∀ path, path.owner = a → s.files path = t.files path
  streams : ∀ path, path.owner = a → s.streams path = t.streams path
  closed : ∀ out, out.path.owner = a → s.closed out = t.closed out
  dbs : s.dbs a = t.dbs a
  jobs : s.jobs a = t.jobs a

/-- Open segments and jobs lie in the directory of their owner. -/
structure Recorder.InPlace (s : Recorder O S B K) : Prop where
  segments : ∀ key seg, s.openSegments key = some seg →
    seg.path.owner = seg.owner ∧ seg.out.path.owner = seg.owner
  jobs : ∀ a, ∀ job ∈ s.jobs a, job.path.owner = a

/-- Every open segment belongs to one owner. -/
def Recorder.OnlyOf (a : O) (s : Recorder O S B K) : Prop :=
  ∀ key seg, s.openSegments key = some seg → seg.owner = a

namespace Recorder

variable {a b : O} {s t u : Recorder O S B K}

variable {path : Path O S}

namespace SameFor

section

omit [DecidableEq O] [DecidableEq S]

theorem refl (a : O) (s : Recorder O S B K) : SameFor a s s where
  segments _ _ _ := Iff.rfl
  files _ _ := rfl
  streams _ _ := rfl
  closed _ _ := rfl
  dbs := rfl
  jobs := rfl

theorem trans (hst : SameFor a s t) (htu : SameFor a t u) : SameFor a s u where
  segments key seg howner := (hst.segments key seg howner).trans (htu.segments key seg howner)
  files path howner := (hst.files path howner).trans (htu.files path howner)
  streams path howner := (hst.streams path howner).trans (htu.streams path howner)
  closed out howner := (hst.closed out howner).trans (htu.closed out howner)
  dbs := hst.dbs.trans htu.dbs
  jobs := hst.jobs.trans htu.jobs

/-- Where neither recorder lets another owner hold the key, the lookups agree. -/
theorem lookup (h : SameFor a s t) {key : Key S}
    (hs : ∀ seg, s.openSegments key = some seg → seg.owner = a)
    (ht : ∀ seg, t.openSegments key = some seg → seg.owner = a) :
    s.openSegments key = t.openSegments key := by
  ext seg
  constructor
  · intro hseg
    exact (h.segments key seg (hs seg hseg)).mp hseg
  · intro hseg
    exact (h.segments key seg (ht seg hseg)).mpr hseg

theorem content (h : SameFor a s t) (howner : path.owner = a) :
    s.content path = t.content path := by
  unfold Recorder.content
  rw [h.files path howner]

end

omit [DecidableEq O] in
theorem setSegment (h : SameFor a s t) (key : Key S) (seg : Option (Segment O S)) :
    SameFor a (s.setSegment key seg) (t.setSegment key seg) where
  __ := h
  segments key' seg' howner := by
    by_cases hkey : key' = key
    · subst hkey
      simp [Recorder.setSegment]
    · simpa [Recorder.setSegment, hkey] using h.segments key' seg' howner

theorem setFile (h : SameFor a s t) (path : Path O S) (content : List B) :
    SameFor a (s.setFile path content) (t.setFile path content) where
  __ := h
  files path' howner := by
    by_cases hpath : path' = path
    · simp [Recorder.setFile, hpath]
    · simpa [Recorder.setFile, hpath] using h.files path' howner

theorem setStreams (h : SameFor a s t) (path : Path O S) (count : ℕ) :
    SameFor a (s.setStreams path count) (t.setStreams path count) where
  __ := h
  streams path' howner := by
    by_cases hpath : path' = path
    · simp [Recorder.setStreams, hpath]
    · simpa [Recorder.setStreams, hpath] using h.streams path' howner

theorem close (h : SameFor a s t) (out : Stream O S) : SameFor a (s.close out) (t.close out) where
  __ := h
  closed out' howner := by
    by_cases hout : out' = out
    · simp [Recorder.close, hout]
    · simpa [Recorder.close, hout] using h.closed out' howner

omit [DecidableEq S] in
theorem setDb (h : SameFor a s t) (db : Db S B K) : SameFor a (s.setDb a db) (t.setDb a db) where
  __ := h
  dbs := by simp [Recorder.setDb]

omit [DecidableEq S] in
theorem setJobs (h : SameFor a s t) (jobs : List (Job O S B)) :
    SameFor a (s.setJobs a jobs) (t.setJobs a jobs) where
  __ := h
  jobs := by simp [Recorder.setJobs]

end SameFor

variable {seg : Option (Segment O S)}

omit [DecidableEq O] in
theorem setSegment_other {key : Key S} (hold : ∀ seg, s.openSegments key = some seg → seg.owner ≠ a)
    (hnew : ∀ seg', seg = some seg' → seg'.owner ≠ a) : SameFor a (s.setSegment key seg) s where
  __ := SameFor.refl a s
  segments key' seg' howner := by
    by_cases hkey : key' = key
    · subst hkey
      have hold' : s.openSegments key' ≠ some seg' := fun h ↦ hold seg' h howner
      have hnew' : seg ≠ some seg' := fun h ↦ hnew seg' h howner
      simp [setSegment, hold', hnew']
    · simp [setSegment, hkey]

theorem setFile_other (content : List B) (howner : path.owner ≠ a) :
    SameFor a (s.setFile path content) s where
  __ := SameFor.refl a s
  files path' howner' := by
    have hpath : path' ≠ path := fun h ↦ howner (h ▸ howner')
    simp [setFile, hpath]

theorem setStreams_other (count : ℕ) (howner : path.owner ≠ a) :
    SameFor a (s.setStreams path count) s where
  __ := SameFor.refl a s
  streams path' howner' := by
    have hpath : path' ≠ path := fun h ↦ howner (h ▸ howner')
    simp [setStreams, hpath]

theorem close_other {out : Stream O S} (howner : out.path.owner ≠ a) :
    SameFor a (s.close out) s where
  __ := SameFor.refl a s
  closed out' howner' := by
    have hout : out' ≠ out := fun h ↦ howner (h ▸ howner')
    simp [close, hout]

omit [DecidableEq S] in
theorem setDb_other (db : Db S B K) (hne : b ≠ a) : SameFor a (s.setDb b db) s where
  __ := SameFor.refl a s
  dbs := by simp [setDb, hne.symm]

omit [DecidableEq S] in
theorem setJobs_other (jobs : List (Job O S B)) (hne : b ≠ a) : SameFor a (s.setJobs b jobs) s where
  __ := SameFor.refl a s
  jobs := by simp [setJobs, hne.symm]

theorem openStream_other (howner : path.owner ≠ a) :
    SameFor a (s.openStream path) s :=
  (setStreams_other _ howner).trans (setFile_other _ howner)

theorem SameFor.openStream (h : SameFor a s t) (howner : path.owner = a) :
    SameFor a (s.openStream path) (t.openStream path) := by
  unfold Recorder.openStream
  rw [h.content howner, h.streams path howner]
  exact (h.setFile path _).setStreams path _

omit [DecidableEq O] [DecidableEq S] in
/-- The chunk's segment is not held open by another owner. -/
def Free (s : Recorder O S B K) (owner : O) (key : Key S) : Prop :=
  ∀ seg, s.openSegments key = some seg → seg.owner = owner

theorem segmentOf_open (owner : O) (chunk : Chunk S B) :
    (s.segmentOf owner chunk).1.openSegments chunk.key = some (s.segmentOf owner chunk).2 := by
  unfold segmentOf
  split
  · next seg hseg => exact hseg
  · simp [setSegment]

variable {chunk : Chunk S B}

theorem segmentOf_owner {owner : O} (hfree : s.Free owner chunk.key) :
    (s.segmentOf owner chunk).2.owner = owner := by
  unfold segmentOf
  split
  · next seg hseg => exact hfree seg hseg
  · rfl

theorem segmentOf_path {owner : O} (hplace : s.InPlace) (hfree : s.Free owner chunk.key) :
    (s.segmentOf owner chunk).2.path.owner = owner ∧
      (s.segmentOf owner chunk).2.out.path.owner = owner := by
  unfold segmentOf
  split
  · next seg hseg =>
    have howner := hplace.segments chunk.key seg hseg
    rw [hfree seg hseg] at howner
    exact howner
  · exact ⟨rfl, rfl⟩

theorem segmentOf_same (h : SameFor a s t) (hs : s.Free a chunk.key) (ht : t.Free a chunk.key) :
    SameFor a (s.segmentOf a chunk).1 (t.segmentOf a chunk).1 ∧
      (s.segmentOf a chunk).2 = (t.segmentOf a chunk).2 := by
  have hlookup := h.lookup hs ht
  unfold segmentOf
  rw [← hlookup]
  cases s.openSegments chunk.key with
  | some seg => exact ⟨h, rfl⟩
  | none =>
    have hstream : s.stream (chunk.path a) = t.stream (chunk.path a) := by
      unfold stream
      rw [h.streams _ rfl]
    dsimp only
    rw [← hstream]
    exact ⟨(h.openStream rfl).setSegment _ _, rfl⟩

theorem segmentOf_other (chunk : Chunk S B) (hne : b ≠ a) :
    SameFor a (s.segmentOf b chunk).1 s := by
  unfold segmentOf
  split
  · exact SameFor.refl a s
  · next hnone =>
    have hopen : SameFor a (s.openStream (chunk.path b)) s := openStream_other hne
    refine (setSegment_other ?_ ?_).trans hopen
    · intro seg hseg
      exact absurd (hnone.symm.trans hseg) (by simp)
    · intro seg hseg
      obtain rfl := some.inj hseg
      exact hne

/-- An append that meets no other request counts the chunk that it has written. -/
theorem appendChunk_eq (owner : O) (chunk : Chunk S B) :
    s.appendChunk owner chunk = let opened := s.segmentOf owner chunk
      let seg := opened.2
      if chunk.seq < seg.nextSeq then (opened.1, some .duplicate)
      else if seg.nextSeq < chunk.seq then (opened.1, some .outOfOrder)
      else if opened.1.closed seg.out then (opened.1, none)
      else ((opened.1.setFile seg.out.path (opened.1.content seg.out.path ++ chunk.bytes)).setSegment
        chunk.key (some (seg.counted chunk.bytes)), some .ok) := by
  have hopen := segmentOf_open (s := s) owner chunk
  unfold appendChunk
  dsimp only
  split_ifs with hlt hgt hclosed
  · rfl
  · rfl
  · simp [write, hclosed]
  · simp [write, hclosed, count, setFile, hopen]

theorem appendChunk_same (h : SameFor a s t) (hplace : s.InPlace)
    (hs : s.Free a chunk.key) (ht : t.Free a chunk.key) :
    SameFor a (s.appendChunk a chunk).1 (t.appendChunk a chunk).1 ∧
      (s.appendChunk a chunk).2 = (t.appendChunk a chunk).2 := by
  obtain ⟨hsame, hseg⟩ := segmentOf_same h hs ht
  have hpath := (segmentOf_path hplace hs).2
  rw [appendChunk_eq, appendChunk_eq (s := t)]
  dsimp only
  rw [← hseg, ← hsame.closed _ hpath, ← hsame.content hpath]
  split_ifs
  · exact ⟨hsame, rfl⟩
  · exact ⟨hsame, rfl⟩
  · exact ⟨hsame, rfl⟩
  · exact ⟨(hsame.setFile _ _).setSegment _ _, rfl⟩

theorem appendChunk_other (hne : b ≠ a) (hplace : s.InPlace)
    (hfree : s.Free b chunk.key) : SameFor a (s.appendChunk b chunk).1 s := by
  have hsame : SameFor a _ s := segmentOf_other chunk hne
  have hopen := segmentOf_open (s := s) b chunk
  have howner := segmentOf_owner hfree
  have hpath : (s.segmentOf b chunk).2.out.path.owner ≠ a := by
    rw [(segmentOf_path hplace hfree).2]
    exact hne
  rw [appendChunk_eq]
  dsimp only
  split_ifs
  · exact hsame
  · exact hsame
  · exact hsame
  · refine (setSegment_other ?_ ?_).trans ((setFile_other _ hpath).trans hsame)
    · intro seg hseg
      obtain rfl := some.inj (hopen.symm.trans hseg)
      rw [howner]
      exact hne
    · intro seg hseg
      obtain rfl := some.inj hseg
      exact howner.trans_ne hne

theorem removeSegment_same (h : SameFor a s t) (req : Finalize S) (seg : Segment O S) :
    SameFor a (s.removeSegment a req seg) (t.removeSegment a req seg) := by
  unfold removeSegment
  rw [h.jobs]
  exact (h.setSegment _ _).setJobs _

variable {req : Finalize S}

theorem finalizeSegment_same (h : SameFor a s t) (hs : s.Free a req.key) (ht : t.Free a req.key) :
    SameFor a (s.finalizeSegment a req).1 (t.finalizeSegment a req).1 ∧
      (s.finalizeSegment a req).2 = (t.finalizeSegment a req).2 := by
  have hlookup := h.lookup hs ht
  unfold finalizeSegment
  rw [← hlookup]
  cases s.openSegments req.key with
  | none => exact ⟨h, rfl⟩
  | some seg => exact ⟨removeSegment_same (h.close seg.out) req seg, rfl⟩

theorem finalizeSegment_other (hne : b ≠ a) (hplace : s.InPlace)
    (hfree : s.Free b req.key) : SameFor a (s.finalizeSegment b req).1 s := by
  unfold finalizeSegment
  split
  · next seg hseg =>
    have howner : seg.owner = b := hfree seg hseg
    have hpath : seg.out.path.owner ≠ a := by
      rw [(hplace.segments _ seg hseg).2, howner]
      exact hne
    refine (setJobs_other _ hne).trans ((setSegment_other ?_ ?_).trans (close_other hpath))
    · intro seg' hseg'
      obtain rfl := some.inj (hseg.symm.trans hseg')
      exact howner.trans_ne hne
    · intro seg' hseg'
      cases hseg'
  · exact SameFor.refl a s

theorem remux_same (h : SameFor a s t) (hplace : s.InPlace) (i : ℕ) (fixed : Option (List B)) :
    SameFor a (s.remux a i fixed) (t.remux a i fixed) := by
  unfold remux
  rw [← h.jobs]
  split
  · next job hjob =>
    split
    · have hpath := hplace.jobs a job (mem_of_getElem? hjob)
      dsimp only
      rw [← h.content hpath]
      exact (h.setFile _ _).setJobs _
    · exact h
  · exact h

theorem remux_other (hne : b ≠ a) (hplace : s.InPlace) (i : ℕ) (fixed : Option (List B)) :
    SameFor a (s.remux b i fixed) s := by
  unfold remux
  split
  · next job hjob =>
    split
    · have hpath : job.path.owner ≠ a := by
        rw [hplace.jobs b job (mem_of_getElem? hjob)]
        exact hne
      exact (setJobs_other _ hne).trans (setFile_other _ hpath)
    · exact SameFor.refl a s
  · exact SameFor.refl a s

theorem record_same (blobId : List B → K) (h : SameFor a s t) (hplace : s.InPlace)
    (i : ℕ) (duration : Option ℤ) :
    SameFor a (record blobId s a i duration) (record blobId t a i duration) := by
  unfold record
  rw [← h.jobs, ← h.dbs]
  split
  · next job hjob =>
    split
    · have hpath := hplace.jobs a job (mem_of_getElem? hjob)
      dsimp only
      rw [← h.content hpath]
      exact (h.setDb _).setJobs _
    · exact h
  · exact h

theorem record_other (blobId : List B → K) (hne : b ≠ a) (i : ℕ) (duration : Option ℤ) :
    SameFor a (record blobId s b i duration) s := by
  unfold record
  split
  · split
    · exact (setJobs_other _ hne).trans (setDb_other _ hne)
    · exact SameFor.refl a s
  · exact SameFor.refl a s

namespace InPlace

omit [DecidableEq O] in
theorem setSegment (h : s.InPlace) (key : Key S) (hseg : ∀ seg', seg = some seg' →
      seg'.path.owner = seg'.owner ∧ seg'.out.path.owner = seg'.owner) :
    (s.setSegment key seg).InPlace where
  __ := h
  segments key' seg' hopen := by
    by_cases hkey : key' = key
    · subst hkey
      exact hseg seg' (by simpa [Recorder.setSegment] using hopen)
    · exact h.segments key' seg' (by simpa [Recorder.setSegment, hkey] using hopen)

omit [DecidableEq S] in
theorem setDb (h : s.InPlace) (db : Db S B K) : (s.setDb b db).InPlace where
  __ := h

omit [DecidableEq S] in
theorem setJobs (h : s.InPlace) {jobs : List (Job O S B)}
    (hjobs : ∀ job ∈ jobs, job.path.owner = b) : (s.setJobs b jobs).InPlace where
  __ := h
  jobs c job hjob := by
    by_cases hc : c = b
    · subst hc
      exact hjobs job (by simpa [setJobs] using hjob)
    · exact h.jobs c job (by simpa [Recorder.setJobs, hc] using hjob)

omit [DecidableEq S] in
theorem abandon (h : s.InPlace) (owner : O) (i : ℕ) : (s.abandon owner i).InPlace :=
  h.setJobs fun job hjob ↦ h.jobs owner job (mem_of_mem_eraseIdx hjob)

theorem record (blobId : List B → K) (h : s.InPlace) (owner : O) (i : ℕ) (duration : Option ℤ) :
    (s.record blobId owner i duration).InPlace := by
  unfold Recorder.record
  split
  · split
    · exact (h.setDb _).setJobs fun job hjob ↦ h.jobs owner job (mem_of_mem_eraseIdx hjob)
    · exact h
  · exact h

section

variable (h : s.InPlace)
include h

theorem setFile (path : Path O S) (content : List B) : (s.setFile path content).InPlace where
  __ := h

theorem setStreams (path : Path O S) (count : ℕ) : (s.setStreams path count).InPlace where
  __ := h

theorem close (out : Stream O S) : (s.close out).InPlace where
  __ := h

theorem segmentOf (owner : O) (chunk : Chunk S B) : (s.segmentOf owner chunk).1.InPlace := by
  unfold Recorder.segmentOf
  split
  · exact h
  · refine InPlace.setSegment ((h.setFile _ _).setStreams _ _) _ fun seg hseg ↦ ?_
    obtain rfl := some.inj hseg
    exact ⟨rfl, rfl⟩

theorem appendChunk (owner : O) (chunk : Chunk S B) : (s.appendChunk owner chunk).1.InPlace := by
  have hopened := h.segmentOf owner chunk
  have hopen := segmentOf_open (s := s) owner chunk
  rw [appendChunk_eq]
  dsimp only
  split_ifs
  · exact hopened
  · exact hopened
  · exact hopened
  · refine (hopened.setFile _ _).setSegment _ fun seg hseg ↦ ?_
    obtain rfl := some.inj hseg
    exact hopened.segments chunk.key (s.segmentOf owner chunk).2 hopen

theorem finalizeSegment (hfree : s.Free b req.key) : (s.finalizeSegment b req).1.InPlace := by
  unfold Recorder.finalizeSegment
  split
  · next seg hseg =>
    refine ((h.close seg.out).setSegment req.key (by simp)).setJobs fun job hjob ↦ ?_
    rcases mem_append.mp hjob with hjob | hjob
    · exact h.jobs b job hjob
    · rw [mem_singleton.mp hjob]
      exact (h.segments _ seg hseg).1.trans (hfree seg hseg)
  · exact h

theorem remux (owner : O) (i : ℕ) (fixed : Option (List B)) : (s.remux owner i fixed).InPlace := by
  unfold Recorder.remux
  split
  · next job hjob =>
    split
    · refine (h.setFile _ _).setJobs fun job' hjob' ↦ ?_
      rcases mem_or_eq_of_mem_set hjob' with hold | rfl
      · exact h.jobs owner job' hold
      · exact h.jobs owner job (mem_of_getElem? hjob)
    · exact h
  · exact h

end

end InPlace

namespace OnlyOf

omit [DecidableEq O] in
theorem setSegment (h : s.OnlyOf a) (key : Key S)
    (hseg : ∀ seg', seg = some seg' → seg'.owner = a) : (s.setSegment key seg).OnlyOf a := by
  intro key' seg' hopen
  by_cases hkey : key' = key
  · subst hkey
    exact hseg seg' (by simpa [Recorder.setSegment] using hopen)
  · exact h key' seg' (by simpa [Recorder.setSegment, hkey] using hopen)

theorem appendChunk (h : s.OnlyOf a) (chunk : Chunk S B) : (s.appendChunk a chunk).1.OnlyOf a := by
  have howner : (s.segmentOf a chunk).2.owner = a := segmentOf_owner (h chunk.key)
  have hopened : (s.segmentOf a chunk).1.OnlyOf a := by
    unfold segmentOf
    split
    · exact h
    · refine OnlyOf.setSegment (s := s.openStream _) h _ fun seg hseg ↦ ?_
      obtain rfl := some.inj hseg
      rfl
  rw [appendChunk_eq]
  dsimp only
  split_ifs
  · exact hopened
  · exact hopened
  · exact hopened
  · refine OnlyOf.setSegment (s := setFile _ _ _) hopened _ fun seg hseg ↦ ?_
    obtain rfl := some.inj hseg
    exact howner

theorem finalizeSegment (h : s.OnlyOf a) (req : Finalize S) :
    (s.finalizeSegment a req).1.OnlyOf a := by
  unfold Recorder.finalizeSegment
  split
  · next seg hseg => exact OnlyOf.setSegment (s := s.close seg.out) h req.key (by simp)
  · exact h

end OnlyOf

theorem remux_openSegments (owner : O) (i : ℕ)
    (fixed : Option (List B)) : (s.remux owner i fixed).openSegments = s.openSegments := by
  unfold remux
  split
  · split <;> rfl
  · rfl

theorem record_openSegments (blobId : List B → K) (owner : O) (i : ℕ) (duration : Option ℤ) :
    (s.record blobId owner i duration).openSegments = s.openSegments := by
  unfold record
  split
  · split <;> rfl
  · rfl

theorem startSession_openSegments (owner : O) (now : ℤ) (req : Start S) :
    (s.startSession owner now req).1.openSegments = s.openSegments := by
  unfold startSession
  split <;> rfl

theorem startSession_same (h : SameFor a s t) (now : ℤ) (req : Start S) :
    SameFor a (s.startSession a now req).1 (t.startSession a now req).1 ∧
      (s.startSession a now req).2 = (t.startSession a now req).2 := by
  unfold startSession
  rw [← h.dbs]
  split
  · exact ⟨h, rfl⟩
  · exact ⟨h.setDb _, rfl⟩

theorem startSession_other (hne : b ≠ a) (now : ℤ) (req : Start S) :
    SameFor a (s.startSession b now req).1 s := by
  unfold startSession
  split
  · exact SameFor.refl a s
  · exact setDb_other _ hne

theorem InPlace.startSession (h : s.InPlace) (owner : O) (now : ℤ) (req : Start S) :
    (s.startSession owner now req).1.InPlace := by
  unfold Recorder.startSession
  split
  · exact h
  · exact h.setDb _

theorem endSession_same (h : SameFor a s t) (now : ℤ) (session : Option S) :
    SameFor a (s.endSession a now session).1 (t.endSession a now session).1 := by
  unfold endSession
  rw [← h.dbs]
  exact h.setDb _

omit [DecidableEq S] in
theorem abandon_same (h : SameFor a s t) (i : ℕ) : SameFor a (s.abandon a i) (t.abandon a i) := by
  unfold abandon
  rw [← h.jobs]
  exact h.setJobs _

end Recorder

/-- Two histories hold the same for an owner, who was given the same answers. -/
structure History.SameFor (a : O) (h h' : History O S B K) : Prop where
  recorder : h.recorder.SameFor a h'.recorder
  answers : h.answers a = h'.answers a

namespace History

variable {a : O} {h h' : History O S B K}

omit [DecidableEq S] in
theorem SameFor.answer (hsame : h.SameFor a h') {r r' : Recorder O S B K × Option Answer}
    (hrecorder : r.1.SameFor a r'.1) (hanswer : r.2 = r'.2) :
    (h.answer a r).SameFor a (h'.answer a r') where
  recorder := hrecorder
  answers := by simp [History.answer, hsame.answers, hanswer]

omit [DecidableEq S] in
theorem answer_other {b : O} (hne : b ≠ a) {r : Recorder O S B K × Option Answer}
    (hrecorder : r.1.SameFor a h.recorder) : (h.answer b r).SameFor a h where
  recorder := hrecorder
  answers := by simp [History.answer, hne.symm]

variable {e : Event O S B} (blobId : List B → K)

/-- A step of another owner changes nothing of the owner's. -/
theorem step_other (hne : e.owner ≠ a) (hplace : h.recorder.InPlace) (hown : NamesOwn h e) :
    (h.step blobId e).SameFor a h := by
  cases e with
  | start owner now req => exact answer_other hne (startSession_other hne now req)
  | append owner chunk => exact answer_other hne (appendChunk_other hne hplace hown)
  | finalize owner req => exact answer_other hne (finalizeSegment_other hne hplace hown)
  | finish owner now session => exact answer_other hne (setDb_other _ hne)
  | remux owner i fixed => exact ⟨remux_other hne hplace i fixed, rfl⟩
  | record owner i duration => exact ⟨record_other blobId hne i duration, rfl⟩
  | abandon owner i => exact ⟨setJobs_other _ hne, rfl⟩

/-- A step of the owner does the same where the owner has the same. -/
theorem step_own (howner : e.owner = a) (hplace : h.recorder.InPlace) (hown : NamesOwn h e)
    (honly : h'.recorder.OnlyOf a) (hsame : h.SameFor a h') :
    (h.step blobId e).SameFor a (h'.step blobId e) := by
  subst howner
  have hrecorder := hsame.recorder
  cases e with
  | start owner now req =>
    have hstart := startSession_same hrecorder now req
    exact hsame.answer hstart.1 (congrArg some hstart.2)
  | append owner chunk =>
    have happend := appendChunk_same hrecorder hplace hown (honly chunk.key)
    exact hsame.answer happend.1 happend.2
  | finalize owner req =>
    have hfinalize := finalizeSegment_same hrecorder hown (honly req.key)
    exact hsame.answer hfinalize.1 (congrArg some hfinalize.2)
  | finish owner now session =>
    exact hsame.answer (endSession_same hrecorder now session) rfl
  | remux owner i fixed => exact ⟨remux_same hrecorder hplace i fixed, hsame.answers⟩
  | record owner i duration =>
    exact ⟨record_same blobId hrecorder hplace i duration, hsame.answers⟩
  | abandon owner i => exact ⟨abandon_same hrecorder i, hsame.answers⟩

theorem step_inPlace (hplace : h.recorder.InPlace) (hown : NamesOwn h e) :
    (h.step blobId e).recorder.InPlace := by
  cases e with
  | start owner now req => exact hplace.startSession owner now req
  | append owner chunk => exact hplace.appendChunk owner chunk
  | finalize owner req => exact hplace.finalizeSegment hown
  | finish owner now session => exact hplace.setDb _
  | remux owner i fixed => exact hplace.remux owner i fixed
  | record owner i duration => exact hplace.record blobId owner i duration
  | abandon owner i => exact hplace.abandon owner i

theorem step_onlyOf (howner : e.owner = a) (honly : h.recorder.OnlyOf a) :
    (h.step blobId e).recorder.OnlyOf a := by
  subst howner
  cases e with
  | start owner now req =>
    intro key seg hopen
    exact honly key seg (by rwa [← startSession_openSegments owner now req])
  | append owner chunk => exact honly.appendChunk chunk
  | finalize owner req => exact honly.finalizeSegment req
  | finish owner now session => exact honly
  | remux owner i fixed =>
    intro key seg hopen
    exact honly key seg (by rwa [← remux_openSegments owner i fixed])
  | record owner i duration =>
    intro key seg hopen
    exact honly key seg (by rwa [← record_openSegments blobId owner i duration])
  | abandon owner i => exact honly

/-- The history, the history of the owner's events alone, and what relates them. -/
structure Related (a : O) (h h' : History O S B K) : Prop where
  same : h.SameFor a h'
  inPlace : h.recorder.InPlace
  onlyOf : h'.recorder.OnlyOf a

theorem Related.other (hrel : Related a h h') (hne : e.owner ≠ a) (hown : NamesOwn h e) :
    Related a (h.step blobId e) h' where
  same := by
    have hframe := step_other blobId hne hrel.inPlace hown
    exact ⟨hframe.recorder.trans hrel.same.recorder, hframe.answers.trans hrel.same.answers⟩
  inPlace := step_inPlace blobId hrel.inPlace hown
  onlyOf := hrel.onlyOf

theorem Related.own (hrel : Related a h h') (howner : e.owner = a) (hown : NamesOwn h e) :
    Related a (h.step blobId e) (h'.step blobId e) where
  same := step_own blobId howner hrel.inPlace hown hrel.onlyOf hrel.same
  inPlace := step_inPlace blobId hrel.inPlace hown
  onlyOf := step_onlyOf blobId howner hrel.onlyOf

/-- A process that has just started: no segment is open and no job is left. -/
structure Fresh (h : History O S B K) : Prop where
  segments : ∀ key, h.recorder.openSegments key = none
  jobs : ∀ a, h.recorder.jobs a = []

omit [DecidableEq O] [DecidableEq S] in
theorem Fresh.related (hfresh : h.Fresh) (a : O) : Related a h h where
  same := ⟨Recorder.SameFor.refl a h.recorder, rfl⟩
  inPlace := by
    constructor
    · intro key seg hseg
      exact absurd ((hfresh.segments key).symm.trans hseg) (by simp)
    · intro b job hjob
      rw [hfresh.jobs b] at hjob
      cases hjob
  onlyOf := by
    intro key seg hseg
    exact absurd ((hfresh.segments key).symm.trans hseg) (by simp)

end History

/-- What an owner has and is answered is what the owner's own requests give. -/
def Separate (blobId : List B → K) (start : History O S B K) (events : List (Event O S B)) : Prop :=
  ∀ a, (Runs.run (History.step blobId) start events).SameFor a
      (Runs.run (History.step blobId) start (events.filter fun e ↦ e.owner = a)) ∧
    ∀ early e late, events = early ++ e :: late → e.owner ≠ a →
      (Runs.run (History.step blobId) start (early ++ [e])).SameFor a
        (Runs.run (History.step blobId) start early)

theorem owners_never_mix (blobId : List B → K) {start : History O S B K} (hfresh : start.Fresh)
    (events : List (Event O S B)) (hown : Runs.Along (History.step blobId) NamesOwn start events) :
    Separate blobId start events := by
  intro a
  constructor
  · have hrel := run_filter_related Event.owner a NamesOwn (History.Related a)
      (fun h h' e hne hguard hrel ↦ hrel.other blobId hne hguard)
      (fun h h' e howner hguard hrel ↦ hrel.own blobId howner hguard) (hfresh.related a) hown
    exact hrel.same
  · intro early e late heq hne
    rw [heq, along_append] at hown
    have hplace : (run (History.step blobId) start early).recorder.InPlace :=
      run_preserves_along NamesOwn (fun h ↦ h.recorder.InPlace)
        (fun h e hplace hguard ↦ History.step_inPlace blobId hplace hguard)
        (hfresh.related a).inPlace hown.1
    rw [run_append]
    exact History.step_other blobId hne hplace hown.2.1

theorem owners_never_mix_example : Separate id (.empty : History ℕ ℕ ℕ (List ℕ))
      [.append 1 ⟨some 7, some 0, some 0, none, [10]⟩, .append 2 ⟨some 8, some 0, some 0, none, [20]⟩,
        .finalize 1 ⟨some 7, some 0, some 0⟩] :=
  owners_never_mix id ⟨fun _ ↦ rfl, fun _ ↦ rfl⟩ _ (by decide)

/-- The second owner continues the first owner's segment, in the first owner's file. -/
theorem shared_key_mixes : ¬ ∀ events, Separate id (.empty : History ℕ ℕ ℕ (List ℕ)) events := by
  intro h
  have hframe := (h [.append 1 ⟨some 7, some 0, some 0, none, [10]⟩,
    .append 2 ⟨some 7, some 0, some 1, none, [20]⟩] 1).2
    [.append 1 ⟨some 7, some 0, some 0, none, [10]⟩]
    (.append 2 ⟨some 7, some 0, some 1, none, [20]⟩) [] rfl (by decide)
  have hfile := hframe.recorder.files ⟨1, some 7, 0, .bin⟩ rfl
  exact absurd hfile (by decide)

end Simmis.Screen
