import Simmis.Screen.Segments

/-!
# Stages of a segment

While a segment records, its file holds the counted chunks and at most one that is not yet counted;
once it is over, no request reaches its file again. The stages follow each other in every run whose
requests stay out of each other's way.
-/

namespace Simmis.Screen

open List Option Recorder Thread Source World Lists Function Runs

variable {O S B K : Type} [DecidableEq O] [DecidableEq S]
variable (key : Key S) (src : Source O B)

/-- The stream on which a segment is recorded. -/
def Source.out : Stream O S := ⟨src.path key, 0⟩

/-- Where the segment is, with the thread that opens its file or has written a chunk. -/
inductive Stage (O S : Type) where
  | absent
  | opening (i : ℕ)
  | recording (seg : Segment O S) (counter : Option ℕ)
  | closed (n : ℕ)

/-- Nothing of the segment has been finalized. -/
def Recorder.Blank (s : Recorder O S B K) : Prop :=
  (∀ owner, (s.jobs owner).filter (fun job ↦ job.key = key) = []) ∧
    (s.dbs src.owner).segments.filter (fun row ↦ row.key = key) = []

/-- The finalized segment is recorded, or one job will record it, or it is lost. -/
def Recorder.Closing (n : ℕ) (s : Recorder O S B K) : Prop :=
  (∀ owner, owner ≠ src.owner → (s.jobs owner).filter (fun job ↦ job.key = key) = []) ∧
    (((s.jobs src.owner).filter (fun job ↦ job.key = key) = [] ∧
      ((s.dbs src.owner).segments.filter (fun row ↦ row.key = key) = [] ∨
        ∃ row, (s.dbs src.owner).segments.filter (fun row ↦ row.key = key) = [row] ∧
          row.source = src.bytes n)) ∨
    ((s.dbs src.owner).segments.filter (fun row ↦ row.key = key) = [] ∧
      ∃ job, (s.jobs src.owner).filter (fun job ↦ job.key = key) = [job] ∧
        job.path = src.path key ∧ job.source.getD (s.content (src.path key)) = src.bytes n))

/-- What the recorder holds of the segment. -/
def Stage.Holds (s : Recorder O S B K) : Stage O S → Prop
  | .absent => s.openSegments key = none ∧ s.files (src.path key) = none ∧
      s.streams (src.path key) = 0 ∧ s.Blank key src
  | .opening _ => s.openSegments key = none ∧ s.files (src.path key) = some [] ∧
      s.streams (src.path key) = 1 ∧ s.Blank key src
  | .recording seg counter => s.openSegments key = some seg ∧
      (seg.out = src.out key ∧ seg.path = src.path key ∧ 0 ≤ seg.nextSeq) ∧
      s.files (src.path key) = some (src.bytes (seg.nextSeq.toNat + counter.toList.length)) ∧
      s.streams (src.path key) = 1 ∧ s.Blank key src
  | .closed n => s.openSegments key = none ∧ (s.files (src.path key)).isSome ∧
      s.closed (src.out key) = true ∧ s.Closing key src n

/-- What the threads of a segment may hold. -/
structure Bounds (O S B : Type) where
  live : Prop
  acked : ℤ
  closed : Prop
  publishing : ℕ → Segment O S → Prop
  counting : ℕ → Chunk S B → Prop

def Stage.bounds (closed : Prop) : Stage O S → Bounds O S B
  | .absent => ⟨False, 0, False, fun _ _ ↦ False, fun _ _ ↦ False⟩
  | .opening i => ⟨False, 0, False, fun j seg ↦
      j = i ∧ seg.out = src.out key ∧ seg.path = src.path key ∧ seg.nextSeq = 0, fun _ _ ↦ False⟩
  | .recording seg counter => ⟨True, seg.nextSeq, closed, fun _ _ ↦ False, fun j chunk ↦
      counter = some j ∧ chunk.seq = seg.nextSeq⟩
  | .closed n => ⟨True, n, True, fun _ _ ↦ False, fun _ _ ↦ True⟩

def Thread.Fits (b : Bounds O S B) (i : ℕ) : Thread O S B → Prop
  | .append _ _ (.publish seg) => b.publishing i seg
  | .append _ chunk (.write seg) =>
    b.live ∧ seg.out = src.out key ∧ chunk.seq = seg.nextSeq
  | .append _ chunk .count => b.counting i chunk
  | .append _ chunk (.done (some answer)) =>
    answer = .ok ∨ answer = .duplicate → chunk.seq < b.acked
  | .finalize _ _ (.close seg) => b.live ∧ seg.out = src.out key ∧ seg.path = src.path key
  | .finalize _ _ (.remove seg) => b.live ∧ seg.path = src.path key ∧ b.closed
  | _ => True

/-- The thread carries a request of the recording. -/
def Thread.From : Thread O S B → Prop
  | .append owner chunk _ => owner = src.owner ∧ chunk.mime = src.mime ∧ 0 ≤ chunk.seq ∧
      chunk.bytes = src.chunk chunk.seq.toNat
  | .finalize owner _ _ => owner = src.owner

/-- The bounds grow for the thread at an index. -/
structure Bounds.Le (j : ℕ) (b b' : Bounds O S B) : Prop where
  live : b.live → b'.live
  acked : b.acked ≤ b'.acked
  closed : b.closed → b'.closed
  publishing : ∀ seg, b.publishing j seg → b'.publishing j seg
  counting : ∀ chunk, b.counting j chunk → b'.counting j chunk

/-- The segment stands at a stage. -/
structure World.At (stage : Stage O S) (w : World O S B K) : Prop where
  holds : stage.Holds key src w.recorder
  threads : ∀ i (th : Thread O S B), w.threads[i]? = some th → th.key = key → th.From src ∧
    th.Fits key src (stage.bounds key src (w.recorder.closed (src.out key) = true)) i
  counter : ∀ seg j, stage = .recording seg (some j) →
    ∃ th, w.threads[j]? = some th ∧ th.uncounted key = true

variable {key src}

section

omit [DecidableEq O] [DecidableEq S]

theorem Thread.Fits.mono {b b' : Bounds O S B} {i : ℕ} {th : Thread O S B}
    (hfits : th.Fits key src b i) (hle : b.Le i b') : th.Fits key src b' i := by
  have hacked := hle.acked
  cases th with
  | append owner chunk at_ =>
    cases at_ with
    | read | opening => trivial
    | publish seg => exact hle.publishing seg hfits
    | write seg => exact ⟨hle.live hfits.1, hfits.2⟩
    | count => exact hle.counting chunk hfits
    | done answer =>
      cases answer with
      | none => trivial
      | some answer => exact fun hanswer ↦ Int.lt_of_lt_of_le (hfits hanswer) hacked
  | finalize owner req at_ =>
    cases at_ with
    | read | done => trivial
    | close seg => exact ⟨hle.live hfits.1, hfits.2⟩
    | remove seg => exact ⟨hle.live hfits.1, hfits.2.1, hle.closed hfits.2.2⟩

/-- A request that was cut off holds nothing. -/
theorem Thread.Fits.cut {b b' : Bounds O S B} {i : ℕ} {th : Thread O S B}
    (hfits : th.Fits key src b i) (hle : b.acked ≤ b'.acked) : th.cut.Fits key src b' i := by
  cases th with
  | append owner chunk at_ =>
    cases at_ with
    | done answer =>
      cases answer with
      | none => trivial
      | some answer => exact fun hanswer ↦ Int.lt_of_lt_of_le (hfits hanswer) hle
    | read | opening | publish | write | count => trivial
  | finalize owner req at_ => cases at_ <;> trivial

theorem Stage.bounds_le (stage : Stage O S) (j : ℕ) {c c' : Prop} (h : c → c') :
    (stage.bounds key src c : Bounds O S B).Le j (stage.bounds key src c') := by
  cases stage with
  | absent | opening | closed => exact ⟨id, Int.le_refl _, id, fun _ ↦ id, fun _ ↦ id⟩
  | recording => exact ⟨id, Int.le_refl _, h, fun _ ↦ id, fun _ ↦ id⟩

end

omit [DecidableEq O] in
/-- Whatever is kept under other keys does not matter. -/
theorem Stage.Holds.frame {s t : Recorder O S B K} {stage : Stage O S}
    (hholds : stage.Holds key src s) (hsame : Recorder.SameKey key s t) :
    stage.Holds key src t := by
  have hpath : (src.path key).key = key := rfl
  have hcontent : t.content (src.path key) = s.content (src.path key) := by
    unfold content
    rw [hsame.files _ hpath]
  have hblank : s.Blank key src → t.Blank key src := by
    intro hblank
    refine ⟨fun owner ↦ ?_, ?_⟩
    · rw [hsame.jobs]
      exact hblank.1 owner
    · rw [hsame.rows]
      exact hblank.2
  cases stage with
  | absent =>
    obtain ⟨hsegment, hfile, hstreams, hrest⟩ := hholds
    exact ⟨hsame.segment.trans hsegment, (hsame.files _ hpath).trans hfile,
      (hsame.streams _ hpath).trans hstreams, hblank hrest⟩
  | opening i =>
    obtain ⟨hsegment, hfile, hstreams, hrest⟩ := hholds
    exact ⟨hsame.segment.trans hsegment, (hsame.files _ hpath).trans hfile,
      (hsame.streams _ hpath).trans hstreams, hblank hrest⟩
  | recording seg counter =>
    obtain ⟨hsegment, hseg, hfile, hstreams, hrest⟩ := hholds
    exact ⟨hsame.segment.trans hsegment, hseg, (hsame.files _ hpath).trans hfile,
      (hsame.streams _ hpath).trans hstreams, hblank hrest⟩
  | closed n =>
    obtain ⟨hsegment, hfile, hclosed, hclosing⟩ := hholds
    refine ⟨hsame.segment.trans hsegment, ?_, (hsame.closed (src.out key) hpath).trans hclosed, ?_⟩
    · rw [hsame.files _ hpath]
      exact hfile
    · unfold Recorder.Closing
      rw [hsame.jobs, hsame.rows, hcontent]
      refine ⟨fun owner howner ↦ ?_, hclosing.2⟩
      rw [hsame.jobs]
      exact hclosing.1 owner howner

/-! ## One step of a thread -/

namespace World

variable {w : World O S B K} {stage stage' : Stage O S} {i : ℕ}

section

omit [DecidableEq O]

section

variable (h : w.At key src stage)
include h

/-- A thread of the segment moves: the bounds grow for the others, and it keeps to them. -/
theorem At.move {t : Recorder O S B K} {th : Thread O S B} (hholds : stage'.Holds key src t)
    (hle : ∀ j ≠ i, (stage.bounds key src (w.recorder.closed (src.out key)) :
      Bounds O S B).Le j (stage'.bounds key src (t.closed (src.out key)))) (hfrom : th.From src)
    (hfits : th.Fits key src (stage'.bounds key src (t.closed (src.out key))) i)
    (hlength : i < w.threads.length) (hcounter : ∀ seg j, stage' = .recording seg (some j) →
      (j = i ∧ th.uncounted key) ∨ (j ≠ i ∧ ∃ seg', stage = .recording seg' (some j))) :
    World.At key src stage' ⟨t, w.threads.set i th⟩ where
  holds := hholds
  threads j th' hget hkey := by
    by_cases hj : j = i
    · subst hj
      rw [getElem?_set_self hlength] at hget
      obtain rfl := some.inj hget
      exact ⟨hfrom, hfits⟩
    · rw [getElem?_set_ne (Ne.symm hj)] at hget
      obtain ⟨hfrom', hfits'⟩ := h.threads j th' hget hkey
      exact ⟨hfrom', hfits'.mono (hle j hj)⟩
  counter seg j hstage := by
    obtain ⟨rfl, huncounted⟩ | ⟨hj, seg', hold⟩ := hcounter seg j hstage
    · exact ⟨th, getElem?_set_self hlength, huncounted⟩
    · obtain ⟨th', hget, huncounted⟩ := h.counter seg' j hold
      exact ⟨th', by rwa [getElem?_set_ne (Ne.symm hj)], huncounted⟩

/-- A thread moves while the stage stays; it was not the one that the stage waits for. -/
theorem At.stay {t : Recorder O S B K} {th th' : Thread O S B} (hget : w.threads[i]? = some th)
    (hwaits : th.uncounted key = false) (hholds : stage.Holds key src t)
    (hclosed : w.recorder.closed (src.out key) → t.closed (src.out key)) (hfrom : th'.From src)
    (hfits : th'.Fits key src (stage.bounds key src (t.closed (src.out key))) i) :
    World.At key src stage ⟨t, w.threads.set i th'⟩ := by
  have hlength : i < w.threads.length := (List.getElem?_eq_some_iff.mp hget).1
  refine h.move hholds (fun j _ ↦ stage.bounds_le j hclosed) hfrom hfits hlength ?_
  intro seg j hstage
  refine .inr ⟨?_, seg, hstage⟩
  rintro rfl
  obtain ⟨th', hget', huncounted⟩ := h.counter seg j hstage
  obtain rfl := some.inj (hget.symm.trans hget')
  exact absurd huncounted (by rw [hwaits]; decide)

/-- The table holds the segment just while it records. -/
theorem At.segment {seg : Segment O S} (hseg : w.recorder.openSegments key = some seg) :
    ∃ counter, stage = .recording seg counter := by
  cases stage with
  | recording seg' counter =>
    obtain rfl := some.inj (h.holds.1.symm.trans hseg)
    exact ⟨counter, rfl⟩
  | absent | opening | closed =>
    have hnone := h.holds.1
    rw [hseg] at hnone
    cases hnone

/-- The file is missing just while the segment is absent. -/
theorem At.missing (hfile : w.recorder.files (src.path key) = none) : stage = .absent := by
  cases stage with
  | absent => rfl
  | opening i =>
    have hsome := h.holds.2.1
    rw [hfile] at hsome
    cases hsome
  | recording seg counter =>
    have hsome := h.holds.2.2.1
    rw [hfile] at hsome
    cases hsome
  | closed n =>
    have hsome := h.holds.2.1
    rw [hfile] at hsome
    cases hsome

end

end

omit [DecidableEq O] [DecidableEq S] in
/-- The answer to a checked chunk keeps to the bounds of a recording segment. -/
theorem check_fits {owner : O} {chunk : Chunk S B} {seg : Segment O S} {counter : Option ℕ}
    {c : Prop} (hout : seg.out = src.out key) : (append owner chunk (chunk.check seg)).Fits key src
      ((Stage.recording seg counter).bounds key src c) i := by
  obtain ⟨hcheck, hseq⟩ | ⟨hcheck, hseq⟩ | ⟨hcheck, hseq⟩ := check_cases chunk seg
  · rw [hcheck]
    exact fun _ ↦ hseq
  · rw [hcheck]
    intro hanswer
    exact absurd hanswer (by decide)
  · rw [hcheck]
    exact ⟨trivial, hout, hseq⟩

/-- The next stage; once the segment is over, its file stays as it is. -/
def Next (key : Key S) (src : Source O B) (stage : Stage O S) (w w' : World O S B K) : Prop :=
  ∃ stage' : Stage O S, w'.At key src stage' ∧
    ∀ n, stage = .closed n → w'.recorder.files (src.path key) = w.recorder.files (src.path key)

variable {owner : O} {chunk : Chunk S B} {req : Finalize S}

theorem At.append_read (h : w.At key src stage)
    (hget : w.threads[i]? = some (.append owner chunk .read)) (hkey : chunk.key = key) :
    Next key src stage w (w.advance i) := by
  obtain ⟨hfrom, -⟩ := h.threads i _ hget hkey
  subst hkey
  refine ⟨stage, ?_, fun n hn ↦ ?_⟩
  · simp only [advance, hget, Thread.step, Recorder.stepAppend, Prod.map]
    cases hseg : w.recorder.openSegments chunk.key with
    | none => exact h.stay hget rfl h.holds id hfrom trivial
    | some seg =>
      obtain ⟨counter, rfl⟩ := h.segment hseg
      exact h.stay hget rfl h.holds id hfrom (check_fits h.holds.2.1.1)
  · simp only [advance, hget, Thread.step, Recorder.stepAppend, Prod.map]
    split <;> rfl

omit [DecidableEq O] [DecidableEq S] in
theorem path_eq {owner : O} {chunk : Chunk S B} {at_ : AppendAt O S} (hkey : chunk.key = key)
    (hfrom : (append owner chunk at_).From src) : chunk.path owner = src.path key := by
  subst hkey
  unfold Chunk.path path
  rw [hfrom.1, hfrom.2.1]
  rfl

theorem At.append_opening (h : w.At key src stage)
    (hget : w.threads[i]? = some (.append owner chunk .opening)) (hkey : chunk.key = key)
    (horderly : Orderly key w (.advance i)) : Next key src stage w (w.advance i) := by
  obtain ⟨hfrom, -⟩ := h.threads i _ hget hkey
  have hpath := path_eq hkey hfrom
  have hfile : w.recorder.files (src.path key) = none := by
    rw [← hpath]
    simpa [Orderly, Thread.Apart, hget, hkey] using horderly
  obtain rfl := h.missing hfile
  obtain ⟨hsegment, -, hstreams, hblank⟩ := h.holds
  have hlength : i < w.threads.length := (List.getElem?_eq_some_iff.mp hget).1
  refine ⟨.opening i, ?_, fun n hn ↦ by cases hn⟩
  simp only [advance, hget, Thread.step, Recorder.stepAppend, Prod.map, hpath]
  refine h.move ⟨hsegment, ?_, ?_, hblank⟩ ?_ hfrom ⟨rfl, ?_, rfl, rfl⟩ hlength ?_
  · simp [openStream, setFile, setStreams, content, hfile]
  · simp [openStream, setFile, setStreams, hstreams]
  · intro j hj
    exact ⟨False.elim, Int.le_refl _, False.elim, fun _ ↦ False.elim, fun _ ↦ False.elim⟩
  · simp [Chunk.opened, stream, out, hstreams]
  · intro seg j hstage
    cases hstage

theorem At.append_publish (h : w.At key src stage) {seg : Segment O S}
    (hget : w.threads[i]? = some (.append owner chunk (.publish seg))) (hkey : chunk.key = key) :
    Next key src stage w (w.advance i) := by
  obtain ⟨hfrom, hfits⟩ := h.threads i _ hget hkey
  subst hkey
  have hlength : i < w.threads.length := (List.getElem?_eq_some_iff.mp hget).1
  cases stage with
  | absent | recording | closed => exact hfits.elim
  | opening j =>
    obtain ⟨rfl, hout, hpath, hnext⟩ := hfits
    obtain ⟨-, hfile, hstreams, hblank⟩ := h.holds
    refine ⟨.recording seg none, ?_, fun n hn ↦ by cases hn⟩
    simp only [advance, hget, Thread.step, Recorder.stepAppend, Prod.map]
    refine h.move ⟨?_, ⟨hout, hpath, by omega⟩, ?_, hstreams, hblank⟩ ?_ hfrom
      (check_fits hout) hlength ?_
    · simp [Recorder.setSegment]
    · simpa [Recorder.setSegment, hnext, Source.bytes] using hfile
    · intro j hj
      exact ⟨False.elim, by simp [Stage.bounds, hnext], False.elim, fun _ hp ↦ hj hp.1,
        fun _ ↦ False.elim⟩
    · intro seg' j hstage
      cases hstage

omit [DecidableEq O] [DecidableEq S] in
theorem bytes_succ (n : ℕ) : src.bytes (n + 1) = src.bytes n ++ src.chunk n := by
  simp [bytes, range_succ]

omit [DecidableEq O] in
/-- No thread of the segment waits to count where none is found waiting. -/
theorem At.counter_none (h : w.At key src stage) {seg : Segment O S} {counter : Option ℕ}
    (hstage : stage = .recording seg counter)
    (hnone : ∀ th ∈ w.threads, th.uncounted key = false) : counter = none := by
  cases counter with
  | none => rfl
  | some j =>
    obtain ⟨th, hget, huncounted⟩ := h.counter seg j hstage
    rw [hnone th (mem_of_getElem? hget)] at huncounted
    cases huncounted

section

variable (h : w.At key src stage)
include h

theorem At.append_write {seg : Segment O S}
    (hget : w.threads[i]? = some (.append owner chunk (.write seg))) (hkey : chunk.key = key)
    (horderly : Orderly key w (.advance i)) : Next key src stage w (w.advance i) := by
  obtain ⟨hfrom, hlive, hout, hseq⟩ := h.threads i _ hget hkey
  have hlength : i < w.threads.length := (List.getElem?_eq_some_iff.mp hget).1
  by_cases hclosed : w.recorder.closed seg.out
  · refine ⟨stage, ?_, fun n hn ↦ ?_⟩
    · simp only [advance, hget, Thread.step, Recorder.stepAppend, Recorder.write, hclosed, Prod.map]
      exact h.stay hget rfl h.holds id hfrom trivial
    · simp [advance, hget, Thread.step, Recorder.stepAppend, Recorder.write, hclosed, Prod.map]
  · have horderly' : w.recorder.openSegments key = some seg ∧
        ∀ th ∈ w.threads, th.uncounted key = false := by
      simpa [Orderly, Thread.Apart, hget, hkey, hclosed] using horderly
    obtain ⟨hentry, hnone⟩ := horderly'
    obtain ⟨counter, rfl⟩ := h.segment hentry
    obtain rfl := h.counter_none rfl hnone
    obtain ⟨hsegment, ⟨-, hpath, hpos⟩, hfile, hstreams, hblank⟩ := h.holds
    have hbytes : chunk.bytes = src.chunk seg.nextSeq.toNat := by
      rw [hfrom.2.2.2, hseq]
    refine ⟨.recording seg (some i), ?_, fun n hn ↦ by cases hn⟩
    simp only [advance, hget, Thread.step, Recorder.stepAppend, Recorder.write, hclosed, Prod.map]
    refine h.move ⟨hsegment, ⟨hout, hpath, hpos⟩, ?_, hstreams, hblank⟩ ?_ hfrom ⟨rfl, hseq⟩
      hlength ?_
    · have hcontent : w.recorder.content (src.path key) = src.bytes seg.nextSeq.toNat := by
        simp [content, hfile]
      simp [Recorder.setFile, hout, Source.out, hcontent, hbytes, bytes_succ]
    · intro j hj
      exact ⟨id, Int.le_refl _, id, fun _ ↦ id, fun _ hc ↦ by cases hc.1⟩
    · intro seg' j hstage
      obtain ⟨-, hj⟩ := Stage.recording.inj hstage
      obtain rfl := some.inj hj
      exact .inl ⟨rfl, by simp [Thread.uncounted, hkey]⟩

theorem At.append_count (hget : w.threads[i]? = some (.append owner chunk .count))
    (hkey : chunk.key = key) : Next key src stage w (w.advance i) := by
  obtain ⟨hfrom, hcounting⟩ := h.threads i _ hget hkey
  have hlength : i < w.threads.length := (List.getElem?_eq_some_iff.mp hget).1
  subst hkey
  cases stage with
  | absent | opening => exact hcounting.elim
  | closed n =>
    have hnone := h.holds.1
    refine ⟨.closed n, ?_, fun n hn ↦ ?_⟩
    · simp only [advance, hget, Thread.step, Recorder.stepAppend, Recorder.count, hnone, Prod.map]
      refine h.move h.holds (fun j _ ↦ Stage.bounds_le _ j id) hfrom trivial hlength ?_
      intro seg j hstage
      cases hstage
    · simp [advance, hget, Thread.step, Recorder.stepAppend, Recorder.count, hnone, Prod.map]
  | recording seg counter =>
    obtain ⟨rfl, hseq⟩ := hcounting
    obtain ⟨hsegment, ⟨hout, hpath, hpos⟩, hfile, hstreams, hblank⟩ := h.holds
    refine ⟨.recording (seg.counted chunk.bytes) none, ?_, fun n hn ↦ by cases hn⟩
    simp only [advance, hget, Thread.step, Recorder.stepAppend, Recorder.count, hsegment, Prod.map]
    refine h.move ⟨?_, ⟨hout, hpath, ?_⟩, ?_, hstreams, hblank⟩ ?_ hfrom ?_ hlength ?_
    · simp [Recorder.setSegment]
    · simp only [Segment.counted]
      omega
    · have hnext : (seg.counted chunk.bytes).nextSeq.toNat = seg.nextSeq.toNat + 1 := by
        simp only [Segment.counted]
        omega
      simpa [Recorder.setSegment, hnext] using hfile
    · intro j hj
      refine ⟨id, ?_, id, fun _ ↦ id, fun _ hc ↦ ?_⟩
      · simp only [Stage.bounds, Segment.counted]
        omega
      · exact absurd (some.inj hc.1).symm hj
    · intro _
      simp only [Stage.bounds, Segment.counted]
      omega
    · intro seg' j hstage
      cases (Stage.recording.inj hstage).2

theorem At.append_done {answer : Option Answer}
    (hget : w.threads[i]? = some (.append owner chunk (.done answer))) (hkey : chunk.key = key) :
    Next key src stage w (w.advance i) := by
  obtain ⟨hfrom, hfits⟩ := h.threads i _ hget hkey
  refine ⟨stage, ?_, fun n hn ↦ ?_⟩
  · simp only [advance, hget, Thread.step, Recorder.stepAppend, Prod.map]
    exact h.stay hget rfl h.holds id hfrom hfits
  · simp [advance, hget, Thread.step, Recorder.stepAppend, Prod.map]

theorem At.finalize_read (hget : w.threads[i]? = some (.finalize owner req .read))
    (hkey : req.key = key) : Next key src stage w (w.advance i) := by
  obtain ⟨hfrom, -⟩ := h.threads i _ hget hkey
  subst hkey
  refine ⟨stage, ?_, fun n hn ↦ ?_⟩
  · simp only [advance, hget, Thread.step, Recorder.stepFinalize, Prod.map]
    cases hseg : w.recorder.openSegments req.key with
    | none => exact h.stay hget rfl h.holds id hfrom trivial
    | some seg =>
      obtain ⟨counter, rfl⟩ := h.segment hseg
      exact h.stay hget rfl h.holds id hfrom ⟨trivial, h.holds.2.1.1, h.holds.2.1.2.1⟩
  · simp only [advance, hget, Thread.step, Recorder.stepFinalize, Prod.map]
    split <;> rfl

theorem At.finalize_close {seg : Segment O S}
    (hget : w.threads[i]? = some (.finalize owner req (.close seg))) (hkey : req.key = key) :
    Next key src stage w (w.advance i) := by
  obtain ⟨hfrom, hlive, hout, hpath⟩ := h.threads i _ hget hkey
  have hclosed : (w.recorder.close seg.out).closed (src.out key) := by
    simp [close, hout]
  refine ⟨stage, ?_, fun n hn ↦ ?_⟩
  · simp only [advance, hget, Thread.step, Recorder.stepFinalize, Prod.map]
    refine h.stay hget rfl ?_ (fun _ ↦ hclosed) hfrom ?_
    · cases stage with
      | absent => exact h.holds
      | opening => exact h.holds
      | recording => exact h.holds
      | closed => exact ⟨h.holds.1, h.holds.2.1, hclosed, h.holds.2.2.2⟩
    · cases stage with
      | absent | opening => exact hlive.elim
      | recording => exact ⟨trivial, hpath, hclosed⟩
      | closed => exact ⟨trivial, hpath, trivial⟩
  · simp [advance, hget, Thread.step, Recorder.stepFinalize, Prod.map, Recorder.close]

theorem At.finalize_remove {seg : Segment O S}
    (hget : w.threads[i]? = some (.finalize owner req (.remove seg))) (hkey : req.key = key)
    (horderly : Orderly key w (.advance i)) : Next key src stage w (w.advance i) := by
  obtain ⟨hfrom, -, hpath, hclosed⟩ := h.threads i _ hget hkey
  have hlength : i < w.threads.length := (List.getElem?_eq_some_iff.mp hget).1
  have hentry : (w.recorder.openSegments key).isSome := by
    simpa [Orderly, Thread.Apart, hget, hkey] using horderly
  obtain ⟨seg', hseg'⟩ := isSome_iff_exists.mp hentry
  obtain ⟨counter, rfl⟩ := h.segment hseg'
  obtain ⟨-, ⟨-, -, hpos⟩, hfile, hstreams, hblank⟩ := h.holds
  obtain rfl : owner = src.owner := hfrom
  subst hkey
  refine ⟨.closed (seg'.nextSeq.toNat + counter.toList.length), ?_, fun n hn ↦ by cases hn⟩
  simp only [advance, hget, Thread.step, Recorder.stepFinalize, Prod.map]
  refine h.move ⟨?_, ?_, hclosed, ?_, .inr ⟨hblank.2, req.job seg, ?_, hpath, ?_⟩⟩ ?_ rfl trivial
    hlength ?_
  · simp [Recorder.removeSegment, Recorder.setSegment, Recorder.setJobs]
  · simp [Recorder.removeSegment, Recorder.setSegment, Recorder.setJobs, hfile]
  · intro other hother
    simpa [Recorder.removeSegment, Recorder.setSegment, Recorder.setJobs, hother] using
      hblank.1 other
  · have hjob : (req.job seg : Job O S B).key = req.key := rfl
    have hold := hblank.1 src.owner
    simp [Recorder.removeSegment, Recorder.setSegment, Recorder.setJobs, filter_append, hold, hjob]
  · simp [Recorder.removeSegment, Recorder.setSegment, Recorder.setJobs, Finalize.job,
      Recorder.content, hfile]
  · intro j hj
    refine ⟨id, ?_, fun _ ↦ trivial, fun _ ↦ id, fun _ _ ↦ trivial⟩
    simp only [Stage.bounds]
    omega
  · intro seg'' j hstage
    cases hstage

theorem At.finalize_done {answer : Option Answer}
    (hget : w.threads[i]? = some (.finalize owner req (.done answer))) (hkey : req.key = key) :
    Next key src stage w (w.advance i) := by
  obtain ⟨hfrom, hfits⟩ := h.threads i _ hget hkey
  refine ⟨stage, ?_, fun n hn ↦ ?_⟩
  · simp only [advance, hget, Thread.step, Recorder.stepFinalize, Prod.map]
    exact h.stay hget rfl h.holds id hfrom hfits
  · simp [advance, hget, Thread.step, Recorder.stepFinalize, Prod.map]

end

/-! ## One move -/

theorem step_key (s : Recorder O S B K) (th : Thread O S B) : (th.step s).2.key = th.key := by
  cases th <;> rfl

omit [DecidableEq O] in
/-- Other keys and new requests do not matter. -/
theorem At.frame (h : w.At key src stage) {t : Recorder O S B K} {threads : List (Thread O S B)}
    (hsame : Recorder.SameKey key w.recorder t)
    (hnew : ∀ (j : ℕ) (th : Thread O S B), threads[j]? = some th → th.key = key →
      w.threads[j]? = some th ∨ th.From src ∧ ∀ b, th.Fits key src b j)
    (hold : ∀ (j : ℕ) (th : Thread O S B), w.threads[j]? = some th → th.key = key →
      threads[j]? = some th) : World.At key src stage ⟨t, threads⟩ where
  holds := h.holds.frame hsame
  threads j th hget hkey := by
    rw [hsame.closed _ rfl]
    obtain hget' | ⟨hfrom, hfits⟩ := hnew j th hget hkey
    · exact h.threads j th hget' hkey
    · exact ⟨hfrom, hfits _⟩
  counter seg j hstage := by
    obtain ⟨th, hget, huncounted⟩ := h.counter seg j hstage
    refine ⟨th, hold j th hget ?_, huncounted⟩
    cases th with
    | append owner chunk at_ =>
      cases at_ with
      | count => exact of_decide_eq_true huncounted
      | read | opening | publish | write | done => cases huncounted
    | finalize owner req at_ => cases huncounted

theorem At.advance (h : w.At key src stage) (hplaced : w.Placed)
    (horderly : Orderly key w (.advance i)) : Next key src stage w (w.advance i) := by
  cases hget : w.threads[i]? with
  | none =>
    have hsame : w.advance i = w := by simp [World.advance, hget]
    rw [hsame]
    exact ⟨stage, h, fun _ _ ↦ rfl⟩
  | some th =>
    by_cases hkey : th.key = key
    · cases th with
      | append owner chunk at_ =>
        cases at_ with
        | read => exact h.append_read hget hkey
        | opening => exact h.append_opening hget hkey horderly
        | publish seg => exact h.append_publish hget hkey
        | write seg => exact h.append_write hget hkey horderly
        | count => exact h.append_count hget hkey
        | done answer => exact h.append_done hget hkey
      | finalize owner req at_ =>
        cases at_ with
        | read => exact h.finalize_read hget hkey
        | close seg => exact h.finalize_close hget hkey
        | remove seg => exact h.finalize_remove hget hkey horderly
        | done answer => exact h.finalize_done hget hkey
    · have hth := hplaced.threads th (mem_of_getElem? hget)
      have hsame : Recorder.SameKey key w.recorder (th.step w.recorder).1 := by
        cases th with
        | append owner chunk at_ => exact Recorder.SameKey.stepAppend hkey hth
        | finalize owner req at_ => exact Recorder.SameKey.stepFinalize hkey hth
      have hlength : i < w.threads.length := (List.getElem?_eq_some_iff.mp hget).1
      have hadvance : w.advance i =
          ⟨(th.step w.recorder).1, w.threads.set i (th.step w.recorder).2⟩ := by
        simp [World.advance, hget]
      rw [hadvance]
      refine ⟨stage, h.frame hsame ?_ ?_, fun n _ ↦ hsame.files _ rfl⟩
      · intro j th' hget' hkey'
        by_cases hj : j = i
        · subst hj
          rw [getElem?_set_self hlength] at hget'
          obtain rfl := some.inj hget'
          rw [step_key] at hkey'
          exact absurd hkey' hkey
        · rw [getElem?_set_ne (Ne.symm hj)] at hget'
          exact .inl hget'
      · intro j th' hget' hkey'
        have hj : j ≠ i := by
          rintro rfl
          obtain rfl := some.inj (hget.symm.trans hget')
          exact hkey hkey'
        rwa [getElem?_set_ne (Ne.symm hj)]

omit [DecidableEq O] in
/-- A request arrives. -/
theorem At.arrive (h : w.At key src stage) {th : Thread O S B} (hfrom : th.key = key → th.From src)
    (hfits : ∀ b, th.Fits key src b w.threads.length) :
    World.At key src stage { w with threads := w.threads ++ [th] } := by
  refine h.frame (Recorder.SameKey.refl key _) ?_ ?_
  · intro j th' hget hkey
    rcases Nat.lt_trichotomy j w.threads.length with hj | rfl | hj
    · rw [getElem?_append_left hj] at hget
      exact .inl hget
    · have hth : th = th' := by simpa using hget
      subst hth
      exact .inr ⟨hfrom hkey, hfits⟩
    · rw [getElem?_eq_none (by simp; omega)] at hget
      cases hget
  · intro j th' hget hkey
    rw [List.getElem?_append_left (List.getElem?_eq_some_iff.mp hget).1]
    exact hget

omit [DecidableEq O] in
/-- The recorder changes under other keys only. -/
theorem At.same (h : w.At key src stage) {t : Recorder O S B K}
    (hsame : Recorder.SameKey key w.recorder t) :
    World.At key src stage { w with recorder := t } :=
  h.frame hsame (fun _ _ hget _ ↦ .inl hget) (fun _ _ hget _ ↦ hget)

/-! ## Background jobs -/

omit [DecidableEq O] [DecidableEq S] in
theorem transactSession_segments [DecidableEq S] (db : Db S B K) (tx : SessionRow S) :
    (db.transactSession tx).segments = db.segments := by
  unfold Db.transactSession
  split <;> rfl

/-- The job at an index is the one of a segment that is over. -/
theorem At.job (h : w.At key src stage) {job : Job O S B}
    (hget : (w.recorder.jobs owner)[i]? = some job) (hkey : job.key = key) :
    ∃ n, stage = .closed n ∧ owner = src.owner ∧
      (w.recorder.dbs src.owner).segments.filter (fun row ↦ row.key = key) = [] ∧
      (w.recorder.jobs owner).filter (fun job ↦ job.key = key) = [job] ∧ job.path = src.path key ∧
      job.source.getD (w.recorder.content (src.path key)) = src.bytes n := by
  have hmem : job ∈ (w.recorder.jobs owner).filter (fun job ↦ job.key = key) :=
    filter_ne_nil hget (by simpa using hkey)
  have hblank : ¬ w.recorder.Blank key src := by
    intro hblank
    rw [hblank.1 owner] at hmem
    cases hmem
  cases stage with
  | absent => exact absurd h.holds.2.2.2 hblank
  | opening => exact absurd h.holds.2.2.2 hblank
  | recording => exact absurd h.holds.2.2.2.2 hblank
  | closed n =>
    obtain ⟨-, -, -, hothers, hclosing⟩ := h.holds
    have howner : owner = src.owner := by
      by_contra hne
      rw [hothers owner hne] at hmem
      cases hmem
    subst howner
    obtain ⟨hnil, -⟩ | ⟨hrows, job', hjobs, hpath, hsource⟩ := hclosing
    · rw [hnil] at hmem
      cases hmem
    · rw [hjobs] at hmem
      obtain rfl := mem_singleton.mp hmem
      exact ⟨n, rfl, rfl, hrows, hjobs, hpath, hsource⟩

theorem At.remux (h : w.At key src stage) (hplaced : w.recorder.Placed) (owner : O) (i : ℕ)
    (fixed : Option (List B)) :
    World.At key src stage { w with recorder := w.recorder.remux owner i fixed } := by
  unfold Recorder.remux
  split
  · next job hget =>
    split
    · next hsource =>
      by_cases hkey : job.key = key
      · obtain ⟨n, rfl, rfl, hrows, hjobs, hpath, hbytes⟩ := h.job hget hkey
        obtain ⟨hsegment, hfile, hclosed, hothers, -⟩ := h.holds
        rw [hsource, getD_none] at hbytes
        refine ⟨⟨hsegment, ?_, hclosed, ?_, .inr ⟨hrows,
          { job with source := some (w.recorder.content job.path) }, ?_, hpath, ?_⟩⟩, h.threads, ?_⟩
        · simp [setFile, setJobs, hpath]
        · intro other hother
          simpa [setFile, setJobs, hother] using hothers other hother
        · simp only [setFile, setJobs, update_self]
          exact filter_set_singleton hget (by simpa using hkey)
            (decide_eq_true hkey) hjobs
        · simpa [hpath] using hbytes
        · intro seg j hstage
          cases hstage
      · have hpath : job.path.key ≠ key := by
          rw [hplaced.jobs _ job (mem_of_getElem? hget)]
          exact hkey
        refine h.same ((Recorder.SameKey.setFile hpath _).trans (Recorder.SameKey.setJobs ?_))
        exact filter_set_of_neg hget (decide_eq_false hkey) (decide_eq_false hkey)
    · exact h
  · exact h

theorem At.abandon (h : w.At key src stage) (owner : O) (i : ℕ) :
    World.At key src stage { w with recorder := w.recorder.abandon owner i } := by
  unfold Recorder.abandon
  cases hget : (w.recorder.jobs owner)[i]? with
  | none =>
    have hlength := getElem?_eq_none_iff.mp hget
    rw [eraseIdx_of_length_le hlength]
    exact h.same (Recorder.SameKey.setJobs rfl)
  | some job =>
    by_cases hkey : job.key = key
    · obtain ⟨n, rfl, rfl, hrows, hjobs, hpath, hbytes⟩ := h.job hget hkey
      obtain ⟨hsegment, hfile, hclosed, hothers, -⟩ := h.holds
      refine ⟨⟨hsegment, hfile, hclosed, ?_, .inl ⟨?_, .inl hrows⟩⟩, h.threads, ?_⟩
      · intro other hother
        simpa [setJobs, hother] using hothers other hother
      · simp only [setJobs, update_self]
        exact filter_eraseIdx_singleton hget (by simpa using hkey) hjobs
      · intro seg j hstage
        cases hstage
    · refine h.same (Recorder.SameKey.setJobs ?_)
      exact filter_eraseIdx_of_neg hget (by simpa using hkey)

omit [DecidableEq O] [DecidableEq S] in
theorem filter_transactSegment [DecidableEq S] (db : Db S B K) (row : SegmentRow S B K)
    (hkey : row.key ≠ key) : ((db.transactSegment row).segments.filter fun row ↦ row.key = key) =
      db.segments.filter fun row ↦ row.key = key := by
  unfold Db.transactSegment
  split
  · simp [filter_append, hkey]
  · rfl

omit [DecidableEq O] [DecidableEq S] in
/-- The transaction of a segment row adds it, or fails. -/
theorem filter_transactSegment_own [DecidableEq S] (db : Db S B K) (row : SegmentRow S B K)
    (hkey : row.key = key) (hnone : (db.segments.filter fun row ↦ row.key = key) = []) :
    ((db.transactSegment row).segments.filter fun row ↦ row.key = key) = [] ∨
      ((db.transactSegment row).segments.filter fun row ↦ row.key = key) = [row] := by
  unfold Db.transactSegment
  split
  · simp only [filter_append, hnone, nil_append]
    simp [hkey]
  · exact .inl hnone

theorem At.record (blobId : List B → K) (h : w.At key src stage) (owner : O) (i : ℕ)
    (duration : Option ℤ) :
    World.At key src stage { w with recorder := w.recorder.record blobId owner i duration } := by
  unfold Recorder.record
  split
  · next job hget =>
    split
    · next source hsource =>
      by_cases hkey : job.key = key
      · obtain ⟨n, rfl, rfl, hrows, hjobs, hpath, hbytes⟩ := h.job hget hkey
        obtain ⟨hsegment, hfile, hclosed, hothers, -⟩ := h.holds
        rw [hsource, getD_some] at hbytes
        refine ⟨⟨hsegment, hfile, hclosed, ?_, .inl ⟨?_, ?_⟩⟩, h.threads, ?_⟩
        · intro other hother
          simpa [setDb, setJobs, hother] using hothers other hother
        · simp only [setDb, setJobs, update_self]
          exact filter_eraseIdx_singleton hget (decide_eq_true hkey) hjobs
        · simp only [setDb, setJobs, update_self]
          obtain hnil | hone := filter_transactSegment_own (w.recorder.dbs src.owner)
            ⟨job.session, job.idx, job.offsetMs, duration.getD 0,
              (w.recorder.content job.path).length, blobId (w.recorder.content job.path), source⟩
            hkey hrows
          · exact .inl hnil
          · exact .inr ⟨_, hone, hbytes⟩
        · intro seg j hstage
          cases hstage
      · refine h.same ((Recorder.SameKey.setDb ?_).trans (Recorder.SameKey.setJobs ?_))
        · exact filter_transactSegment _ _ hkey
        · exact filter_eraseIdx_of_neg hget (decide_eq_false hkey)
    · exact h
  · exact h

/-! ## Sessions and restarts -/

theorem At.start (h : w.At key src stage) (owner : O) (now : ℤ) (req : Start S) :
    World.At key src stage { w with recorder := (w.recorder.startSession owner now req).1 } := by
  unfold startSession
  split
  · exact h
  · exact h.same (Recorder.SameKey.setDb (by rw [transactSession_segments]))

theorem At.finish (h : w.At key src stage) (owner : O) (now : ℤ) (session : Option S) :
    World.At key src stage { w with recorder := (w.recorder.endSession owner now session).1 } :=
  h.same (Recorder.SameKey.setDb (by rw [transactSession_segments]))

omit [DecidableEq O] [DecidableEq S] in
theorem cut_key [DecidableEq S] (th : Thread O S B) : th.cut.key = th.key := by
  cases th with
  | append owner chunk at_ => cases at_ <;> rfl
  | finalize owner req at_ => cases at_ <;> rfl

omit [DecidableEq O] [DecidableEq S] in
theorem cut_from (th : Thread O S B) (hfrom : th.From src) : th.cut.From src := by
  cases th with
  | append owner chunk at_ => cases at_ <;> exact hfrom
  | finalize owner req at_ => cases at_ <;> exact hfrom

omit [DecidableEq O] in
/-- Requests that were cut off keep to the bounds of every stage with as many chunks. -/
theorem At.cut_threads (h : w.At key src stage) {b : Bounds O S B}
    (hle : ∀ c, (stage.bounds key src c : Bounds O S B).acked ≤ b.acked) (j : ℕ)
    (th : Thread O S B) (hget : (w.threads.map cut)[j]? = some th) (hkey : th.key = key) :
    th.From src ∧ th.Fits key src b j := by
  rw [getElem?_map, map_eq_some_iff] at hget
  obtain ⟨th', hget', rfl⟩ := hget
  rw [cut_key] at hkey
  obtain ⟨hfrom, hfits⟩ := h.threads j th' hget' hkey
  exact ⟨cut_from th' hfrom, hfits.cut (hle _)⟩

omit [DecidableEq O] in
/-- A restart loses what was not recorded. -/
theorem At.restart (h : w.At key src stage) :
    ∃ stage' : Stage O S, World.At key src stage' ⟨w.recorder.restart, w.threads.map cut⟩ := by
  cases stage with
  | absent =>
    obtain ⟨-, hfile, hstreams, -, hrows⟩ := h.holds
    refine ⟨.absent, ⟨rfl, hfile, hstreams, fun _ ↦ rfl, hrows⟩,
      h.cut_threads fun _ ↦ Int.le_refl _, ?_⟩
    intro seg j hstage
    cases hstage
  | opening i =>
    obtain ⟨-, hfile, hstreams, -, hrows⟩ := h.holds
    refine ⟨.closed 0, ⟨rfl, ?_, ?_, fun _ _ ↦ rfl, .inl ⟨rfl, .inl hrows⟩⟩,
      h.cut_threads fun _ ↦ Int.le_refl _, ?_⟩
    · simp [restart, hfile]
    · simp [restart, out, hstreams]
    · intro seg j hstage
      cases hstage
  | recording seg counter =>
    obtain ⟨-, ⟨-, -, hpos⟩, hfile, hstreams, -, hrows⟩ := h.holds
    refine ⟨.closed seg.nextSeq.toNat, ⟨rfl, ?_, ?_, fun _ _ ↦ rfl, .inl ⟨rfl, .inl hrows⟩⟩,
      h.cut_threads fun _ ↦ ?_, ?_⟩
    · simp [restart, hfile]
    · simp [restart, out, hstreams]
    · simp only [Stage.bounds]
      omega
    · intro seg j hstage
      cases hstage
  | closed n =>
    obtain ⟨-, hfile, hclosed, -, hclosing⟩ := h.holds
    refine ⟨.closed n, ⟨rfl, hfile, ?_, fun _ _ ↦ rfl, .inl ⟨rfl, ?_⟩⟩,
      h.cut_threads fun _ ↦ Int.le_refl _, ?_⟩
    · simp [restart, hclosed]
    · obtain ⟨-, hrows⟩ | ⟨hrows, -⟩ := hclosing
      · exact hrows
      · exact .inl hrows
    · intro seg j hstage
      cases hstage

/-! ## Runs -/

omit [DecidableEq O] in
theorem At.empty : World.At key src .absent (.empty : World O S B K) where
  holds := ⟨rfl, rfl, rfl, fun _ ↦ rfl, rfl⟩
  threads i th hget := by cases hget
  counter seg j hstage := by cases hstage

omit [DecidableEq O] [DecidableEq S] in
theorem Placed.empty [DecidableEq S] : (.empty : World O S B K).Placed where
  recorder := ⟨fun _ _ hopen ↦ (nomatch hopen), fun _ _ hjob ↦ (nomatch hjob)⟩
  threads th hth := by cases hth

/-- Every move that keeps the requests of a segment apart takes it to a next stage. -/
theorem At.step (blobId : List B → K) (h : w.At key src stage) (hplaced : w.Placed)
    {move : Move O S B} (hfrom : FromSource key src move) (horderly : Orderly key w move) :
    ∃ stage' : Stage O S, (w.step blobId move).At key src stage' := by
  cases move with
  | append owner chunk => exact ⟨stage, h.arrive hfrom fun _ ↦ trivial⟩
  | finalize owner req => exact ⟨stage, h.arrive hfrom fun _ ↦ trivial⟩
  | advance i =>
    obtain ⟨stage', hat, -⟩ := h.advance hplaced horderly
    exact ⟨stage', hat⟩
  | start owner now req => exact ⟨stage, h.start owner now req⟩
  | finish owner now session => exact ⟨stage, h.finish owner now session⟩
  | remux owner i fixed => exact ⟨stage, h.remux hplaced.recorder owner i fixed⟩
  | record owner i duration => exact ⟨stage, h.record blobId owner i duration⟩
  | abandon owner i => exact ⟨stage, h.abandon owner i⟩
  | restart => exact h.restart

omit [DecidableEq O] in
/-- Only a segment that is over has been finalized. -/
theorem At.finalized [DecidableEq O] (h : w.At key src stage) (hfinalized : w.Finalized key src) :
    ∃ n, stage = .closed n := by
  have hblank : ¬ w.recorder.Blank key src := by
    intro hblank
    rcases hfinalized with hrows | hpending
    · exact hrows hblank.2
    · exact hpending (hblank.1 src.owner)
  cases stage with
  | absent => exact absurd h.holds.2.2.2 hblank
  | opening => exact absurd h.holds.2.2.2 hblank
  | recording => exact absurd h.holds.2.2.2.2 hblank
  | closed n => exact ⟨n, rfl⟩

theorem At.file_kept (blobId : List B → K) (h : w.At key src stage) (hplaced : w.Placed)
    {move : Move O S B} (horderly : Orderly key w move) (hrequest : move.isRequest)
    (hfinalized : w.Finalized key src) :
    (w.step blobId move).recorder.files (src.path key) = w.recorder.files (src.path key) := by
  obtain ⟨n, rfl⟩ := h.finalized hfinalized
  cases move with
  | append | finalize => rfl
  | advance i =>
    obtain ⟨stage', -, hfile⟩ := h.advance hplaced horderly
    exact hfile n rfl
  | start | finish | remux | record | abandon | restart => cases hrequest

omit [DecidableEq O] [DecidableEq S] in
theorem acknowledged_lt [DecidableEq S] {th : Thread O S B} {b : Bounds O S B} {seq : ℤ}
    (hacked : th.acknowledged key = some seq)
    (h : th.key = key → th.From src ∧ th.Fits key src b i) : 0 ≤ seq ∧ seq < b.acked := by
  unfold acknowledged at hacked
  split at hacked
  · next owner chunk answer =>
    split at hacked
    · next hcond =>
      obtain ⟨hfrom, hfits⟩ := h hcond.1
      obtain rfl := some.inj hacked
      exact ⟨hfrom.2.2.1, hfits hcond.2⟩
    · cases hacked
  · cases hacked

omit [DecidableEq O] in
theorem At.whole [DecidableEq O] (h : w.At key src stage) : Whole key src w := by
  by_cases hrows : w.rows key src = []
  · constructor
    · simp [hrows]
    · rw [hrows]
      intro row hrow
      cases hrow
  · obtain ⟨n, rfl⟩ := h.finalized (.inl hrows)
    obtain ⟨-, -, -, -, hclosing⟩ := h.holds
    obtain ⟨-, hnil | ⟨row, hone, hsource⟩⟩ | ⟨hnil, -⟩ := hclosing
    · exact absurd hnil hrows
    · have hone' : w.rows key src = [row] := hone
      constructor
      · simp [hone']
      · rw [hone']
        intro row' hrow'
        obtain rfl := mem_singleton.mp hrow'
        refine ⟨n, hsource, fun th hth seq hacked ↦ ?_⟩
        obtain ⟨i, hget⟩ := mem_iff_getElem?.mp hth
        exact acknowledged_lt hacked (h.threads i th hget)
    · exact absurd hnil hrows

end World

/-- The segment is whole, and no request reaches its file afterwards. -/
def RecordedOnce (blobId : List B → K) (key : Key S) (src : Source O B)
    (moves : List (Move O S B)) : Prop :=
  Whole key src (Runs.run (World.step blobId) .empty moves) ∧
    ∀ early move late, moves = early ++ move :: late → move.isRequest = true →
      (Runs.run (World.step blobId) .empty early).Finalized key src →
      (Runs.run (World.step blobId) .empty (early ++ [move])).recorder.files (src.path key) =
        (Runs.run (World.step blobId) .empty early).recorder.files (src.path key)

theorem segment_recorded_once (blobId : List B → K) (key : Key S) (src : Source O B)
    (moves : List (Move O S B)) (hfrom : ∀ move ∈ moves, FromSource key src move)
    (horderly : Runs.Along (World.step blobId) (Orderly key) .empty moves) :
    RecordedOnce blobId key src moves := by
  have hrun (early : List (Move O S B)) (hearly : ∀ move ∈ early, FromSource key src move)
      (halong : Runs.Along (step blobId) (Orderly key) .empty early) :
      (run (step blobId) .empty early).Placed ∧
        ∃ stage : Stage O S, (run (step blobId) .empty early).At key src stage := by
    induction early using reverseRecOn with
    | nil => exact ⟨World.Placed.empty, .absent, World.At.empty⟩
    | append_singleton early move ih =>
      rw [along_append] at halong
      obtain ⟨hplaced, stage, hat⟩ := ih (fun m hm ↦ hearly m (by simp [hm])) halong.1
      rw [run_append]
      exact ⟨hplaced.step blobId move, hat.step blobId hplaced (hearly move (by simp)) halong.2.1⟩
  constructor
  · obtain ⟨-, stage, hat⟩ := hrun moves hfrom horderly
    exact hat.whole
  · intro early move late heq hrequest hfinalized
    subst heq
    rw [along_append] at horderly
    obtain ⟨hplaced, stage, hat⟩ := hrun early (fun m hm ↦ hfrom m (by simp [hm])) horderly.1
    rw [run_append]
    exact hat.file_kept blobId hplaced horderly.2.1 hrequest hfinalized

/-- A recording whose chunks are single bytes. -/
def bytewise : Source ℕ ℕ := ⟨1, none, fun n ↦ [n]⟩

def bytewiseChunk (n : ℕ) : Chunk ℕ ℕ := ⟨some 7, some 0, some n, none, [n]⟩

/-- A session with one segment of one chunk, to the end. -/
def oneChunk : List (Move ℕ ℕ ℕ) :=
  [.start 1 0 ⟨some 7, none, none, none, none⟩, .append 1 (bytewiseChunk 0), .advance 0,
    .advance 0, .advance 0, .advance 0, .advance 0, .finalize 1 ⟨some 7, some 0, some 0⟩,
    .advance 1, .advance 1, .advance 1, .remux 1 0 none, .record 1 0 none]

/-- Two copies of the first chunk at once. -/
def twoCopies : List (Move ℕ ℕ ℕ) :=
  [.start 1 0 ⟨some 7, none, none, none, none⟩, .append 1 (bytewiseChunk 0),
    .append 1 (bytewiseChunk 0), .advance 0, .advance 0, .advance 0, .advance 1, .advance 0,
    .advance 1, .advance 0, .advance 1, .finalize 1 ⟨some 7, some 0, some 0⟩, .advance 2,
    .advance 2, .advance 2, .remux 1 0 none, .record 1 0 none]

theorem segment_recorded_once_example : RecordedOnce id (some 7, 0) bytewise oneChunk :=
  segment_recorded_once id (some 7, 0) bytewise oneChunk (by decide) (by decide)

/-- Both copies find the segment without a chunk and are written. -/
theorem two_copies_written :
    ¬ ∀ moves : List (Move ℕ ℕ ℕ), (∀ move ∈ moves, FromSource (some 7, 0) bytewise move) →
      RecordedOnce id (some 7, 0) bytewise moves := by
  intro h
  have hwhole := (h twoCopies (by decide)).1
  have hrow : (⟨some 7, 0, 0, 0, 2, [0, 0], [0, 0]⟩ : SegmentRow ℕ ℕ (List ℕ)) ∈
      rows (some 7, 0) bytewise (run (step id) .empty twoCopies) := by
    decide
  obtain ⟨n, hsource, -⟩ := hwhole.chunks _ hrow
  have hlength := congrArg length hsource
  have hn : n = 2 := by
    simpa [bytes, bytewise, length_flatMap, eq_comm] using hlength
  subst hn
  exact absurd hsource (by decide)

end Simmis.Screen
