import Simmis.Screen.Recording
import Mathlib.Data.List.Flatten
import Mathlib.Data.List.Range

/-!
# Interleaved requests of a recording

Requests run on their own threads and touch the table of open segments, the streams and the files in
steps of their own. Between two steps anything else may happen, a restart of the process included.
-/

namespace Simmis.Screen

open Recorder

variable {O S B K : Type} [DecidableEq O] [DecidableEq S]

/-- Where `append-chunk!` stands; `done none` has thrown or was cut off by a restart. -/
inductive AppendAt (O S : Type) where
  | read
  | opening
  | publish (seg : Segment O S)
  | write (seg : Segment O S)
  | count
  | done (answer : Option Answer)
deriving DecidableEq

/-- Where `finalize-segment!` stands. -/
inductive FinalizeAt (O S : Type) where
  | read
  | close (seg : Segment O S)
  | remove (seg : Segment O S)
  | done (answer : Option Answer)
deriving DecidableEq

inductive Thread (O S B : Type) where
  | append (owner : O) (chunk : Chunk S B) (at_ : AppendAt O S)
  | finalize (owner : O) (req : Finalize S) (at_ : FinalizeAt O S)
deriving DecidableEq

/-- The comparison of the chunk with the segment that was read or opened. -/
def Chunk.check (chunk : Chunk S B) (seg : Segment O S) : AppendAt O S :=
  if chunk.seq < seg.nextSeq then .done (some .duplicate)
  else if seg.nextSeq < chunk.seq then .done (some .outOfOrder)
  else .write seg

variable (s : Recorder O S B K) (owner : O)

/-- The next step of `append-chunk!`. -/
def Recorder.stepAppend (chunk : Chunk S B) : AppendAt O S → Recorder O S B K × AppendAt O S
  | .read =>
    match s.openSegments chunk.key with
    | some seg => (s, chunk.check seg)
    | none => (s, .opening)
  | .opening =>
    let path := chunk.path owner
    (s.openStream path, .publish (chunk.opened owner (s.stream path)))
  | .publish seg => (s.setSegment chunk.key (some seg), chunk.check seg)
  | .write seg =>
    match s.write seg.out chunk.bytes with
    | some s => (s, .count)
    | none => (s, .done none)
  | .count =>
    match s.count chunk with
    | some s => (s, .done (some .ok))
    | none => (s, .done none)
  | .done answer => (s, .done answer)

/-- The next step of `finalize-segment!`. -/
def Recorder.stepFinalize (req : Finalize S) : FinalizeAt O S → Recorder O S B K × FinalizeAt O S
  | .read =>
    match s.openSegments req.key with
    | some seg => (s, .close seg)
    | none => (s, .done (some .noSuchSegment))
  | .close seg => (s.close seg.out, .remove seg)
  | .remove seg => (s.removeSegment owner req seg, .done (some .finalizing))
  | .done answer => (s, .done answer)

omit [DecidableEq O] [DecidableEq S] in
theorem check_cases (chunk : Chunk S B) (seg : Segment O S) :
    chunk.check seg = .done (some .duplicate) ∧ chunk.seq < seg.nextSeq ∨
      chunk.check seg = .done (some .outOfOrder) ∧ seg.nextSeq < chunk.seq ∨
      chunk.check seg = .write seg ∧ chunk.seq = seg.nextSeq := by
  unfold Chunk.check
  split_ifs with hlt hgt
  · exact .inl ⟨rfl, hlt⟩
  · exact .inr (.inl ⟨rfl, hgt⟩)
  · exact .inr (.inr ⟨rfl, by omega⟩)

/-- One step of `append-chunk!` by itself. -/
def AppendSteps (chunk : Chunk S B) (r r' : Recorder O S B K × AppendAt O S) : Prop :=
  r.1.stepAppend owner chunk r.2 = r'

/-- One step of `finalize-segment!` by itself. -/
def FinalizeSteps (req : Finalize S) (r r' : Recorder O S B K × FinalizeAt O S) : Prop :=
  r.1.stepFinalize owner req r.2 = r'

/-- A request that no other one interrupts is `appendChunk`. -/
theorem appendChunk_steps (chunk : Chunk S B) :
    Relation.ReflTransGen (AppendSteps owner chunk) (s, .read)
      ((s.appendChunk owner chunk).1, .done (s.appendChunk owner chunk).2) := by
  have hopened : Relation.ReflTransGen (AppendSteps owner chunk) (s, .read)
      ((s.segmentOf owner chunk).1, chunk.check (s.segmentOf owner chunk).2) := by
    unfold segmentOf
    cases hseg : s.openSegments chunk.key with
    | some seg => exact .single (by simp [AppendSteps, stepAppend, hseg])
    | none =>
      have hread : AppendSteps owner chunk (s, .read) (s, .opening) := by
        simp [AppendSteps, stepAppend, hseg]
      exact .head hread (.head rfl (.head rfl .refl))
  refine hopened.trans ?_
  unfold appendChunk
  generalize s.segmentOf owner chunk = opened
  obtain ⟨t, seg⟩ := opened
  obtain ⟨hcheck, hseq⟩ | ⟨hcheck, hseq⟩ | ⟨hcheck, hseq⟩ := check_cases chunk seg
  · simp [hcheck, hseq, Relation.ReflTransGen.refl]
  · simp [hcheck, hseq, show ¬ chunk.seq < seg.nextSeq by omega, Relation.ReflTransGen.refl]
  · simp only [hcheck, hseq]
    cases hwrite : t.write seg.out chunk.bytes with
    | none => exact .single (by simp [AppendSteps, stepAppend, hwrite])
    | some t' =>
      have hstep : AppendSteps owner chunk (t, .write seg) (t', .count) := by
        simp [AppendSteps, stepAppend, hwrite]
      refine .head hstep ?_
      cases hcount : t'.count chunk with
      | none => exact .single (by simp [AppendSteps, stepAppend, hcount])
      | some t'' => exact .single (by simp [AppendSteps, stepAppend, hcount])

/-- A request that no other one interrupts is `finalizeSegment`. -/
theorem finalizeSegment_steps (req : Finalize S) :
    Relation.ReflTransGen (FinalizeSteps owner req) (s, .read)
      ((s.finalizeSegment owner req).1, .done (some (s.finalizeSegment owner req).2)) := by
  unfold finalizeSegment
  cases hseg : s.openSegments req.key with
  | none => exact .single (by simp [FinalizeSteps, stepFinalize, hseg])
  | some seg =>
    have hread : FinalizeSteps owner req (s, .read) (s, .close seg) := by
      simp [FinalizeSteps, stepFinalize, hseg]
    exact .head hread (.head rfl (.head rfl .refl))

namespace Thread

def key : Thread O S B → Key S
  | .append _ chunk _ => chunk.key
  | .finalize _ req _ => req.key

/-- A restart of the process cuts every request off that has not been answered. -/
def cut : Thread O S B → Thread O S B
  | .append owner chunk (.done answer) => .append owner chunk (.done answer)
  | .append owner chunk _ => .append owner chunk (.done none)
  | .finalize owner req (.done answer) => .finalize owner req (.done answer)
  | .finalize owner req _ => .finalize owner req (.done none)

def step (s : Recorder O S B K) : Thread O S B → Recorder O S B K × Thread O S B
  | .append owner chunk at_ => (s.stepAppend owner chunk at_).map id (.append owner chunk)
  | .finalize owner req at_ => (s.stepFinalize owner req at_).map id (.finalize owner req)

/-- The thread has written a chunk of the segment that it has not yet counted. -/
def uncounted (key : Key S) : Thread O S B → Bool
  | .append _ chunk .count => chunk.key = key
  | _ => false

/-- The chunk of the segment that the thread has answered as taken or as a duplicate. -/
def acknowledged (key : Key S) : Thread O S B → Option ℤ
  | .append _ chunk (.done (some answer)) =>
    if chunk.key = key ∧ (answer = .ok ∨ answer = .duplicate) then some chunk.seq else none
  | _ => none

end Thread

/-- The recorder and every request that was ever made, in the order of arrival. -/
structure World (O S B K : Type) where
  recorder : Recorder O S B K
  threads : List (Thread O S B)

def World.empty : World O S B K := ⟨.empty, []⟩

inductive Move (O S B : Type) where
  | append (owner : O) (chunk : Chunk S B)
  | finalize (owner : O) (req : Finalize S)
  | advance (i : ℕ)
  | start (owner : O) (now : ℤ) (req : Start S)
  | finish (owner : O) (now : ℤ) (session : Option S)
  | remux (owner : O) (i : ℕ) (fixed : Option (List B))
  | record (owner : O) (i : ℕ) (duration : Option ℤ)
  | abandon (owner : O) (i : ℕ)
  | restart
deriving DecidableEq

/-- The client sends a request or a request moves on. -/
def Move.isRequest : Move O S B → Bool
  | .append .. | .finalize .. | .advance _ => true
  | _ => false

/-- A restart empties the table, closes every stream and loses the background jobs. -/
def Recorder.restart : Recorder O S B K :=
  { s with
    openSegments := fun _ ↦ none
    closed := fun out ↦ s.closed out || decide (out.serial < s.streams out.path)
    jobs := fun _ ↦ [] }

namespace World

variable (w : World O S B K)

def advance (i : ℕ) : World O S B K :=
  match w.threads[i]? with
  | some th => ⟨(th.step w.recorder).1, w.threads.set i (th.step w.recorder).2⟩
  | none => w

def step (blobId : List B → K) (w : World O S B K) : Move O S B → World O S B K
  | .append owner chunk => { w with threads := w.threads ++ [.append owner chunk .read] }
  | .finalize owner req => { w with threads := w.threads ++ [.finalize owner req .read] }
  | .advance i => w.advance i
  | .start owner now req => { w with recorder := (w.recorder.startSession owner now req).1 }
  | .finish owner now session => { w with recorder := (w.recorder.endSession owner now session).1 }
  | .remux owner i fixed => { w with recorder := w.recorder.remux owner i fixed }
  | .record owner i duration => { w with recorder := w.recorder.record blobId owner i duration }
  | .abandon owner i => { w with recorder := w.recorder.abandon owner i }
  | .restart => ⟨w.recorder.restart, w.threads.map Thread.cut⟩

end World

def SegmentRow.key (row : SegmentRow S B K) : Key S := (row.session, row.idx)

def Job.key (job : Job O S B) : Key S := (job.session, job.idx)

def Path.key (path : Path O S) : Key S := (path.session, path.idx)

/-- What the client records under one segment: the owner, the container and the chunks. -/
structure Source (O B : Type) where
  owner : O
  mime : Option String
  chunk : ℕ → List B

variable (key : Key S) (src : Source O B)

def Source.path : Path O S := segmentPath src.owner key.1 key.2 src.mime

/-- The first chunks of the recording, each once and in order. -/
def Source.bytes (n : ℕ) : List B := (List.range n).flatMap src.chunk

/-- The requests for the segment carry the chunks of the recording. -/
def FromSource : Move O S B → Prop
  | .append owner chunk => chunk.key = key →
    owner = src.owner ∧ chunk.mime = src.mime ∧ 0 ≤ chunk.seq ∧
      chunk.bytes = src.chunk chunk.seq.toNat
  | .finalize owner req => req.key = key → owner = src.owner
  | _ => True

/-- The thread does not get in the way of another request: no chunk opens or extends a segment that
exists or is gone, and no segment is removed twice. -/
def Thread.Apart (w : World O S B K) : Thread O S B → Prop
  | .append owner chunk .opening =>
    chunk.key = key → w.recorder.files (chunk.path owner) = none
  | .append _ chunk (.write seg) =>
    chunk.key = key → w.recorder.closed seg.out = false →
      w.recorder.openSegments key = some seg ∧ ∀ th ∈ w.threads, th.uncounted key = false
  | .finalize _ req (.remove _) => req.key = key → (w.recorder.openSegments key).isSome
  | _ => True

/-- The requests for the segment stay out of each other's way. -/
def Orderly (w : World O S B K) : Move O S B → Prop
  | .advance i => ∀ th ∈ w.threads[i]?, th.Apart key w
  | _ => True

instance (src : Source O B) [DecidableEq B] : (move : Move O S B) →
    Decidable (FromSource key src move)
  | .append owner chunk =>
    inferInstanceAs (Decidable (chunk.key = key → owner = src.owner ∧ chunk.mime = src.mime ∧
      0 ≤ chunk.seq ∧ chunk.bytes = src.chunk chunk.seq.toNat))
  | .finalize owner req => inferInstanceAs (Decidable (req.key = key → owner = src.owner))
  | .advance _ | .start .. | .finish .. | .remux .. | .record .. | .abandon .. | .restart =>
    isTrue trivial

instance [DecidableEq B] (w : World O S B K) : (th : Thread O S B) → Decidable (th.Apart key w)
  | .append owner chunk .opening =>
    inferInstanceAs (Decidable (chunk.key = key → w.recorder.files (chunk.path owner) = none))
  | .append _ chunk (.write seg) =>
    inferInstanceAs (Decidable (chunk.key = key → w.recorder.closed seg.out = false →
      w.recorder.openSegments key = some seg ∧ ∀ th ∈ w.threads, th.uncounted key = false))
  | .finalize _ req (.remove _) =>
    inferInstanceAs (Decidable (req.key = key → (w.recorder.openSegments key).isSome))
  | .append _ _ .read | .append _ _ (.publish _) | .append _ _ .count | .append _ _ (.done _)
  | .finalize _ _ .read | .finalize _ _ (.close _) | .finalize _ _ (.done _) => isTrue trivial

instance [DecidableEq B] (w : World O S B K) : (move : Move O S B) → Decidable (Orderly key w move)
  | .advance i => inferInstanceAs (Decidable (∀ th ∈ w.threads[i]?, th.Apart key w))
  | .append .. | .finalize .. | .start .. | .finish .. | .remux .. | .record .. | .abandon ..
  | .restart => isTrue trivial

/-- The rows of a segment. -/
def World.rows (w : World O S B K) : List (SegmentRow S B K) :=
  (w.recorder.dbs src.owner).segments.filter fun row ↦ row.key = key

/-- The finalizations of a segment that have not ended. -/
def World.pending (w : World O S B K) (owner : O) : List (Job O S B) :=
  (w.recorder.jobs owner).filter fun job ↦ job.key = key

/-- A segment is recorded once, from the first chunks of its recording, and every chunk that was
acknowledged is among them. -/
structure Whole (w : World O S B K) : Prop where
  once : (w.rows key src).length ≤ 1
  chunks : ∀ row ∈ w.rows key src, ∃ n, row.source = src.bytes n ∧
    ∀ th ∈ w.threads, ∀ seq, th.acknowledged key = some seq → 0 ≤ seq ∧ seq < n

/-- The segment has been finalized: it is recorded or about to be. -/
def World.Finalized (w : World O S B K) : Prop := w.rows key src ≠ [] ∨ w.pending key src.owner ≠ []

end Simmis.Screen
