import Simmis.Library.Runs
import Mathlib.Data.List.Infix

/-!
# Screen recordings

The browser sends a recording in segments and a segment in chunks. A finalized segment is rewritten
for seeking, hashed and recorded under its owner. The open segments stand in one table, keyed by
what the client names.
-/

namespace Simmis.Screen

inductive Ext where
  | mp4 | webm | bin
deriving DecidableEq, Repr

/-- `str/includes?` -/
def includes (s sub : String) : Bool := decide (sub.toList <:+: s.toList)

/-- `ext-for` -/
def extFor (mime : Option String) : Ext :=
  if includes (mime.getD "") "mp4" then .mp4
  else if includes (mime.getD "") "webm" then .webm
  else .bin

/-- The path of a segment file; a malformed session id parses to `none`. -/
structure Path (O S : Type) where
  owner : O
  session : Option S
  idx : ℤ
  ext : Ext
deriving DecidableEq

/-- `segment-path` -/
def segmentPath {O S : Type} (owner : O) (session : Option S) (idx : ℤ) (mime : Option String) :
    Path O S :=
  ⟨owner, session, idx, extFor mime⟩

/-- A `FileOutputStream`: the file and how many streams were opened on it before. -/
structure Stream (O S : Type) where
  path : Path O S
  serial : ℕ
deriving DecidableEq

/-- The key of the table of open segments. -/
abbrev Key (S : Type) := Option S × ℤ

/-- A value of the table of open segments. -/
structure Segment (O S : Type) where
  out : Stream O S
  path : Path O S
  bytes : ℕ
  nextSeq : ℤ
  owner : O
  mime : Option String
deriving DecidableEq

/-- `:recording.session/...` -/
structure SessionRow (S : Type) where
  id : Option S
  startedAt : Option ℤ := none
  mime : Option String := none
  width : Option ℤ := none
  height : Option ℤ := none
  fps : Option ℤ := none
  endedAt : Option ℤ := none
deriving DecidableEq

/-- `:recording.segment/...`, with the bytes before remuxing. -/
structure SegmentRow (S B K : Type) where
  session : Option S
  idx : ℤ
  offsetMs : ℤ
  durationMs : ℤ
  bytes : ℕ
  blobId : K
  source : List B
deriving DecidableEq

/-- The recordings database of one owner; every segment row has the status `:ready`. -/
structure Db (S B K : Type) where
  sessions : List (SessionRow S)
  segments : List (SegmentRow S B K)

/-- What a finalization still has to do; `source` is set by its remux. -/
structure Job (O S B : Type) where
  session : Option S
  idx : ℤ
  path : Path O S
  offsetMs : ℤ
  source : Option (List B)
deriving DecidableEq

variable {O S B K : Type} [DecidableEq O] [DecidableEq S]

/-- The process and its disk. -/
structure Recorder (O S B K : Type) where
  openSegments : Key S → Option (Segment O S)
  files : Path O S → Option (List B)
  streams : Path O S → ℕ
  closed : Stream O S → Bool
  dbs : O → Db S B K
  jobs : O → List (Job O S B)

def Recorder.empty : Recorder O S B K where
  openSegments _ := none
  files _ := none
  streams _ := 0
  closed _ := false
  dbs _ := ⟨[], []⟩
  jobs _ := []

structure Answer where
  status : ℕ
  body : String
deriving DecidableEq, Repr

namespace Answer

def malformed : Answer := ⟨400, "malformed session-id"⟩
def started : Answer := ⟨200, "started"⟩
def duplicate : Answer := ⟨200, "duplicate"⟩
def outOfOrder : Answer := ⟨409, "out of order"⟩
def ok : Answer := ⟨200, "ok"⟩
def finalizing : Answer := ⟨200, "finalizing"⟩
def noSuchSegment : Answer := ⟨404, "no such open segment"⟩
def ended : Answer := ⟨200, "ended"⟩

end Answer

namespace Recorder

variable (s : Recorder O S B K)

def setSegment (key : Key S) (seg : Option (Segment O S)) : Recorder O S B K :=
  { s with openSegments := Function.update s.openSegments key seg }

variable (path : Path O S)

def setFile (content : List B) : Recorder O S B K :=
  { s with files := Function.update s.files path (some content) }

def setStreams (count : ℕ) : Recorder O S B K :=
  { s with streams := Function.update s.streams path count }

def setDb (owner : O) (db : Db S B K) : Recorder O S B K :=
  { s with dbs := Function.update s.dbs owner db }

def setJobs (owner : O) (jobs : List (Job O S B)) : Recorder O S B K :=
  { s with jobs := Function.update s.jobs owner jobs }

/-- `.close` -/
def close (out : Stream O S) : Recorder O S B K :=
  { s with closed := Function.update s.closed out true }

/-- The bytes of a file; a missing file reads as an empty one. -/
def content : List B := (s.files path).getD []

/-- `(FileOutputStream. path true)`: the file is created where it is missing, else kept. -/
def openStream : Recorder O S B K :=
  (s.setFile path (s.content path)).setStreams path (s.streams path + 1)

/-- The stream that `openStream` opens. -/
def stream : Stream O S := ⟨path, s.streams path⟩

/-- `.write`; a closed stream throws. -/
def write (out : Stream O S) (bytes : List B) : Option (Recorder O S B K) :=
  if s.closed out then none else some (s.setFile out.path (s.content out.path ++ bytes))

end Recorder

structure Start (S : Type) where
  session : Option S
  mime : Option String
  width : Option ℤ
  height : Option ℤ
  fps : Option ℤ
deriving DecidableEq

structure Chunk (S B : Type) where
  session : Option S
  segment : Option ℤ
  seqNo : Option ℤ
  mime : Option String
  bytes : List B
deriving DecidableEq

structure Finalize (S : Type) where
  session : Option S
  segment : Option ℤ
  offsetMs : Option ℤ
deriving DecidableEq

namespace Chunk

variable (chunk : Chunk S B)

def idx : ℤ := chunk.segment.getD 0

def seq : ℤ := chunk.seqNo.getD 0

def key : Key S := (chunk.session, chunk.idx)

def path (owner : O) : Path O S := segmentPath owner chunk.session chunk.idx chunk.mime

/-- The segment that `append-chunk!` opens on a stream. -/
def opened (owner : O) (out : Stream O S) : Segment O S :=
  { out, path := out.path, bytes := 0, nextSeq := 0, owner, mime := chunk.mime }

end Chunk

def Segment.counted (seg : Segment O S) (bytes : List B) : Segment O S :=
  { seg with bytes := seg.bytes + bytes.length, nextSeq := seg.nextSeq + 1 }

namespace Finalize

variable (req : Finalize S)

def idx : ℤ := req.segment.getD 0

def key : Key S := (req.session, req.idx)

def job (seg : Segment O S) : Job O S B where
  session := req.session
  idx := req.idx
  path := seg.path
  offsetMs := req.offsetMs.getD 0
  source := none

end Finalize

/-- The attributes that a transaction asserts win over the stored ones. -/
def SessionRow.merge (stored tx : SessionRow S) : SessionRow S where
  id := stored.id
  startedAt := tx.startedAt <|> stored.startedAt
  mime := tx.mime <|> stored.mime
  width := tx.width <|> stored.width
  height := tx.height <|> stored.height
  fps := tx.fps <|> stored.fps
  endedAt := tx.endedAt <|> stored.endedAt

/-- `:recording.session/id` is an identity; a row without one is new. -/
def Db.transactSession (db : Db S B K) (tx : SessionRow S) : Db S B K :=
  if tx.id.isSome ∧ ∃ row ∈ db.sessions, row.id = tx.id then
    { db with sessions := db.sessions.map fun row ↦ if row.id = tx.id then row.merge tx else row }
  else { db with sessions := db.sessions ++ [tx] }

/-- A segment row has to name a session. -/
def Db.transactSegment (db : Db S B K) (row : SegmentRow S B K) : Db S B K :=
  if row.session.isSome ∧ ∃ stored ∈ db.sessions, stored.id = row.session then
    { db with segments := db.segments ++ [row] }
  else db

namespace Recorder

variable (s : Recorder O S B K) (owner : O)

/-- `start-session!` -/
def startSession (now : ℤ) (req : Start S) : Recorder O S B K × Answer :=
  match req.session with
  | none => (s, .malformed)
  | some sid =>
    (s.setDb owner ((s.dbs owner).transactSession
      { id := some sid
        startedAt := some now
        mime := some (req.mime.getD "video/webm")
        width := some (req.width.getD 0)
        height := some (req.height.getD 0)
        fps := some (req.fps.getD 0) }), .started)

/-- The segment of a chunk, opened on its file where the table has none. -/
def segmentOf (chunk : Chunk S B) : Recorder O S B K × Segment O S :=
  match s.openSegments chunk.key with
  | some seg => (s, seg)
  | none =>
    let path := chunk.path owner
    let seg := chunk.opened owner (s.stream path)
    ((s.openStream path).setSegment chunk.key (some seg), seg)

/-- `swap! open-segments update`; a segment that is gone throws. -/
def count (chunk : Chunk S B) : Option (Recorder O S B K) :=
  (s.openSegments chunk.key).map fun seg ↦
    s.setSegment chunk.key (some (seg.counted chunk.bytes))

/-- `append-chunk!`; `none` is an exception. -/
def appendChunk (chunk : Chunk S B) : Recorder O S B K × Option Answer :=
  let (s, seg) := s.segmentOf owner chunk
  if chunk.seq < seg.nextSeq then (s, some .duplicate)
  else if seg.nextSeq < chunk.seq then (s, some .outOfOrder)
  else
    match s.write seg.out chunk.bytes with
    | none => (s, none)
    | some s =>
      match s.count chunk with
      | none => (s, none)
      | some s => (s, some .ok)

/-- `swap! open-segments dissoc` and the future of the finalization. -/
def removeSegment (req : Finalize S) (seg : Segment O S) : Recorder O S B K :=
  (s.setSegment req.key none).setJobs owner (s.jobs owner ++ [req.job seg])

/-- `finalize-segment!` -/
def finalizeSegment (req : Finalize S) : Recorder O S B K × Answer :=
  match s.openSegments req.key with
  | some seg => ((s.close seg.out).removeSegment owner req seg, .finalizing)
  | none => (s, .noSuchSegment)

/-- `end-session!` -/
def endSession (now : ℤ) (session : Option S) : Recorder O S B K × Answer :=
  (s.setDb owner ((s.dbs owner).transactSession { id := session, endedAt := some now }), .ended)

/-- `remux!`, in the job at `i`; `fixed` is what ffmpeg wrote, if it succeeded. -/
def remux (i : ℕ) (fixed : Option (List B)) : Recorder O S B K :=
  match (s.jobs owner)[i]? with
  | some job =>
    match job.source with
    | none =>
      let source := s.content job.path
      (s.setFile job.path (fixed.getD source)).setJobs owner
        ((s.jobs owner).set i { job with source := some source })
    | some _ => s
  | none => s

/-- The rest of the future: the file is measured, stored as a blob and recorded. -/
def record (blobId : List B → K) (s : Recorder O S B K) (owner : O) (i : ℕ)
    (duration : Option ℤ) : Recorder O S B K :=
  match (s.jobs owner)[i]? with
  | some job =>
    match job.source with
    | some source =>
      let bytes := s.content job.path
      (s.setDb owner ((s.dbs owner).transactSegment
        { session := job.session
          idx := job.idx
          offsetMs := job.offsetMs
          durationMs := duration.getD 0
          bytes := bytes.length
          blobId := blobId bytes
          source })).setJobs owner ((s.jobs owner).eraseIdx i)
    | none => s
  | none => s

/-- A future that throws is logged and gone. -/
def abandon (i : ℕ) : Recorder O S B K := s.setJobs owner ((s.jobs owner).eraseIdx i)

end Recorder

end Simmis.Screen
