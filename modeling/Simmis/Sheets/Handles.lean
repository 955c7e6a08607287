import Simmis.Sheets.Engine

/-!
# Handles

Open workbooks stand in one table for the whole process, under ids that are counted, each with the
scope that it was opened through. A call may read and write the files of its own scope.
-/

namespace Simmis.Sheets

variable {W A S F : Type}

structure Node where
  id : String
  blob : String
deriving DecidableEq

/-- The filesystem of a scope: a size may be unknown, and writing impossible. -/
structure Fs (F : Type) where
  readBytes : F → Arg → Except Thrown (Option (List UInt8))
  stat : Option (F → Arg → Except Thrown (Option (Option ℤ)))
  writeFile : Option (F → String → List UInt8 → String → F × Except Thrown Node)

/-- An open workbook. -/
structure Entry (S W : Type) where
  id : String
  path : Arg
  scope : S
  sha : String
  size : ℕ
  wb : W
  edits : List (ℤ × Scalar)
  touched : ℤ

abbrev Table (S W : Type) := List (Entry S W)

def maxHandles : ℕ := 16
def handleTtlMs : ℤ := 30 * 60 * 1000

def xlsxMime : String := "application/vnd.openxmlformats-officedocument.spreadsheetml.sheet"

def isLive (now : ℤ) (entry : Entry S W) : Bool := now - entry.touched ≤ handleTtlMs

/-- `evict-stale!` -/
def evictStale (now : ℤ) (handles : Table S W) : Table S W :=
  let live := handles.filter (isLive now)
  if live.length ≤ maxHandles then live
  else (live.insertionSort fun a b ↦ a.touched ≤ b.touched).drop (live.length - maxHandles)

def isKey (name : String) : Arg → Bool
  | .keyword key => key = name
  | _ => false

/-- The value of a keyword in a map. -/
def keyed (name : String) (entries : List (Arg × Arg)) : Arg :=
  ((entries.find? fun entry ↦ isKey name entry.1).map Prod.snd).getD .nil

def handleId : Arg → Arg
  | .string id => .string id
  | .map entries =>
    match keyed "handle" entries with
    | .nil => keyed "id" entries
    | .boolean false => keyed "id" entries
    | id => id
  | _ => .nil

def entryAt (handles : Table S W) : Arg → Option (Entry S W)
  | .string id => handles.find? fun entry ↦ entry.id = id
  | _ => none

def openIds (handles : Table S W) : Finset String := (handles.map Entry.id).toFinset

def update (handles : Table S W) (id : String) (f : Entry S W → Entry S W) : Table S W :=
  handles.map fun entry ↦ if entry.id = id then f entry else entry

def touch (now : ℤ) (entry : Entry S W) : Entry S W := { entry with touched := now }

/-- Drop the workbook of an id. -/
def dissoc (handles : Table S W) : Arg → Table S W
  | .string id => handles.filter fun entry ↦ entry.id ≠ id
  | _ => handles

inductive Call
  | open (path : Arg)
  | sheets (h : Arg)
  | get (h ref : Arg)
  | range (h ref : Arg)
  | deps (h ref : Arg)
  | dependents (h ref : Arg)
  | formulas (h sheet : Arg)
  | explain (h ref : Arg)
  | set (h ref v : Arg)
  | setMany (h m : Arg)
  | recalc (h : Arg)
  | saveAs (h dest : Arg)
  | close (h : Arg)

/-- What a call returns; for an unknown handle all ids that are open. -/
inductive Reply
  | opened (handle : String) (path : Arg) (summary : Summary)
  | answered (answer : Answer)
  | closed (id : Arg)
  | unknownHandle (id : Arg) (opened : Finset String)
  | failed (problem : Problem)

/-- The `:error` and the `:message` of a reply. -/
def Reply.error (engine : Engine W A) : Reply → Option (String × String)
  | unknownHandle id _ => some ("unknown-handle", "no open workbook for handle " ++ engine.prStr id ++
      " — (sheet/open \"/drive/…xlsx\") returns a fresh one")
  | failed problem => some (problem.kind, problem.message engine)
  | _ => none

/-- The reply, the table, the caller's files, and whether one was opened. -/
structure Outcome (S W F : Type) where
  reply : Reply
  handles : Table S W
  files : F
  opened : Bool

def guarded : Except Problem Answer → Reply
  | .ok answer => .answered answer
  | .error problem => .failed problem

def thrown {α : Type} : Except Thrown α → Except Problem α := Except.mapError .thrown

variable (engine : Engine W A) (fs : Fs F)

/-- Apply `f` to the workbook of a handle. -/
def withEntry (handles : Table S W) (files : F) (h : Arg) (f : Entry S W → Outcome S W F) :
    Outcome S W F :=
  match entryAt handles (handleId h) with
  | none => ⟨.unknownHandle (handleId h) (openIds handles), handles, files, false⟩
  | some entry => f entry

/-- Ask the workbook of a handle. -/
def ask (now : ℤ) (handles : Table S W) (files : F) (h : Arg)
    (question : W → Except Problem Answer) : Outcome S W F :=
  withEntry handles files h fun entry ↦
    ⟨guarded (question entry.wb), update handles entry.id (touch now), files, false⟩

/-- The workbook of a path, read and checked. -/
def load (seed : ℕ) (files : F) (path : Arg) : Except Problem (W × List UInt8) := do
  let known ← match fs.stat with
    | none => .ok none
    | some stat => (thrown (stat files path)).map Option.join
  require (known.all fun size ↦ size ≤ maxOpenBytes) (.tooLarge (known.getD 0) true)
  let bytes ← thrown (fs.readBytes files path)
  let bytes ← demand bytes (.noSuchFile path)
  require ((bytes.length : ℤ) ≤ maxOpenBytes) (.tooLarge bytes.length false)
  let wb ← (engine.load seed bytes).mapError .unreadable
  return (wb, bytes)

def doOpen (scope : S) (id : String) (now : ℤ) (seed : ℕ) (handles : Table S W) (files : F)
    (path : Arg) : Outcome S W F :=
  match load engine fs seed files path with
  | .error problem => ⟨.failed problem, handles, files, false⟩
  | .ok (wb, bytes) =>
    let entry := ⟨id, path, scope, engine.sha256 bytes, bytes.length, wb, [], now⟩
    ⟨.opened id path (summarize engine wb), evictStale now (handles ++ [entry]), files, true⟩

def Entry.replaced (after : W) (entry : Entry S W) : Entry S W := { entry with wb := after }

def Entry.edited (after : W) (pairs : List (ℤ × Scalar)) (entry : Entry S W) : Entry S W :=
  { entry with wb := after, edits := entry.edits ++ pairs }

/-- The workbook after its edits, the edits, and what they have changed. -/
def parseAndApply (seed : ℕ) (wb : W) (parse : W → Except Problem (List (ℤ × Scalar))) :
    Except Problem (W × List (ℤ × Scalar) × Answer) := do
  let pairs ← parse wb
  let (after, answer) ← applyEdits engine seed wb pairs
  return (after, pairs, answer)

/-- Edit the workbook of a handle. -/
def edit (now : ℤ) (seed : ℕ) (handles : Table S W) (files : F) (h : Arg)
    (parse : W → Except Problem (List (ℤ × Scalar))) : Outcome S W F :=
  withEntry handles files h fun entry ↦
    let handles := update handles entry.id (touch now)
    match parseAndApply engine seed entry.wb parse with
    | .error problem => ⟨.failed problem, handles, files, false⟩
    | .ok (after, pairs, answer) =>
      ⟨.answered answer, update handles entry.id (Entry.edited after pairs), files, false⟩

def doSet (now : ℤ) (seed : ℕ) (handles : Table S W) (files : F) (h ref v : Arg) : Outcome S W F :=
  edit engine now seed handles files h fun wb ↦ [(ref, v)].mapM (parsePair engine wb)

def doSetMany (now : ℤ) (seed : ℕ) (handles : Table S W) (files : F) (h : Arg) : Arg → Outcome S W F
  | .map m => edit engine now seed handles files h fun wb ↦ m.mapM (parsePair engine wb)
  | m => ⟨.failed (.notAMap m), handles, files, false⟩

def doRecalc (seed : ℕ) (handles : Table S W) (files : F) (h : Arg) : Outcome S W F :=
  withEntry handles files h fun entry ↦
    let recalculated := recalculate engine seed entry.wb
    ⟨.answered recalculated.2, update handles entry.id (Entry.replaced recalculated.1), files, false⟩

/-- The destination of a copy: a new `.xlsx` file. -/
def checkDestination (entry : Entry S W) (files : F) : Arg → Except Problem String
  | .string dest => do
    require ((engine.lowerCase dest).endsWith ".xlsx") (.badDestination (.string dest))
    match entry.path with
    | .string path => require (dest ≠ path) (.overwrite entry.path)
    | _ => .ok ()
    let known ← match fs.stat with
      | none => .ok none
      | some stat => thrown (stat files (.string dest))
    require (known.isNone) (.exists dest)
    return dest
  | dest => .error (.badDestination dest)

/-- The patched copy of the file that a workbook was read from. -/
def patched (entry : Entry S W) (files : F) : Except Problem (List UInt8) := do
  require (entry.edits ≠ []) .noEdits
  let original ← thrown (fs.readBytes files entry.path)
  let original ← demand original (.originalGone entry.path)
  require (engine.sha256 original = entry.sha) (.fileChanged entry.path)
  thrown (engine.patch original entry.edits)

/-- A copy of an open workbook, with its edits, in the files of the caller. -/
def saveEntry (entry : Entry S W) (files : F) (dest : Arg) : F × Reply :=
  match fs.writeFile with
  | none => (files, .failed .readOnly)
  | some write =>
    match checkDestination engine fs entry files dest with
    | .error problem => (files, .failed problem)
    | .ok dest =>
      match patched engine fs entry files with
      | .error problem => (files, .failed problem)
      | .ok bytes =>
        let (files, node) := write files dest bytes xlsxMime
        (files, guarded ((thrown node).map fun node ↦
          .saved dest bytes.length entry.edits.length node.id node.blob))

def doSaveAs (handles : Table S W) (files : F) (h dest : Arg) : Outcome S W F :=
  withEntry handles files h fun entry ↦
    let saved := saveEntry engine fs entry files dest
    ⟨saved.2, handles, saved.1, false⟩

def doClose (handles : Table S W) (files : F) (h : Arg) : Outcome S W F :=
  ⟨.closed (handleId h), dissoc handles (handleId h), files, false⟩

/-- A call by the vocabulary of a scope; `id` is that of the next workbook. -/
def perform (scope : S) (id : String) (now : ℤ) (seed : ℕ) (handles : Table S W) (files : F) :
    Call → Outcome S W F
  | .open path => doOpen engine fs scope id now seed handles files path
  | .sheets h => ask now handles files h fun wb ↦ .ok (doSheets engine wb)
  | .get h ref => ask now handles files h fun wb ↦ doGet engine wb ref
  | .range h ref => ask now handles files h fun wb ↦ doRange engine wb ref
  | .deps h ref => ask now handles files h fun wb ↦ doDeps engine wb ref
  | .dependents h ref => ask now handles files h fun wb ↦ doDependents engine wb ref
  | .formulas h sheet => ask now handles files h fun wb ↦ doFormulas engine wb sheet
  | .explain h ref => ask now handles files h fun wb ↦ doExplain engine wb ref
  | .set h ref v => doSet engine now seed handles files h ref v
  | .setMany h m => doSetMany engine now seed handles files h m
  | .recalc h => doRecalc engine seed handles files h
  | .saveAs h dest => doSaveAs engine fs handles files h dest
  | .close h => doClose handles files h

structure State (S W F : Type) where
  handles : Table S W
  counter : ℕ
  files : S → F

def State.init (files : S → F) : State S W F := ⟨[], 0, files⟩

/-- A call through a scope at a time, or another change of its files. -/
inductive Event (S F : Type)
  | call (scope : S) (now : ℤ) (seed : ℕ) (call : Call)
  | external (scope : S) (files : F)

def sheetId (n : ℕ) : String := "sheet-" ++ toString n

variable [DecidableEq S] (filesystems : S → Fs F)

/-- What comes of a call in the process. -/
def State.outcome (s : State S W F) (scope : S) (now : ℤ) (seed : ℕ) (call : Call) :
    Outcome S W F :=
  perform engine (filesystems scope) scope (sheetId (s.counter + 1)) now seed s.handles
    (s.files scope) call

def step (s : State S W F) : Event S F → State S W F
  | .call scope now seed call =>
    let outcome := s.outcome engine filesystems scope now seed call
    { handles := outcome.handles
      counter := if outcome.opened then s.counter + 1 else s.counter
      files := Function.update s.files scope outcome.files }
  | .external scope files => { s with files := Function.update s.files scope files }

/-- What an event returns to its scope. -/
def reply (s : State S W F) : Event S F → Option Reply
  | .call scope now seed call => some (s.outcome engine filesystems scope now seed call).reply
  | .external _ _ => none

end Simmis.Sheets
