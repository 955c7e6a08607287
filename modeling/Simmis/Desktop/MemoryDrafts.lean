import Simmis.Markdown.Patches

/-!
# Drafts of the memory editor

A draft keeps the file it was opened from as its source. Replies and observations arrive late and in
any order; each is compared with the draft before it may move the source, and what was typed stays.
-/

namespace Simmis.Desktop.Memory

open Markdown (Source)

abbrev Path := Source
abbrev Uuid := ℕ

def maxRichRegions : ℕ := 200

/-- The descriptor of a stored file. -/
structure Entry where
  content : Uuid
  size : ℕ
  mode : ℕ
deriving DecidableEq

inductive Kind
  | markdown
  | office
  | text
  | file
  | media
deriving DecidableEq

inductive Mode
  | rich
  | source
  | other
deriving DecidableEq

/-- A file as it was read, its text only where it has one. -/
structure File (A : Type) where
  path : Path
  kind : Kind
  entry : Option Entry
  text : Option Source
  targetStamp : Option Uuid
  repositoryId : Option Uuid
  analysis : Option A
  deleted : Bool := false

/-- What another copy of the file is known to be: its body, or that it is gone. -/
inductive Incoming (A : Type)
  | body (file : File A)
  | deleted (path : Path)

namespace Incoming

variable {A : Type}

def targetStamp : Incoming A → Option Uuid
  | .body file => file.targetStamp
  | .deleted _ => none

def entry : Incoming A → Option Entry
  | .body file => file.entry
  | .deleted _ => none

def isDeleted : Incoming A → Bool
  | .body file => file.deleted
  | .deleted _ => true

end Incoming

/-- The receipt of a save, a property save or a move. -/
structure Reply (A V : Type) where
  path : Path
  entry : Entry
  text : Option Source
  analysis : Option A
  commit : V
  targetStamp : Option Uuid

/-- The document under the continuous editor, with what was typed into it. -/
structure RichBase (A V : Type) where
  id : Uuid × ℕ
  text : Option Source
  analysis : A
  models : V
  document : V
  typed : Option V

structure LocalSource (V : Type) where
  text : Source
  openedText : Source
  region : V

structure Office (V : Type) where
  text : Option Source
  savedText : Option Source
  reading : V

structure Correction (V : Type) where
  text : Source
  original : Source
  token : V

/-- The projection of the saved text, under what it was made of. -/
structure SavedCells (V : Type) where
  marker : Option Uuid × Path × Option Entry × Option Uuid
  projection : V

structure Draft (A V : Type) where
  source : File A
  text : Option Source
  analysis : Option A
  analysisText : Option Source
  generation : ℕ
  mode : Mode
  selection : V
  codeView : Option V := none
  officeMode : Option V := none
  richBase : Option (RichBase A V) := none
  richEdit : Option V := none
  localSource : Option (LocalSource V) := none
  office : Option (Office V) := none
  officeCorrection : Option (Correction V) := none
  incoming : Option (Incoming A) := none
  incomingEntry : Option (Option Entry) := none
  incomingTargetStamp : Option Uuid := none
  incomingMissing : Bool := false
  observedEntry : Option (Option Entry) := none
  observedTargetStamp : Option Uuid := none
  remoteDeleted : Bool := false
  targetStale : Bool := false
  currentTargetStamp : Option Uuid := none
  lastCommit : Option V := none
  earlierSaveReceipt : Option (Reply A V) := none
  propertySaveReceipt : Option (Reply A V) := none
  savedCells : Option (SavedCells V) := none

/-- What is read from an analysis, its projection, and a first selection. -/
structure Projector (A V : Type) where
  revision : A → Uuid
  ready : A → Bool
  slots : A → ℕ
  models : A → V
  project : Option Source → A → Except String V
  atStart : V

namespace Draft

variable {A V : Type} (d : Draft A V)

def dirty : Bool :=
  d.source.entry.isNone || d.text ≠ d.source.text ||
    (d.office.bind fun o ↦ o.text) ≠ (d.office.bind fun o ↦ o.savedText) ||
    (d.officeCorrection.any fun c ↦ c.text ≠ c.original) ||
    (d.localSource.any fun l ↦ l.text ≠ l.openedText)

/-- `same-target?` and `same-document?` of a source and a reply or a body. -/
def sameTarget (stamp : Option Uuid) : Bool := stamp = d.source.targetStamp

def sameDocument (stamp : Option Uuid) (entry : Option Entry) : Bool :=
  d.sameTarget stamp && entry = d.source.entry

/-- The incoming copy is the document that a reply stored. -/
def isIncoming (reply : Reply A V) : Bool :=
  d.incoming.any fun incoming ↦
    reply.targetStamp = incoming.targetStamp ∧ some reply.entry = incoming.entry

section Projections

variable (host : Projector A V) (d : Draft A V)

def beginRich : Except String (Draft A V) :=
  match d.richBase, d.analysis with
  | none, some analysis =>
    if host.ready analysis ∧ host.slots analysis ≤ maxRichRegions then do
      let document ← host.project d.text analysis
      .ok { d with richBase := some ⟨(host.revision analysis, d.generation), d.text, analysis,
        host.models analysis, document, none⟩ }
    else .ok d
  | _, _ => .ok d

def savedAnalysis : Option A :=
  d.source.entry.bind fun entry ↦
    if d.source.analysis.map host.revision = some entry.content then d.source.analysis
    else if d.source.text.isSome ∧ d.source.text = d.analysisText ∧
        d.analysis.map host.revision = some entry.content then d.analysis
    else none

def marker : Option Uuid × Path × Option Entry × Option Uuid :=
  (d.source.repositoryId, d.source.path, d.source.entry, (d.savedAnalysis host).map host.revision)

def ensureProjection : Except String (Draft A V) :=
  match d.savedAnalysis host with
  | some analysis =>
    if d.source.kind = .markdown ∧ d.source.text.isSome ∧ host.ready analysis ∧
        host.slots analysis ≤ maxRichRegions then
      if d.savedCells.map (·.marker) = some (d.marker host) then .ok d
      else match d.richBase with
        | some base =>
          if d.source.text = base.text then
            .ok { d with savedCells := some ⟨d.marker host, base.document⟩ }
          else do
            let projection ← host.project d.source.text analysis
            .ok { d with savedCells := some ⟨d.marker host, projection⟩ }
        | none => do
          let projection ← host.project d.source.text analysis
          .ok { d with savedCells := some ⟨d.marker host, projection⟩ }
    else .ok { d with savedCells := none }
  | none => .ok { d with savedCells := none }

/-- `draft` -/
def ofFile (file : File A) : Except String (Draft A V) :=
  let d : Draft A V := {
    source := file, text := file.text, analysis := file.analysis, analysisText := file.text
    generation := 0, mode := if file.kind = .markdown then .rich else .source
    selection := host.atStart }
  if file.kind = .markdown then do
    let opened ← d.beginRich host
    opened.ensureProjection host
  else .ok d

/-- A body of the current target, which shows that its baseline is available again. -/
def proven (old : Draft A V) (file : File A) : Bool :=
  file.targetStamp.isSome && file.entry.isSome && file.targetStamp = old.currentTargetStamp

def loaded (old : Option (Draft A V)) (file : File A) : Except String (Draft A V) :=
  match old with
  | none => ofFile host file
  | some old =>
    if old.currentTargetStamp.isSome ∧ old.currentTargetStamp ≠ file.targetStamp then .ok old
    else if old.dirty ∨ old.richEdit.isSome ∨ old.localSource.isSome then
      if old.sameDocument file.targetStamp file.entry then
        .ok { old with
          incoming := none, incomingEntry := none, remoteDeleted := false
          targetStale := if old.proven file then false else old.targetStale }
      else
        .ok { old with
          incoming := some (.body file), incomingEntry := none
          targetStale := if old.sameTarget file.targetStamp then old.targetStale else true }
    else if old.richBase.isSome ∧ old.text = file.text ∧
        old.sameDocument file.targetStamp file.entry ∧
        file.repositoryId = old.source.repositoryId ∧ file.path = old.source.path ∧
        file.kind = old.source.kind then
      ensureProjection host { old with
        source := file, analysis := file.analysis, analysisText := file.text
        targetStale := if old.proven file then false else old.targetStale }
    else do
      let d ← ofFile host file
      .ok { d with
        mode := old.mode, selection := old.selection, codeView := old.codeView
        officeMode := old.officeMode
        generation := if old.sameDocument file.targetStamp file.entry then old.generation
          else old.generation + 1 }

def loadedAtGeneration (d : Option (Draft A V)) (generation : Option ℕ) (file : File A) :
    Except String (Option (Draft A V)) :=
  if generation = d.map (·.generation) then some <$> loaded host d file else .ok d

end Projections

/-- `observed-entry` of an entry alone. -/
def observedEntryOf (entry : Option Entry) : Draft A V :=
  let d := { d with observedEntry := some entry }
  if entry = d.source.entry then
    { d with incoming := none, incomingEntry := none, remoteDeleted := false }
  else match entry with
    | none => { d with remoteDeleted := true, incoming := some (.deleted d.source.path) }
    | some _ => { d with
        remoteDeleted := false, incomingEntry := some entry
        incoming := d.incoming.filter fun incoming ↦ !incoming.isDeleted }

/-- The target whose observations a draft accepts. -/
def knownTarget : Option Uuid :=
  d.currentTargetStamp <|> d.observedTargetStamp <|> d.incomingTargetStamp <|>
    d.incoming.bind Incoming.targetStamp

/-- The incoming copy is the observed one. -/
def sameIncoming (entry : Option Entry) (stamp : Uuid) (incoming : Incoming A) : Bool :=
  entry.isSome && incoming.targetStamp = some stamp && entry = incoming.entry

/-- `observed-entry` of an entry of a target. -/
def observedStamped (entry : Option Entry) (stamp : Uuid) : Draft A V :=
  if d.knownTarget.any (· ≠ stamp) then d
  else if d.source.targetStamp = some stamp then
    let prior := { d with
      incomingTargetStamp := none, incomingMissing := false
      incoming := d.incoming.filter (sameIncoming entry stamp) }
    { prior.observedEntryOf entry with observedTargetStamp := some stamp }
  else
    { d with
      observedEntry := some entry, observedTargetStamp := some stamp, incomingEntry := some entry
      incomingTargetStamp := some stamp, targetStale := true, remoteDeleted := false
      incomingMissing := entry.isNone
      incoming := d.incoming.filter fun incoming ↦
        sameIncoming entry stamp incoming && !incoming.isDeleted }

/-- What `observe-target` does to a draft. -/
def retargeted (stamp : Uuid) (d : Draft A V) : Draft A V :=
  { d with targetStale := true, currentTargetStamp := some stamp, generation := d.generation + 1 }

section Receipts

variable (host : Projector A V) (d : Draft A V)

def analyzed (text : Source) (analysis : A) : Except String (Draft A V) :=
  let d := if some text = d.source.text ∧
      some (host.revision analysis) = d.source.entry.map (·.content) then
    { d with source := { d.source with analysis := some analysis } } else d
  if some text = d.text then do
    let d := { d with analysis := some analysis, analysisText := some text }
    let next ← (if d.mode = .rich then d.beginRich host else .ok d)
    next.ensureProjection host
  else d.ensureProjection host

def saved (sent : Option Source) (reply : Reply A V) : Except String (Draft A V) :=
  ensureProjection host { d with
    source := { d.source with entry := some reply.entry, text := sent }
    lastCommit := some reply.commit, generation := d.generation + 1
    incoming := if d.isIncoming reply then none else d.incoming
    incomingEntry :=
      if d.sameTarget reply.targetStamp ∧ d.incomingEntry = some (some reply.entry) then none
      else d.incomingEntry }

def moved (reply : Reply A V) : Draft A V :=
  { d with
    source := { d.source with path := reply.path, entry := some reply.entry }
    lastCommit := some reply.commit, generation := d.generation + 1
    incoming := none, incomingEntry := none, observedEntry := none, remoteDeleted := false }

def savedAtGeneration (generation : ℕ) (sent : Option Source) (reply : Reply A V) :
    Except String (Draft A V) :=
  if generation = d.generation ∧ d.sameTarget reply.targetStamp then d.saved host sent reply
  else .ok { d with earlierSaveReceipt := some reply }

def propertySaved (generation : ℕ) (reply : Reply A V) : Except String (Draft A V) :=
  if generation = d.generation ∧ d.sameTarget reply.targetStamp then
    if d.dirty then
      if d.incoming.isSome ∨ d.incomingEntry.isSome ∨ d.remoteDeleted then
        .ok { d with propertySaveReceipt := some reply }
      else do
        let d ← loaded host (some d) { d.source with
          entry := some reply.entry, text := reply.text, analysis := reply.analysis }
        .ok { d with propertySaveReceipt := some reply }
    else do
      let next ← d.saved host reply.text reply
      let next := { next with
        text := reply.text, analysis := reply.analysis, analysisText := reply.text
        richBase := none
        incomingEntry :=
          if d.incomingEntry = some (some reply.entry) ∧ !d.remoteDeleted then none
          else next.incomingEntry }
      if d.mode = .rich then next.beginRich host else .ok next
  else .ok { d with earlierSaveReceipt := some reply }

def useIncoming : Except String (Draft A V) :=
  match d.incoming with
  | some (.body file) =>
    if file.deleted then .ok d
    else do
      let next ← ofFile host file
      .ok { next with generation := d.generation + 1 }
  | _ => .ok d

end Receipts

end Draft

end Simmis.Desktop.Memory
