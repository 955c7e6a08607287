import Simmis.Library.Checks
import Simmis.Library.Table

/-!
# Summary records

A revision is an immutable summary of a node, and the head of the node names the newest one. A
projection delivers a revision to a path, and the path keeps which projection owns it.
-/

namespace Simmis.Summaries

open Except

/-- `:room.summary/...`; `details` holds the attributes that are only compared. -/
structure Revision (U D : Type) where
  revision : U
  node : U
  room : U
  generation : ℕ
  details : D
deriving DecidableEq

/-- `:summary.head/...` -/
structure Head (U : Type) where
  node : U
  room : U
  revision : U
  generation : ℕ
deriving DecidableEq

inductive Kind where
  | markdown | chat | transcript
deriving DecidableEq, Repr

/-- The kinds that deliver only the head of a node. -/
def Kind.headed : Kind → Bool
  | .markdown | .chat => true
  | .transcript => false

inductive ProjectionState where
  | reserved | writing | published
deriving DecidableEq, Repr

/-- `:summary.projection/...` -/
structure Projection (U : Type) where
  id : U
  revision : U
  sourceBasis : Option ℕ
  kind : Kind
  target : U
  room : U
  node : U
  path : String
  state : ProjectionState
  content : U
  intent : U
  receipt : Option U
deriving DecidableEq

inductive PathState where
  | writing | published
deriving DecidableEq, Repr

/-- `:summary.path/...` -/
structure Path (U K : Type) where
  id : K
  owner : U
  content : Option U
  state : PathState
deriving DecidableEq

inductive Refusal where
  | anotherRecord | anotherRoom | headChanged | anotherIntent | projectionHeld | ownerLost
deriving DecidableEq, Repr

variable {U D K : Type} [DecidableEq U] [DecidableEq D] [DecidableEq K]

structure Db (U D K : Type) [DecidableEq U] [DecidableEq K] where
  revisions : Table (Revision.revision (U := U) (D := D)) := .empty
  heads : Table (Head.node (U := U)) := .empty
  projections : Table (Projection.id (U := U)) := .empty
  paths : Table (Path.id (U := U) (K := K)) := .empty

/-- A row of a transaction, as it is after the transaction. -/
inductive Write (U D K : Type) where
  | revision (row : Revision U D)
  | head (row : Head U)
  | projection (row : Projection U)
  | path (row : Path U K)

variable (db : Db U D K)

def Db.write : Write U D K → Db U D K
  | .revision row => { db with revisions := db.revisions.put row }
  | .head row => { db with heads := db.heads.put row }
  | .projection row => { db with projections := db.projections.put row }
  | .path row => { db with paths := db.paths.put row }

def Db.transact (tx : List (Write U D K)) : Db U D K := tx.foldl Db.write db

def headIn (room node : U) : Except Refusal (Option (Head U)) := do
  let row := db.heads.get node
  require (row.all fun head ↦ room = head.room) .anotherRoom
  return row

def recordTx (row : Revision U D) (previous : Option U) : Except Refusal (List (Write U D K)) :=
  match db.revisions.get row.revision with
  | some prior => do
    require (row = prior) .anotherRecord
    return []
  | none => do
    let head ← headIn db row.room row.node
    require (previous = head.map Head.revision ∧
      row.generation = (head.map Head.generation).getD 0 + 1) .headChanged
    return [.revision row, .head ⟨row.node, row.room, row.revision, row.generation⟩]

/-- What `reserve!` reserves. -/
structure Intent (U : Type) where
  row : Projection U
  reserved : row.state = .reserved
  unanswered : row.receipt = none

def reserveProjectionTx (intent : Intent U) : Except Refusal (List (Write U D K)) :=
  match db.projections.get intent.row.id with
  | some prior => do
    require (intent.row = { prior with receipt := none }) .anotherIntent
    return []
  | none => return [.projection intent.row]

/-- Where a projection goes. -/
structure Place (U : Type) where
  room : U
  target : U
  path : String
deriving DecidableEq

def Projection.place (row : Projection U) : Place U := ⟨row.room, row.target, row.path⟩

section Paths

-- `path-id`, the hash of a place
variable (pathId : Place U → K)

def claimProjectionTx (db : Db U D K) (id : U) (expectedOwner : Option U) :
    Except Refusal (List (Write U D K)) :=
  match db.projections.get id with
  | none => .error .projectionHeld
  | some row => do
    let key := pathId row.place
    let path := db.paths.get key
    let head ← (if row.kind.headed then headIn db row.room row.node else .ok none)
    require (row.state = .reserved ∧ expectedOwner = path.map Path.owner ∧
      (path = none ∨ path.map Path.state = some .published) ∧
      (row.kind.headed = false ∨ head.map Head.revision = some row.revision)) .projectionHeld
    return [.projection { row with state := .writing },
      .path { id := key, owner := id, content := path.bind Path.content, state := .writing }]

def finishProjectionTx (db : Db U D K) (id receipt : U) : Except Refusal (List (Write U D K)) :=
  match db.projections.get id with
  | none => .error .ownerLost
  | some row =>
    match db.paths.get (pathId row.place) with
    | none => .error .ownerLost
    | some path => do
      require (row.state = .writing ∧ path.owner = id ∧ path.state = .writing) .ownerLost
      return [.projection { row with state := .published, receipt := some receipt },
        .path { path with content := some row.content, state := .published }]

end Paths

omit [DecidableEq D] in
theorem headIn_eq_ok {db : Db U D K} {room node : U} {head : Option (Head U)} :
    headIn db room node = .ok head ↔
      db.heads.get node = head ∧ ∀ row, db.heads.get node = some row → row.room = room := by
  unfold headIn
  rw [require_bind_eq_ok]
  cases db.heads.get node with
  | none => simp [pure, Except.pure]
  | some row => simp [pure, Except.pure, eq_comm, and_comm]

variable {tx : List (Write U D K)}

theorem recordTx_eq_ok {db : Db U D K} {row : Revision U D} {previous : Option U}
    (h : recordTx db row previous = .ok tx) : (db.revisions.get row.revision = some row ∧ tx = []) ∨
    (db.revisions.get row.revision = none ∧
      row.generation = ((db.heads.get row.node).map Head.generation).getD 0 + 1 ∧
      (∀ head, db.heads.get row.node = some head → head.room = row.room) ∧
      tx = [.revision row, .head ⟨row.node, row.room, row.revision, row.generation⟩]) := by
  unfold recordTx at h
  cases hprior : db.revisions.get row.revision with
  | some prior =>
    rw [hprior] at h
    obtain ⟨rfl, htx⟩ := require_bind_eq_ok.mp h
    exact .inl ⟨rfl, (ok.inj htx).symm⟩
  | none =>
    rw [hprior] at h
    obtain ⟨head, hhead, h⟩ := bind_eq_ok.mp h
    obtain ⟨rfl, hroom⟩ := headIn_eq_ok.mp hhead
    obtain ⟨⟨-, hgeneration⟩, htx⟩ := require_bind_eq_ok.mp h
    exact .inr ⟨rfl, hgeneration, hroom, (ok.inj htx).symm⟩

section

omit [DecidableEq D]

theorem reserveProjectionTx_eq_ok {db : Db U D K} {intent : Intent U}
    (h : reserveProjectionTx db intent = .ok tx) :
    tx = [] ∨ (db.projections.get intent.row.id = none ∧ tx = [.projection intent.row]) := by
  unfold reserveProjectionTx at h
  cases hprior : db.projections.get intent.row.id with
  | some prior =>
    rw [hprior] at h
    obtain ⟨-, htx⟩ := require_bind_eq_ok.mp h
    exact .inl (ok.inj htx).symm
  | none =>
    rw [hprior] at h
    exact .inr ⟨rfl, (ok.inj h).symm⟩

theorem claimProjectionTx_eq_ok {pathId : Place U → K} {db : Db U D K} {id : U}
    {expectedOwner : Option U} (h : claimProjectionTx pathId db id expectedOwner = .ok tx) :
    ∃ row, db.projections.get id = some row ∧ row.state = .reserved ∧
      (∀ path, db.paths.get (pathId row.place) = some path → path.state = .published) ∧
      (row.kind.headed → ∃ head, db.heads.get row.node = some head ∧
        head.room = row.room ∧ head.revision = row.revision) ∧
      tx = [.projection { row with state := .writing },
        .path { id := pathId row.place, owner := id, state := .writing
                content := (db.paths.get (pathId row.place)).bind Path.content }] := by
  unfold claimProjectionTx at h
  cases hrow : db.projections.get id with
  | none =>
    rw [hrow] at h
    cases h
  | some row =>
    rw [hrow] at h
    obtain ⟨head, hhead, h⟩ := bind_eq_ok.mp h
    obtain ⟨⟨hstate, -, hpath, hcurrent⟩, htx⟩ := require_bind_eq_ok.mp h
    refine ⟨row, rfl, hstate, fun path hget ↦ ?_, fun hheaded ↦ ?_, (ok.inj htx).symm⟩
    · simpa [hget] using hpath
    · rw [if_pos hheaded] at hhead
      obtain ⟨rfl, hroom⟩ := headIn_eq_ok.mp hhead
      obtain hfalse | hcurrent := hcurrent
      · rw [hheaded] at hfalse
        cases hfalse
      · obtain ⟨head, hget, hrevision⟩ := Option.map_eq_some_iff.mp hcurrent
        exact ⟨head, hget, hroom head hget, hrevision⟩

theorem finishProjectionTx_eq_ok {pathId : Place U → K} {db : Db U D K} {id receipt : U}
    (h : finishProjectionTx pathId db id receipt = .ok tx) :
    ∃ row path, db.projections.get id = some row ∧ db.paths.get (pathId row.place) = some path ∧
      row.state = .writing ∧ path.owner = id ∧ path.state = .writing ∧
      tx = [.projection { row with state := .published, receipt := some receipt },
        .path { path with content := some row.content, state := .published }] := by
  unfold finishProjectionTx at h
  cases hrow : db.projections.get id with
  | none =>
    rw [hrow] at h
    cases h
  | some row =>
    rw [hrow] at h
    cases hpath : db.paths.get (pathId row.place) with
    | none =>
      simp only [hpath] at h
      cases h
    | some path =>
      simp only [hpath] at h
      obtain ⟨⟨hstate, howner, hwriting⟩, htx⟩ := require_bind_eq_ok.mp h
      exact ⟨row, path, rfl, hpath, hstate, howner, hwriting, (ok.inj htx).symm⟩

end

end Simmis.Summaries
