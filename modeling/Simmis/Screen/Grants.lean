import Simmis.Library.Runs
import Mathlib.Data.Int.Notation
import Mathlib.Data.List.Dedup

/-!
# Screen-share grants

A grant is a window in which one room may see a party's screen. It is active while it is not closed
and its heartbeat is fresh. The frames that a room may read are those whose time lies in a window of
their sharer.
-/

namespace Simmis.Screen

/-- `stale-after-ms` -/
def staleAfterMs : ℤ := 30000

/-- `:screen-grant/...`, with the trail of its heartbeats, newest first, and of its closing. -/
structure Grant (G P R : Type) where
  eid : ℕ
  id : G
  party : P
  room : R
  from_ : ℤ
  beat : ℤ
  until_ : Option ℤ
  beats : List ℤ
  closedAt : Option ℤ
deriving DecidableEq, Repr

variable {G P R F : Type} [DecidableEq P] [DecidableEq R]

namespace Grant

variable (g h : Grant G P R)

/-- `active?` -/
def active (now : ℤ) : Bool := g.until_.isNone && decide (now - g.beat < staleAfterMs)

/-- The order in which `grant-eid` sorts: by `from`, ties by entity. -/
def newer : Bool := h.from_ < g.from_ || (g.from_ = h.from_ && h.eid < g.eid)

def of (party : P) (room : R) : Bool := g.party = party && g.room = room

def beatAt (now : ℤ) : Grant G P R := { g with beat := now, beats := now :: g.beats }

def closeAt (until_ now : ℤ) : Grant G P R :=
  { g with until_ := some until_, closedAt := some now }

/-- The transaction of a new grant. -/
def opened (eid : ℕ) (id : G) (party : P) (room : R) (now : ℤ) : Grant G P R where
  eid
  id
  party
  room
  from_ := now
  beat := now
  until_ := none
  beats := [now]
  closedAt := none

/-- The last heartbeat up to a time. -/
def lastBeat (t : ℤ) : Option ℤ := g.beats.find? fun beat ↦ beat ≤ t

/-- It is open at `t`, and its last heartbeat up to `t` is fresh. -/
def Live (t : ℤ) : Prop :=
  g.from_ ≤ t ∧ (∀ closed, g.closedAt = some closed → t < closed) ∧
    ∃ beat, g.lastBeat t = some beat ∧ t - beat < staleAfterMs

end Grant

/-- The grants of the system database and the last reading of the clock. -/
structure Grants (G P R : Type) where
  rows : List (Grant G P R)
  next : ℕ
  clock : ℤ

def Grants.empty (clock : ℤ) : Grants G P R := ⟨[], 0, clock⟩

namespace Grants

variable (db : Grants G P R)

/-- `grant-eid`, with its entity -/
def grant (party : P) (room : R) : Option (Grant G P R) :=
  ((db.rows.filter fun g ↦ g.of party room).mergeSort fun g h ↦ !h.newer g).head?

def update (eid : ℕ) (f : Grant G P R → Grant G P R) : Grants G P R :=
  { db with rows := db.rows.map fun g ↦ if g.eid = eid then f g else g }

def insert (id : G) (party : P) (room : R) (now : ℤ) : Grants G P R :=
  { db with rows := db.rows ++ [.opened db.next id party room now], next := db.next + 1 }

def read (now : ℤ) : Grants G P R := { db with clock := now }

/-- `open-grant!` -/
def openGrant (id : G) (party : P) (room : R) (now : ℤ) : Grants G P R × G :=
  let db := db.read now
  match db.grant party room with
  | some existing =>
    if existing.active now then (db.update existing.eid fun g ↦ g.beatAt now, existing.id)
    else if existing.until_.isNone then
      ((db.update existing.eid fun g ↦ g.closeAt existing.beat now).insert id party room now, id)
    else (db.insert id party room now, id)
  | none => (db.insert id party room now, id)

/-- `heartbeat!` reads the clock twice. -/
def heartbeat (party : P) (room : R) (now now' : ℤ) : Grants G P R × Bool :=
  match db.grant party room with
  | some g =>
    if g.active now then ((db.read now').update g.eid fun g ↦ g.beatAt now', true)
    else (db.read now', false)
  | none => (db.read now', false)

/-- `close-grant!` -/
def closeGrant (party : P) (room : R) (now : ℤ) : Grants G P R × Bool :=
  let db := db.read now
  match db.grant party room with
  | some g =>
    if g.until_.isNone then (db.update g.eid fun g ↦ g.closeAt now now, true) else (db, false)
  | none => (db, false)

/-- `active-rooms-for-party` -/
def activeRoomsForParty (party : P) (now : ℤ) : List R :=
  ((db.rows.filter fun g ↦ g.party = party).filter fun g ↦ g.active now).map Grant.room

/-- `active-parties-for-room`: the sharer and the `from` of the open window. -/
def activePartiesForRoom (room : R) (now : ℤ) : List (P × ℤ) :=
  ((db.rows.filter fun g ↦ g.room = room).filter fun g ↦ g.active now).map
    fun g ↦ (g.party, g.from_)

end Grants

/-- A stretch of time, open towards the future where `until_` is `none`. -/
structure Span where
  from_ : ℤ
  until_ : Option ℤ
deriving DecidableEq, Repr

structure Window (P : Type) where
  party : P
  span : Span
  active : Bool
deriving DecidableEq, Repr

/-- `window-of` -/
def windowOf (g : Grant G P R) (now : ℤ) : Window P where
  party := g.party
  span := ⟨g.from_, if g.active now then none else some (g.until_.getD g.beat)⟩
  active := g.active now

variable (db : Grants G P R)

/-- `windows-for-room` -/
def Grants.windowsForRoom (room : R) (now : ℤ) : List (Window P) :=
  ((db.rows.filter fun g ↦ g.room = room).map fun g ↦ windowOf g now).mergeSort
    fun v w ↦ v.span.from_ ≤ w.span.from_

/-- One interval of `in-windows?` -/
def Span.contains (span : Span) (t : ℤ) : Bool := span.from_ ≤ t && span.until_.all fun u ↦ t ≤ u

/-- `in-windows?`; no windows at all are the owner's own view. -/
def inWindows (windows : Option (List Span)) (t : ℤ) : Bool :=
  windows.all fun spans ↦ spans.any fun span ↦ span.contains t

/-- The window clipped to `[since, until]`, unless nothing is left of it. -/
def Span.clip (span : Span) (since until_ : Option ℤ) : Option Span :=
  let start := since.elim span.from_ (max span.from_)
  let stop := match span.until_, until_ with
    | some u, some v => some (min u v)
    | some u, none => some u
    | none, v => v
  if stop.all fun u ↦ start ≤ u then some ⟨start, stop⟩ else none

/-- `windows-by-party` -/
def windowsByParty (windows : List (Window P)) (since until_ : Option ℤ) : List (P × List Span) :=
  let clipped := windows.filterMap fun w ↦ (w.span.clip since until_).map fun span ↦ (w.party, span)
  (clipped.map Prod.fst).dedup.map fun party ↦
    (party, (clipped.filter fun w ↦ w.1 = party).map Prod.snd)

structure Frame (F : Type) where
  at_ : ℤ
  content : F
deriving DecidableEq, Repr

/-- A frame with its sharer; a score orders the hits of a search. -/
structure Hit (P F : Type) where
  party : P
  frame : Frame F
  score : Option ℤ
deriving DecidableEq, Repr

/-- The stored frames of every party, the newest ones in memory, and the fulltext index. -/
structure Screens (P F : Type) where
  stored : P → List (Frame F)
  recent : P → List (Frame F)
  fulltext : P → String → List (Frame F × ℤ)

def blank (query : String) : Bool := query.all Char.isWhitespace

/-- `search-frames` -/
def Screens.searchFrames (screens : Screens P F) (party : P) (query : String) (n : ℤ)
    (windows : Option (List Span)) : List (Hit P F) :=
  if blank query then
    ((((screens.stored party).filter fun f ↦ inWindows windows f.at_).mergeSort
      fun f g ↦ g.at_ ≤ f.at_).take n.toNat).map fun f ↦ ⟨party, f, none⟩
  else
    (((screens.fulltext party query).filter fun f ↦ inWindows windows f.1.at_).take n.toNat).map
      fun f ↦ ⟨party, f.1, some f.2⟩

def maxHistory : ℤ := 200

def keepFrames : ℤ := 5

/-- `room-history` -/
def Screens.roomHistory (screens : Screens P F) (db : Grants G P R) (room : R)
    (since until_ : Option ℤ) (n : ℤ) (now : ℤ) : List (Hit P F) :=
  let n := max 1 (min n maxHistory)
  (((windowsByParty (db.windowsForRoom room now) since until_).flatMap fun shared ↦
    screens.searchFrames shared.1 "" n (some shared.2)).mergeSort
      fun f g ↦ g.frame.at_ ≤ f.frame.at_).take n.toNat

/-- `room-frame-search` -/
def Screens.roomFrameSearch (screens : Screens P F) (db : Grants G P R) (room : R)
    (query : String) (n : ℤ) (now : ℤ) : List (Hit P F) :=
  (((windowsByParty (db.windowsForRoom room now) none none).flatMap fun shared ↦
    screens.searchFrames shared.1 query n (some shared.2)).mergeSort
      fun f g ↦ g.score.getD 0 ≤ f.score.getD 0).take n.toNat

/-- `recent-frames` -/
def Screens.recentFrames (screens : Screens P F) (party : P) (n : ℕ) : List (Frame F) :=
  (screens.recent party).drop ((screens.recent party).length - n)

/-- `room-frames` -/
def Screens.roomFrames (screens : Screens P F) (db : Grants G P R) (room : R) (n : ℤ)
    (now : ℤ) : List (Hit P F) :=
  let n := max 1 (min n keepFrames)
  (((db.activePartiesForRoom room now).flatMap fun sharer ↦
    ((screens.recentFrames sharer.1 keepFrames.toNat).filter fun f ↦ sharer.2 ≤ f.at_).map
      fun f ↦ ⟨sharer.1, f, none⟩).mergeSort fun f g ↦ g.frame.at_ ≤ f.frame.at_).take n.toNat

/-- One operation on the grants, with its readings of the clock. -/
inductive Act (G P R : Type) where
  | openGrant (id : G) (party : P) (room : R) (now : ℤ)
  | heartbeat (party : P) (room : R) (now now' : ℤ)
  | closeGrant (party : P) (room : R) (now : ℤ)
  | look (now : ℤ)
deriving DecidableEq, Repr

def Grants.act : Act G P R → Grants G P R
  | .openGrant id party room now => (db.openGrant id party room now).1
  | .heartbeat party room now now' => (db.heartbeat party room now now').1
  | .closeGrant party room now => (db.closeGrant party room now).1
  | .look now => db.read now

/-- A call with its readings of the clock and the personal room. -/
inductive Call (G P R : Type) where
  | openGrant (id : G) (party : P) (room : R) (now : ℤ)
  | heartbeat (party : P) (room : R) (now now' : ℤ)
  | closeGrant (party : P) (room : R) (now : ℤ)
  | openGrantWithPersonal (id id' : G) (party : P) (room : R) (personal : Option R) (now now' : ℤ)
  | heartbeatWithPersonal (party : P) (room : R) (personal : Option R) (now₁ now₂ now₃ now₄ : ℤ)
  | closeGrantWithPersonal (party : P) (room : R) (personal : Option R) (now₁ now₂ now₃ : ℤ)
  | look (now : ℤ)
deriving DecidableEq, Repr

/-- The operations that a call makes, one after the other. -/
def Call.acts : Call G P R → List (Act G P R)
  | .openGrant id party room now => [.openGrant id party room now]
  | .heartbeat party room now now' => [.heartbeat party room now now']
  | .closeGrant party room now => [.closeGrant party room now]
  | .openGrantWithPersonal id id' party room personal now now' =>
    .openGrant id party room now ::
      ((personal.toList.filter (· ≠ room)).map fun personal ↦ .openGrant id' party personal now')
  | .heartbeatWithPersonal party room personal now₁ now₂ now₃ now₄ =>
    .heartbeat party room now₁ now₂ ::
      ((personal.toList.filter (· ≠ room)).map fun personal ↦ .heartbeat party personal now₃ now₄)
  | .closeGrantWithPersonal party room personal now₁ now₂ now₃ =>
    .closeGrant party room now₁ ::
      ((personal.toList.filter (· ≠ room)).flatMap fun personal ↦
        .look now₂ :: if ((db.closeGrant party room now₁).1.activeRoomsForParty party now₂).all
          (· = personal) then [.closeGrant party personal now₃] else [])
  | .look now => [.look now]

def Grants.call (db : Grants G P R) (call : Call G P R) : Grants G P R :=
  Runs.run Grants.act db (call.acts db)

/-- The clock does not run backwards. -/
def OnTime : Act G P R → Prop
  | .openGrant _ _ _ now | .closeGrant _ _ now | .look now => db.clock ≤ now
  | .heartbeat _ _ now now' => db.clock ≤ now ∧ now ≤ now'

/-- At its closing and at every heartbeat a grant's heartbeat is fresh. -/
def Fresh : Act G P R → Prop
  | .closeGrant party room now => ∀ g ∈ db.grant party room, g.until_ = none → g.active now = true
  | .heartbeat party room now now' =>
    ∀ g ∈ db.grant party room, g.active now = true → g.active now' = true
  | _ => True

end Simmis.Screen
