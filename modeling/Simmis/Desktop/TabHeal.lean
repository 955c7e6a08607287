import Simmis.Library.Runs

/-!
# Open tabs and the roster

A tab that names a room is reconciled with the roster when it is opened, and again whenever a
roster arrives.
-/

namespace Simmis.TabHeal

open List Runs

inductive TabType where
  | chat | chatThread | workflows | runInspector | attemptBoard | leaderboard
  | other (name : String)
deriving DecidableEq

/-- `room-tab-types` -/
def TabType.namesRoom : TabType → Bool
  | other _ => false
  | _ => true

def TabType.isConversation (type : TabType) : Bool := type = chat ∨ type = chatThread

/-- A room of the roster; its id and scope are taken as `str` prints them. -/
structure Room where
  id : String
  isPersonalAi : Bool
  name : Option String
  contentDbScope : String

structure Data (D : Type) where
  roomId : Option String
  roomName : Option String
  dbScope : Option String
  roomMissing : Bool
  rest : D

structure Tab (D : Type) where
  id : String
  type : TabType
  title : Option String
  data : Data D

variable {D : Type}

def placeholder : String := "personal-ai-placeholder"

def rosterTitle (tab : Tab D) (room : Room) : Option String :=
  match tab.type with
  | .chatThread => "Thread · " ++ room.name.getD ""
  | .workflows => room.name.getD "" ++ " Workflows"
  | .runInspector => tab.title.getD "Workflow Run"
  | _ => room.name

def namedRoom (roomId : Option String) (rooms : List Room) (personal : Option Room) :
    Option Room :=
  if roomId = placeholder then personal else rooms.find? fun room ↦ some room.id = roomId

def healChatTab (tab : Tab D) (rooms : List Room) (personal : Option Room) : Tab D :=
  if tab.type.namesRoom then
    match namedRoom tab.data.roomId rooms personal with
    | some room =>
      let unnamed := tab.data.roomId = placeholder ∨ tab.data.roomName = none
      { tab with
        title := if unnamed then rosterTitle tab room else tab.title
        data := { tab.data with
          roomId := room.id
          roomName := if unnamed then room.name else tab.data.roomName
          dbScope :=
            if tab.type.isConversation ∨ tab.data.dbScope = none then room.contentDbScope
            else tab.data.dbScope
          roomMissing := false } }
    | none => { tab with
        data := { tab.data with
          dbScope := if tab.type.isConversation then none else tab.data.dbScope
          roomMissing := true } }
  else tab

def personalRoom (rooms : List Room) : Option Room := rooms.find? (·.isPersonalAi)

/-- The rooms are unknown until a roster has arrived. -/
def reconcileTab (tab : Tab D) : Option (List Room) → Tab D
  | none => tab
  | some rooms => healChatTab tab rooms (personalRoom rooms)

section

variable (tab : Tab D) (roster : Option (List Room))

theorem reconcileTab_type : (reconcileTab tab roster).type = tab.type := by
  cases roster with
  | none => rfl
  | some rooms =>
    dsimp only [reconcileTab, healChatTab]
    repeat' split
    all_goals rfl

variable {tab} (hroom : tab.data.roomId ≠ placeholder)

include hroom

theorem reconcileTab_roomId : (reconcileTab tab roster).data.roomId = tab.data.roomId := by
  cases roster with
  | none => rfl
  | some rooms =>
    dsimp only [reconcileTab, healChatTab, namedRoom]
    rw [if_neg hroom]
    split
    · split
      · next room hfound => simpa using find?_some hfound
      · rfl
    · rfl

theorem run_kept (rosters : List (Option (List Room))) :
    let healed := run reconcileTab tab rosters
    healed.type = tab.type ∧ healed.data.roomId = tab.data.roomId :=
  run_preserves (fun healed : Tab D ↦
      healed.type = tab.type ∧ healed.data.roomId = tab.data.roomId)
    (fun healed roster ⟨htype, hid⟩ ↦ ⟨(reconcileTab_type healed roster).trans htype,
      (reconcileTab_roomId roster (hid ▸ hroom)).trans hid⟩) ⟨rfl, rfl⟩ rosters

theorem reconcileTab_conversation (htype : tab.type.isConversation) (rooms : List Room) :
    let healed := reconcileTab tab (some rooms)
    (healed.data.dbScope, healed.data.roomMissing) =
      match rooms.find? fun room ↦ some room.id = tab.data.roomId with
      | some room => (some room.contentDbScope, false)
      | none => (none, true) := by
  have hnames : tab.type.namesRoom := by
    revert htype
    cases tab.type <;> simp [TabType.isConversation, TabType.namesRoom]
  dsimp only [reconcileTab, healChatTab, namedRoom]
  rw [if_pos hnames, if_neg hroom]
  cases rooms.find? fun room ↦ some room.id = tab.data.roomId <;> simp [htype]

end

/-- A conversation reads the replica that the last roster gives its room, and none if that names no
such room, whatever the rosters before it said. -/
theorem last_roster_decides {tab : Tab D} (htype : tab.type.isConversation)
    (hroom : tab.data.roomId ≠ placeholder) (rosters : List (Option (List Room)))
    (rooms : List Room) :
    let healed := reconcileTab (run reconcileTab tab rosters) (some rooms)
    healed.data.roomId = tab.data.roomId ∧ (healed.data.dbScope, healed.data.roomMissing) =
      match rooms.find? fun room ↦ some room.id = tab.data.roomId with
      | some room => (some room.contentDbScope, false)
      | none => (none, true) := by
  obtain ⟨htype', hroom'⟩ := run_kept hroom rosters
  rw [← hroom'] at hroom ⊢
  exact ⟨reconcileTab_roomId _ hroom, reconcileTab_conversation hroom (by rwa [htype']) rooms⟩

/-- A room is shared after a roster that did not name it. -/
theorem last_roster_decides_shared :
    let tab : Tab Unit := ⟨"t", .chat, none, ⟨some "r", none, none, false, ()⟩⟩
    let healed := reconcileTab (run reconcileTab tab [none, some []])
      (some [⟨"r", false, "Team", "s"⟩])
    healed.data.roomId = some "r" ∧
      (healed.data.dbScope, healed.data.roomMissing) = (some "s", false) :=
  last_roster_decides rfl (by decide) [none, some []] [⟨"r", false, "Team", "s"⟩]

end Simmis.TabHeal
