import Simmis.Library.Table

/-!
# The authorization predicate

May a subject perform an action on a resource? The answer is a query over one value of the system
database. Each kind of resource has its own evaluator; whatever is unknown is a denial.
-/

namespace Simmis.Access

inductive Action where
  | read | write | merge | grant | admin
  | other (keyword : String)
deriving DecidableEq, Repr

/-- `:grant/permission` -/
inductive Permission where
  | read | readWrite | merge | owner
  | other (keyword : String)
deriving DecidableEq, Repr

/-- `permission-satisfies?` -/
def permissionSatisfies (permission : Option Permission) : Action → Bool
  | .read => permission.isSome
  | .write => permission = some .readWrite || permission = some .merge || permission = some .owner
  | .merge => permission = some .merge || permission = some .owner
  | .grant | .admin => permission = some .owner
  | .other _ => false

/-- `shared-with-permission` -/
def sharedWithPermission : Permission := .readWrite

section Rows

variable (U : Type)

structure Party where
  id : U
  isAdmin : Bool
deriving DecidableEq, Repr

/-- `:kb/...` -/
structure Kb where
  id : U
  owner : Option U
  sharedWith : List U
  dbScope : Option U
  systemId : Option U
deriving DecidableEq, Repr

/-- `:drive/...` -/
structure Drive where
  id : U
  owner : Option U
  systemId : Option U
deriving DecidableEq, Repr

/-- `:mail-account/...` -/
structure MailAccount where
  id : U
  owner : Option U
  systemId : Option U
deriving DecidableEq, Repr

/-- `:room/...`; the owner and the members are given by their party ids. -/
structure Room where
  eid : ℕ
  id : Option U
  owner : Option U
  parties : List U
  contentDbScope : Option U
  dbScope : Option U
deriving DecidableEq, Repr

/-- `:system/...`, a row of the registry. -/
structure System where
  eid : ℕ
  id : U
deriving DecidableEq, Repr

/-- `:grant/...`; the room and the system are entities. -/
structure Grant where
  room : ℕ
  system : ℕ
  permission : Option Permission
deriving DecidableEq, Repr

structure FileOutput where
  id : U
  room : U
deriving DecidableEq, Repr

inductive ForkType where
  | fileOutput | world
  | other (keyword : String)
deriving DecidableEq, Repr

/-- `:proposal.fork/...` -/
structure Fork where
  eid : ℕ
  author : Option U
  authorityScope : Option U
  scope : Option U
  branch : Option String
  decided : Bool
  systemType : Option ForkType
  worldSystemId : Option String
  fileOutput : Option (FileOutput U)
deriving DecidableEq, Repr

/-- `:proposal/...`; `isOpen` says that its status is `:open`. -/
structure Proposal where
  id : U
  author : Option U
  room : Option U
  isOpen : Bool
  forks : List ℕ
deriving DecidableEq, Repr

end Rows

variable {U : Type} [DecidableEq U]

/-- One value of the system database. -/
structure Db (U : Type) [DecidableEq U] where
  parties : Table (Party.id (U := U))
  kbs : Table (Kb.id (U := U))
  drives : Table (Drive.id (U := U))
  mails : Table (MailAccount.id (U := U))
  rooms : Table (Room.eid (U := U))
  systems : Table (System.id (U := U))
  grants : List Grant
  forks : Table (Fork.eid (U := U))
  proposals : Table (Proposal.id (U := U))

/-- An id as a caller gives it. -/
inductive Ident (U : Type) where
  | uuid (u : U)
  | text (s : String)
  | invalid
deriving DecidableEq, Repr

inductive Subject (U : Type) where
  | anonymous
  | party (id : Ident U)
  /-- A principal map with its `:sub`. -/
  | principal (sub : Option (Ident U))
deriving DecidableEq, Repr

inductive Attached (U : Type) where
  | kb (id : Ident U)
  | drive (id : Ident U)
  | nothing
deriving DecidableEq, Repr

inductive Resource (U : Type) where
  | authenticated
  | admin
  | scope (scope : Ident U)
  | kb (id : Ident U)
  | room (id : Ident U)
  | mail (id : Ident U)
  | proposalFork (proposal scope : Ident U) (branch : Option String)
  | proposalForks (proposal : Ident U)
  | attachment (room : Ident U) (attached : Attached U)
  | proposal (id : Ident U)
  | drive (id : Ident U)
  | branch (scope : Ident U) (branch : Option String)
  | kbStore (scope : Ident U)
  | settings (party : Ident U)
  | self (party : Ident U)
  | unknown
deriving DecidableEq, Repr

/-- What is read elsewhere: uuid strings, and the registry row of a world's system. -/
structure Host (U : Type) [DecidableEq U] where
  parseUuid : String → Option U
  /-- `registry-system-for`, nothing if it throws. -/
  registrySystemFor : Db U → String → Option U

variable (host : Host U)

/-- `as-uuid` and `scope-uuid` -/
def Ident.asUuid : Ident U → Option U
  | .uuid u => some u
  | .text s => host.parseUuid s
  | .invalid => none

/-- `subject->party-uuid` -/
def Subject.partyUuid : Subject U → Option U
  | .anonymous => none
  | .party id => id.asUuid host
  | .principal sub => sub.bind (·.asUuid host)

variable (db : Db U)

def Db.kbByScope (scope : U) : Option (Kb U) := db.kbs.rows.find? fun kb ↦ kb.dbScope = some scope

def Db.kbBySystem (system : U) : Option (Kb U) :=
  db.kbs.rows.find? fun kb ↦ kb.systemId = some system

def Db.roomByScope (scope : U) : Option (Room U) :=
  (db.rooms.rows.find? fun room ↦ room.contentDbScope = some scope).or
    (db.rooms.rows.find? fun room ↦ room.dbScope = some scope)

def Db.roomById (id : U) : Option (Room U) := db.rooms.rows.find? fun room ↦ room.id = some id

/-- `admin?` -/
def Db.isAdmin (db : Db U) (party : U) : Bool := (db.parties.get party).any (·.isAdmin)

/-- `proposal-room-eid` -/
def Db.proposalRoom (proposal : Option U) : Option (Room U) :=
  ((proposal.bind db.proposals.get).bind (·.room)).bind db.roomById

/-- The grants on a system. -/
def Db.grantsOn (system : U) : List Grant :=
  db.grants.filter fun g ↦ (db.systems.get system).any (·.eid = g.system)

variable (party : U) (action : Action)

/-- `authority-override?` -/
def authorityOverride : Bool := (action = .grant || action = .admin) && db.isAdmin party

/-- A member's room has a grant for the action; one without a permission reads. -/
def memberGranted (party system : U) (action : Action) : Bool :=
  (db.grantsOn system).any fun g ↦
    (db.rooms.get g.room).any (party ∈ ·.parties) &&
      permissionSatisfies (some (g.permission.getD .read)) action

/-- `party-can-access-kb?` -/
def partyCanAccessKb (kb : Kb U) (action : Action) : Bool :=
  kb.owner = some party || authorityOverride db party action ||
    (party ∈ kb.sharedWith && permissionSatisfies (some sharedWithPermission) action) ||
    kb.systemId.any (memberGranted db party · action)

/-- `party-can-access-room?` -/
def partyCanAccessRoom (room : Room U) (action : Action) : Bool :=
  match action with
  | .merge | .grant | .admin => room.owner = some party
  | _ => room.owner = some party || party ∈ room.parties

/-- The party is in a room, or owns one, that holds a grant permitting the action. -/
def roomGranted (party system : U) (action : Action) : Bool :=
  (db.grantsOn system).any fun g ↦
    g.permission.any (fun permission ↦ permissionSatisfies (some permission) action) &&
      (db.rooms.get g.room).any (partyCanAccessRoom party · .read)

/-- `party-can-access-system?`; a knowledge base's system answers as the knowledge base. -/
def partyCanAccessSystem (party system : U) (action : Action) : Bool :=
  match db.kbBySystem system with
  | some kb => partyCanAccessKb db party kb action
  | none => roomGranted db party system action

/-- `party-can-access-drive?` -/
def partyCanAccessDrive (drive : Drive U) (action : Action) : Bool :=
  drive.owner = some party || authorityOverride db party action ||
    drive.systemId.any (partyCanAccessSystem db party · action)

/-- `party-can-access-mail?` -/
def partyCanAccessMail (mail : MailAccount U) (action : Action) : Bool :=
  mail.owner = some party || mail.systemId.any (memberGranted db party · action)

/-- `can?` on the scope of a knowledge base, of a room or of a registry system. -/
def canScope (scope : U) : Bool :=
  match db.kbByScope scope with
  | some kb => partyCanAccessKb db party kb action
  | none =>
    match db.roomByScope scope with
    | some room => partyCanAccessRoom party room action
    | none => (db.systems.get scope).isSome && partyCanAccessSystem db party scope action

/-- `can?` on `{:room id}` -/
def canRoom (room : U) : Bool := (db.roomById room).any (partyCanAccessRoom party · action)

/-- `file-outputs/owner`: the room of the one proposal whose fork carries a manifest. -/
def fileOutputOwner (scope : U) : Option (U × ℕ) :=
  let rows := db.forks.rows.flatMap fun fork ↦
    db.proposals.rows.filterMap fun p ↦
      match fork.authorityScope, fork.fileOutput, p.room with
      | some authority, some manifest, some room =>
        if fork.scope = some scope ∧ fork.systemType = some .fileOutput ∧ manifest.id = scope ∧
            fork.eid ∈ p.forks then some (room, authority, manifest.room, fork.eid)
        else none
      | _, _, _ => none
  match rows with
  | [(room, authority, manifestRoom, fork)] =>
    if room = authority ∧ authority = manifestRoom then some (room, fork) else none
  | _ => none

/-- `may-merge-proposal-fork?` -/
def mayMergeProposalFork (fork : Fork U) : Bool :=
  match fork.systemType with
  | some .fileOutput =>
    (fork.scope.bind (fileOutputOwner db)).any fun (room, eid) ↦
      eid = fork.eid && fork.fileOutput.any (fun o ↦ some o.id = fork.scope && o.room = room) &&
        fork.authorityScope = some room && canRoom db party .read room &&
        canRoom db party .merge room
  | some .world =>
    match fork.authorityScope, fork.worldSystemId with
    | some room, some world =>
      canRoom db party .merge room &&
        (host.registrySystemFor db world).any (canScope db party .merge)
    | _, _ => false
  | _ => (fork.authorityScope.or fork.scope).any (canScope db party .merge)

/-- `open-fork-rows` of the open proposals and forks with a property. -/
def openForkRows (wanted : Fork U → Proposal U → Bool) : List (Fork U × Proposal U) :=
  db.forks.rows.flatMap fun fork ↦
    (db.proposals.rows.filter fun p ↦
      p.isOpen && fork.eid ∈ p.forks && !fork.decided && wanted fork p).map (fork, ·)

/-- `fork-controller?` -/
def forkController (row : Fork U × Proposal U) : Bool :=
  row.1.author.or row.2.author = some party || mayMergeProposalFork host db party row.1

/-- `trunk-branch?` -/
def trunkBranch (branch : Option String) : Bool := branch.all (· = "db")

/-- `open-fork` -/
def openFork (scope : U) (branch : Option String) : Option (Fork U × Proposal U) :=
  branch.bind fun branch ↦
    (openForkRows db fun fork _ ↦ fork.scope = some scope && fork.branch = some branch).head?

/-- `party-can-access-branch?` -/
def partyCanAccessBranch (scope : Option U) (branch : Option String) (action : Action) : Bool :=
  scope.any fun scope ↦ canScope db party action scope &&
    (action = .read || trunkBranch branch ||
      (openFork db scope branch).all (forkController host db party))

/-- `party-can-decide-fork?` -/
def partyCanDecideFork (proposal scope : Option U) (branch : Option String) (action : Action) :
    Bool :=
  (db.proposalRoom proposal).any fun room ↦ partyCanAccessRoom party room action &&
    (action = .read || match scope, branch with
      | some scope, some branch =>
        (openForkRows db fun fork p ↦ some p.id = proposal && fork.scope = some scope &&
          fork.branch = some branch).head?.any (forkController host db party)
      | _, _ => false)

/-- `party-can-decide-proposal?` -/
def partyCanDecideProposal (proposal : Option U) (action : Action) : Bool :=
  (db.proposalRoom proposal).any fun room ↦ partyCanAccessRoom party room action &&
    (action = .read || (proposal.bind db.proposals.get).any (·.author = some party) ||
      (openForkRows db fun _ p ↦ some p.id = proposal).all (forkController host db party))

/-- `party-can-revoke-attachment?` -/
def partyCanRevokeAttachment (room kb drive : Option U) (action : Action) : Bool :=
  action = .grant &&
    (room.any (canRoom db party .grant) ||
      (kb.bind db.kbs.get).any (partyCanAccessKb db party · .grant) ||
      (drive.bind db.drives.get).any (partyCanAccessDrive db party · .grant))

/-- `can?` for a party. -/
def partyCan : Resource U → Bool
  | .authenticated => true
  | .admin => db.isAdmin party
  | .scope scope => (scope.asUuid host).any (canScope db party action)
  | .kb id => ((id.asUuid host).bind db.kbs.get).any (partyCanAccessKb db party · action)
  | .room id => (id.asUuid host).any (canRoom db party action)
  | .mail id => ((id.asUuid host).bind db.mails.get).any (partyCanAccessMail db party · action)
  | .proposalFork proposal scope branch =>
    partyCanDecideFork host db party (proposal.asUuid host) (scope.asUuid host) branch action
  | .proposalForks proposal => partyCanDecideProposal host db party (proposal.asUuid host) action
  | .attachment room attached =>
    match attached with
    | .kb kb => partyCanRevokeAttachment db party (room.asUuid host) (kb.asUuid host) none action
    | .drive drive =>
      partyCanRevokeAttachment db party (room.asUuid host) none (drive.asUuid host) action
    | .nothing => partyCanRevokeAttachment db party (room.asUuid host) none none action
  | .proposal id => (db.proposalRoom (id.asUuid host)).any (partyCanAccessRoom party · action)
  | .drive id => ((id.asUuid host).bind db.drives.get).any (partyCanAccessDrive db party · action)
  | .branch scope branch =>
    partyCanAccessBranch host db party (scope.asUuid host) branch action
  | .kbStore scope =>
    ((scope.asUuid host).bind db.kbByScope).any (partyCanAccessKb db party · action)
  | .settings owner | .self owner => owner.asUuid host = some party
  | .unknown => false

/-- `can?` -/
def can (subject : Subject U) (action : Action) (resource : Resource U) : Bool :=
  (subject.partyUuid host).any fun party ↦ partyCan host db party action resource

end Simmis.Access
