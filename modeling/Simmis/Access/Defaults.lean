import Simmis.Access.Names

/-!
# Grants without a permission

A grant row that carries no permission reads. Knowledge bases and mail accounts take that default;
the query that answers for drives and for the other registry systems drops such rows.
-/

namespace Simmis.Access

open List Option

variable {U : Type} [DecidableEq U] {host : Host U} {db : Db U} {party system : U}
  {subject : Subject U} {action : Action}

/-- The registry system whose grants decide a resource. -/
inductive Resource.ReachedBy (host : Host U) (db : Db U) : Resource U → U → Prop
  | kb {id : Ident U} {kb : Kb U} {system : U} (hkb : (id.asUuid host).bind db.kbs.get = some kb)
    (hsystem : kb.systemId = some system) : ReachedBy host db (.kb id) system
  | kbStore {scope : Ident U} {kb : Kb U} {system : U}
    (hkb : (scope.asUuid host).bind db.kbByScope = some kb) (hsystem : kb.systemId = some system) :
    ReachedBy host db (.kbStore scope) system
  | store {scope : Ident U} {kb : Kb U} {system : U}
    (hkb : (scope.asUuid host).bind db.kbByScope = some kb) (hsystem : kb.systemId = some system) :
    ReachedBy host db (.scope scope) system
  | mail {id : Ident U} {mail : MailAccount U} {system : U}
    (hmail : (id.asUuid host).bind db.mails.get = some mail)
    (hsystem : mail.systemId = some system) : ReachedBy host db (.mail id) system
  | drive {id : Ident U} {drive : Drive U} {system : U}
    (hdrive : (id.asUuid host).bind db.drives.get = some drive)
    (hsystem : drive.systemId = some system) : ReachedBy host db (.drive id) system
  | registered {scope : Ident U} {system : U} (hscope : scope.asUuid host = some system)
    (hkb : db.kbByScope system = none) (hroom : db.roomByScope system = none)
    (hrow : (db.systems.get system).isSome) : ReachedBy host db (.scope scope) system

/-- The answer is that of `party-can-access-system?` to another system. -/
def Resource.Queried (host : Host U) (db : Db U) : Resource U → Prop
  | .drive id => ∃ drive, (id.asUuid host).bind db.drives.get = some drive ∧
      drive.systemId.any fun system ↦ db.kbBySystem system = none
  | .scope named => (named.asUuid host).any fun u ↦
      db.kbByScope u = none ∧ db.roomByScope u = none ∧ db.kbBySystem u = none
  | _ => False

/-- The party's only right to the resource is one grant without a permission. -/
structure OnlyRight (host : Host U) (db : Db U) (subject : Subject U) (resource : Resource U)
    (party system : U) (g : Grant) : Prop where
  isParty : subject.partyUuid host = some party
  reached : resource.ReachedBy host db system
  row : g ∈ db.grantsOn system
  member : (db.rooms.get g.room).any (party ∈ ·.parties)
  permission : g.permission = none
  only : ∀ action, can host (db.withGrants (db.grants.erase g)) subject action resource = false

/-- The party reads the resource and does nothing else to it. -/
def ReadsOnly (host : Host U) (db : Db U) (subject : Subject U) (resource : Resource U) : Prop :=
  ∀ action, can host db subject action resource = decide (action = .read)

section Erase

variable {g : Grant}

theorem permissionSatisfies_read : permissionSatisfies (some .read) action = decide (action = .read) := by
  cases action <;> rfl

section

variable (hrow : g ∈ db.grantsOn system)
include hrow

/-- What a test of the grants on a system says of one of them and of the others. -/
theorem grantsOn_any (test : Grant → Bool) : (db.grantsOn system).any test =
      (test g || ((db.withGrants (db.grants.erase g)).grantsOn system).any test) := by
  have hmem := mem_filter.mp hrow
  have hperm := ((perm_cons_erase hmem.1).filter fun g ↦
    (db.systems.get system).any (·.eid = g.system)).any_eq (f := test)
  rw [filter_cons_of_pos (a := g) (by exact hmem.2), any_cons] at hperm
  exact hperm

theorem memberGranted_erase (hmember : (db.rooms.get g.room).any (party ∈ ·.parties))
    (hnone : g.permission = none) :
    memberGranted db party system action = (decide (action = .read) ||
      memberGranted (db.withGrants (db.grants.erase g)) party system action) := by
  have hany := grantsOn_any hrow fun g ↦ (db.rooms.get g.room).any (party ∈ ·.parties) &&
    permissionSatisfies (some (g.permission.getD .read)) action
  rw [hmember, hnone, Bool.true_and, getD_none, permissionSatisfies_read] at hany
  exact hany

theorem roomGranted_erase (hnone : g.permission = none) : roomGranted db party system action =
      roomGranted (db.withGrants (db.grants.erase g)) party system action := by
  have hany := grantsOn_any hrow fun g ↦
    g.permission.any (fun permission ↦ permissionSatisfies (some permission) action) &&
      (db.rooms.get g.room).any (partyCanAccessRoom party · .read)
  rw [hnone, any_none, Bool.false_and, Bool.false_or] at hany
  exact hany

end

theorem partyCanAccessKb_erase {kb : Kb U} (hsystem : kb.systemId = some system)
    (hrow : g ∈ db.grantsOn system) (hmember : (db.rooms.get g.room).any (party ∈ ·.parties))
    (hnone : g.permission = none) :
    partyCanAccessKb db party kb action = (decide (action = .read) ||
      partyCanAccessKb (db.withGrants (db.grants.erase g)) party kb action) := by
  unfold partyCanAccessKb
  rw [hsystem, any_some, any_some, memberGranted_erase hrow hmember hnone, Bool.or_left_comm]
  rfl

theorem partyCanAccessMail_erase {mail : MailAccount U} (hsystem : mail.systemId = some system)
    (hrow : g ∈ db.grantsOn system) (hmember : (db.rooms.get g.room).any (party ∈ ·.parties))
    (hnone : g.permission = none) :
    partyCanAccessMail db party mail action = (decide (action = .read) ||
      partyCanAccessMail (db.withGrants (db.grants.erase g)) party mail action) := by
  unfold partyCanAccessMail
  rw [hsystem, any_some, any_some, memberGranted_erase hrow hmember hnone, Bool.or_left_comm]

theorem kbBySystem_systemId {kb : Kb U} (h : db.kbBySystem system = some kb) :
    kb.systemId = some system := by
  simpa using find?_some h

/-- The default applies to a system exactly if a knowledge base has it. -/
theorem partyCanAccessSystem_erase (hrow : g ∈ db.grantsOn system)
    (hmember : (db.rooms.get g.room).any (party ∈ ·.parties)) (hnone : g.permission = none) :
    partyCanAccessSystem db party system action =
      (decide (action = .read ∧ db.kbBySystem system ≠ none) ||
        partyCanAccessSystem (db.withGrants (db.grants.erase g)) party system action) := by
  have hkbs : (db.withGrants (db.grants.erase g)).kbBySystem system = db.kbBySystem system := rfl
  unfold partyCanAccessSystem
  rw [hkbs]
  cases hkb : db.kbBySystem system with
  | some kb =>
    have hsystem := kbBySystem_systemId hkb
    have herase : partyCanAccessKb db party kb action = (decide (action = .read) ||
        partyCanAccessKb (db.withGrants (db.grants.erase g)) party kb action) :=
      partyCanAccessKb_erase hsystem hrow hmember hnone
    simpa using herase
  | none =>
    simpa using roomGranted_erase hrow hnone

theorem partyCanAccessDrive_erase {drive : Drive U} (hsystem : drive.systemId = some system)
    (hrow : g ∈ db.grantsOn system) (hmember : (db.rooms.get g.room).any (party ∈ ·.parties))
    (hnone : g.permission = none) : partyCanAccessDrive db party drive action =
      (decide (action = .read ∧ db.kbBySystem system ≠ none) ||
        partyCanAccessDrive (db.withGrants (db.grants.erase g)) party drive action) := by
  unfold partyCanAccessDrive
  rw [hsystem, any_some, any_some, partyCanAccessSystem_erase hrow hmember hnone, Bool.or_left_comm]
  rfl

end Erase

variable {resource : Resource U} {g : Grant}

theorem decide_or_iff {p : Prop} [Decidable p] {b : Bool} (hb : b = false) :
    (decide p || b) ↔ p := by
  simp [hb]

theorem reads_kb_iff {kb : Kb U} (hrow : g ∈ db.grantsOn system)
    (hmember : (db.rooms.get g.room).any (party ∈ ·.parties)) (hnone : g.permission = none)
    (hsystem : kb.systemId = some system)
    (hwithout : partyCanAccessKb (db.withGrants (db.grants.erase g)) party kb action = false) :
    partyCanAccessKb db party kb action ↔ action = .read := by
  rw [partyCanAccessKb_erase hsystem hrow hmember hnone]
  exact decide_or_iff hwithout

/-- The grant lets the party read what is not queried, and nothing else. -/
theorem can_iff (h : OnlyRight host db subject resource party system g) :
    can host db subject action resource ↔ action = .read ∧ ¬ resource.Queried host db := by
  have hwithout := h.only action
  have hmember := h.member
  have hnone := h.permission
  have hrow := h.row
  unfold can at hwithout ⊢
  rw [h.isParty, any_some] at hwithout ⊢
  cases h.reached with
  | @kb id kb _ hkb hsystem =>
    change ((id.asUuid host).bind db.kbs.get).any _ = false at hwithout
    change ((id.asUuid host).bind db.kbs.get).any _ ↔ _ ∧ ¬ False
    rw [hkb, any_some] at hwithout ⊢
    rw [reads_kb_iff hrow hmember hnone hsystem hwithout]
    simp
  | @kbStore scope kb _ hkb hsystem =>
    change ((scope.asUuid host).bind db.kbByScope).any _ = false at hwithout
    change ((scope.asUuid host).bind db.kbByScope).any _ ↔ _ ∧ ¬ False
    rw [hkb, any_some] at hwithout ⊢
    rw [reads_kb_iff hrow hmember hnone hsystem hwithout]
    simp
  | @store scope kb _ hkb hsystem =>
    obtain ⟨u, hu, hkb⟩ := bind_eq_some_iff.mp hkb
    have hkbs : (db.withGrants (db.grants.erase g)).kbByScope u = db.kbByScope u := rfl
    simp only [partyCan, hu, any_some, canScope, hkbs, hkb] at hwithout ⊢
    rw [reads_kb_iff hrow hmember hnone hsystem hwithout]
    simp [Resource.Queried, hu, hkb]
  | @mail id mail _ hmail hsystem =>
    change ((id.asUuid host).bind db.mails.get).any _ = false at hwithout
    change ((id.asUuid host).bind db.mails.get).any _ ↔ _ ∧ ¬ False
    rw [hmail, any_some] at hwithout ⊢
    rw [partyCanAccessMail_erase hsystem hrow hmember hnone, decide_or_iff hwithout]
    simp
  | @drive id drive _ hdrive hsystem =>
    change ((id.asUuid host).bind db.drives.get).any _ = false at hwithout
    change ((id.asUuid host).bind db.drives.get).any _ ↔ _
    have hqueried : (Resource.drive id).Queried host db ↔ db.kbBySystem system = none := by
      simp [Resource.Queried, hdrive, hsystem]
    rw [hdrive, any_some] at hwithout ⊢
    rw [partyCanAccessDrive_erase hsystem hrow hmember hnone, decide_or_iff hwithout, hqueried]
  | @registered scope _ hscope hkb hroom hsome =>
    have hkbs : (db.withGrants (db.grants.erase g)).kbByScope system = none := hkb
    have hrooms : (db.withGrants (db.grants.erase g)).roomByScope system = none := hroom
    have hsystems : ((db.withGrants (db.grants.erase g)).systems.get system).isSome := hsome
    have hqueried : (Resource.scope scope).Queried host db ↔ db.kbBySystem system = none := by
      simp [Resource.Queried, hscope, hkb, hroom]
    simp only [partyCan, hscope, any_some, canScope, hkbs, hrooms, hsystems, hkb, hroom,
      hsome, Bool.true_and] at hwithout ⊢
    rw [partyCanAccessSystem_erase hrow hmember hnone, decide_or_iff hwithout, hqueried]

/-- The party only reads the resource exactly if the resource is not queried. -/
theorem reads_only_iff (h : OnlyRight host db subject resource party system g) :
    ReadsOnly host db subject resource ↔ ¬ resource.Queried host db := by
  constructor
  · intro hreads
    exact (can_iff h).mp ((hreads .read).trans rfl) |>.2
  · intro hqueried action
    rw [Bool.eq_iff_iff, can_iff h, decide_eq_true_eq]
    exact and_iff_left hqueried

/-- Party 2 is a member of the room that the grants name. -/
def oldGrants : List Grant := [⟨0, 1, none⟩, ⟨0, 2, none⟩]

theorem onlyRight_kb : OnlyRight exampleHost (exampleDb.withGrants oldGrants) (.party (.uuid 2))
    (.kb (.uuid 10)) 2 12 ⟨0, 1, none⟩ := by
  constructor
  · rfl
  · have hkb : ((Ident.uuid 10).asUuid exampleHost).bind exampleDb.kbs.get =
        some ⟨10, some 1, [], some 11, some 12⟩ := rfl
    exact .kb hkb rfl
  · decide
  · rfl
  · rfl
  · intro action
    cases action <;> rfl

theorem reads_only_example : ReadsOnly exampleHost (exampleDb.withGrants oldGrants)
    (.party (.uuid 2)) (.kb (.uuid 10)) :=
  (reads_only_iff onlyRight_kb).mpr id

/-- The same grant on the system of a drive lets the party do nothing. -/
theorem grant_dropped : OnlyRight exampleHost (exampleDb.withGrants oldGrants) (.party (.uuid 2))
    (.drive (.uuid 20)) 2 22 ⟨0, 2, none⟩ ∧
    ¬ ReadsOnly exampleHost (exampleDb.withGrants oldGrants) (.party (.uuid 2))
      (.drive (.uuid 20)) := by
  have hdrive : ((Ident.uuid 20).asUuid exampleHost).bind exampleDb.drives.get =
      some ⟨20, some 1, some 22⟩ := rfl
  refine ⟨⟨rfl, .drive hdrive rfl, by decide, rfl, rfl, ?_⟩, ?_⟩
  · intro action
    cases action <;> rfl
  · intro hreads
    exact absurd (hreads .read) (by decide)

end Simmis.Access
