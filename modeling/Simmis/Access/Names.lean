import Simmis.Access.Laws
import Simmis.Library.Runs

/-!
# One answer for every name

A knowledge base is named by its id, its scope or its registry system, a drive by its id or its
registry system. The names of a knowledge base always agree, those of a drive for everybody whose
authority comes from a grant.
-/

namespace Simmis.Access

open List Option

variable {U : Type} [DecidableEq U]

/-- A store scope or a system row belongs to one resource, and none is the other. -/
structure Db.WellNamed (db : Db U) : Prop where
  kbScope : ∀ kb ∈ db.kbs.rows, ∀ kb' ∈ db.kbs.rows, ∀ scope, kb.dbScope = some scope →
    kb'.dbScope = some scope → kb = kb'
  kbSystem : ∀ kb ∈ db.kbs.rows, ∀ kb' ∈ db.kbs.rows, ∀ system, kb.systemId = some system →
    kb'.systemId = some system → kb = kb'
  driveSystem : ∀ drive ∈ db.drives.rows, ∀ kb ∈ db.kbs.rows, ∀ system,
    drive.systemId = some system → kb.systemId ≠ some system
  kbStore : ∀ kb ∈ db.kbs.rows, ∀ system, kb.systemId = some system →
    db.kbByScope system = none ∧ db.roomByScope system = none
  driveStore : ∀ drive ∈ db.drives.rows, ∀ system, drive.systemId = some system →
    db.kbByScope system = none ∧ db.roomByScope system = none

/-- All names of a knowledge base, or of a drive, have one answer. -/
structure NamesAgree (host : Host U) (db : Db U) (subject : Subject U) (action : Action) : Prop where
  kbScope : ∀ kb ∈ db.kbs.rows, ∀ id scope, id.asUuid host = some kb.id →
    scope.asUuid host = kb.dbScope → kb.dbScope.isSome →
    can host db subject action (.scope scope) = can host db subject action (.kb id) ∧
      can host db subject action (.kbStore scope) = can host db subject action (.kb id)
  kbSystem : ∀ kb ∈ db.kbs.rows, ∀ id system, id.asUuid host = some kb.id →
    system.asUuid host = kb.systemId → (kb.systemId.bind db.systems.get).isSome →
    can host db subject action (.scope system) = can host db subject action (.kb id)
  drive : ∀ drive ∈ db.drives.rows, ∀ id system, id.asUuid host = some drive.id →
    system.asUuid host = drive.systemId → (drive.systemId.bind db.systems.get).isSome →
    can host db subject action (.scope system) = can host db subject action (.drive id)

/-- Whoever owns or administers a registered drive also reaches it through a room's grant. -/
def DriveOwnersGranted (host : Host U) (db : Db U) (subject : Subject U) (action : Action) : Prop :=
  ∀ drive ∈ db.drives.rows, ∀ system, drive.systemId = some system →
    (db.systems.get system).isSome → ∀ party, subject.partyUuid host = some party →
    drive.owner = some party ∨ authorityOverride db party action →
    roomGranted db party system action

variable {host : Host U} {db : Db U} {party : U} {action : Action}

omit [DecidableEq U] in
theorem get_of_mem {κ ρ : Type} [DecidableEq κ] {key : ρ → κ} {t : Table key} {r : ρ}
    (h : r ∈ t.rows) : t.get (key r) = some r :=
  Table.get_eq_some_iff.mpr ⟨h, rfl⟩

variable {scope system : U}

section

variable (hdb : db.WellNamed) {kb : Kb U} (hkb : kb ∈ db.kbs.rows)
include hdb hkb

theorem kbByScope_eq (hscope : kb.dbScope = some scope) : db.kbByScope scope = some kb := by
  cases hfound : db.kbByScope scope with
  | none => simpa [hscope] using find?_eq_none.mp hfound kb hkb
  | some found =>
    have hfoundScope : found.dbScope = some scope := by simpa using find?_some hfound
    rw [hdb.kbScope found (mem_of_find?_eq_some hfound) kb hkb scope hfoundScope hscope]

theorem kbBySystem_eq (hsystem : kb.systemId = some system) : db.kbBySystem system = some kb := by
  cases hfound : db.kbBySystem system with
  | none => simpa [hsystem] using find?_eq_none.mp hfound kb hkb
  | some found =>
    have hfoundSystem : found.systemId = some system := by simpa using find?_some hfound
    rw [hdb.kbSystem found (mem_of_find?_eq_some hfound) kb hkb system hfoundSystem hsystem]

theorem canScope_kb (hscope : kb.dbScope = some scope) :
    canScope db party action scope = partyCanAccessKb db party kb action := by
  unfold canScope
  rw [kbByScope_eq hdb hkb hscope]

theorem canScope_kbSystem (hsystem : kb.systemId = some system)
    (hrow : (db.systems.get system).isSome) :
    canScope db party action system = partyCanAccessKb db party kb action := by
  obtain ⟨hstore, hroom⟩ := hdb.kbStore kb hkb system hsystem
  unfold canScope partyCanAccessSystem
  rw [hstore, hroom, hrow, kbBySystem_eq hdb hkb hsystem, Bool.true_and]

end

theorem canScope_drive (hdb : db.WellNamed) {drive : Drive U} (hdrive : drive ∈ db.drives.rows)
    (hsystem : drive.systemId = some system) (hrow : (db.systems.get system).isSome) :
    canScope db party action system = roomGranted db party system action := by
  obtain ⟨hstore, hroom⟩ := hdb.driveStore drive hdrive system hsystem
  have hkb : db.kbBySystem system = none := by
    rw [Db.kbBySystem, find?_eq_none]
    intro kb hkb
    simpa using hdb.driveSystem drive hdrive kb hkb system hsystem
  unfold canScope partyCanAccessSystem
  rw [hstore, hroom, hrow, hkb, Bool.true_and]

/-- By its id a drive answers owner and administrators before grants. -/
theorem partyCanAccessDrive_eq (hdb : db.WellNamed) {drive : Drive U}
    (hdrive : drive ∈ db.drives.rows) (hsystem : drive.systemId = some system) :
    partyCanAccessDrive db party drive action =
      (decide (drive.owner = some party) || authorityOverride db party action ||
        roomGranted db party system action) := by
  have hkb : db.kbBySystem system = none := by
    rw [Db.kbBySystem, find?_eq_none]
    intro kb hkb
    simpa using hdb.driveSystem drive hdrive kb hkb system hsystem
  unfold partyCanAccessDrive partyCanAccessSystem
  rw [hsystem, any_some, hkb]

theorem agree_iff {own granted : Bool} : granted = (own || granted) ↔ (own → granted) := by
  cases own <;> cases granted <;> decide

/-- The names of knowledge bases agree; those of drives exactly if owners and administrators also
hold a grant. -/
theorem names_agree_iff (host : Host U) (db : Db U) (hdb : db.WellNamed) (subject : Subject U)
    (action : Action) :
    NamesAgree host db subject action ↔ DriveOwnersGranted host db subject action := by
  constructor
  · intro hagree drive hdrive system hsystem hrow party hparty hown
    have hnames := hagree.drive drive hdrive (.uuid drive.id) (.uuid system) rfl hsystem.symm
      (by rwa [hsystem, bind_some])
    simp only [can, hparty, any_some, partyCan, Ident.asUuid, bind_some,
      get_of_mem hdrive, canScope_drive hdb hdrive hsystem hrow,
      partyCanAccessDrive_eq hdb hdrive hsystem] at hnames
    refine agree_iff.mp hnames ?_
    rw [Bool.or_eq_true, decide_eq_true_eq]
    exact hown
  · intro hgranted
    constructor
    · intro kb hkb id scope hid hscope hsome
      obtain ⟨u, hu⟩ := isSome_iff_exists.mp hsome
      rw [hu] at hscope
      cases hparty : subject.partyUuid host with
      | none => simp [can, hparty]
      | some party =>
        simp only [can, hparty, any_some, partyCan, hid, hscope, bind_some,
          get_of_mem hkb, canScope_kb hdb hkb hu, kbByScope_eq hdb hkb hu, and_self]
    · intro kb hkb id system hid hsystem hrow
      cases hu : kb.systemId with
      | none => simp [hu] at hrow
      | some u =>
        rw [hu] at hsystem
        rw [hu, bind_some] at hrow
        cases hparty : subject.partyUuid host with
        | none => simp [can, hparty]
        | some party =>
          simp only [can, hparty, any_some, partyCan, hid, hsystem, bind_some,
            get_of_mem hkb, canScope_kbSystem hdb hkb hu hrow]
    · intro drive hdrive id system hid hsystem hrow
      cases hu : drive.systemId with
      | none => simp [hu] at hrow
      | some u =>
        rw [hu] at hsystem
        rw [hu, bind_some] at hrow
        cases hparty : subject.partyUuid host with
        | none => simp [can, hparty]
        | some party =>
          simp only [can, hparty, any_some, partyCan, hid, hsystem, bind_some,
            get_of_mem hdrive, canScope_drive hdb hdrive hu hrow,
            partyCanAccessDrive_eq hdb hdrive hu]
          refine agree_iff.mpr fun hown ↦ ?_
          rw [Bool.or_eq_true, decide_eq_true_eq] at hown
          exact hgranted drive hdrive u hu hrow party hparty hown

theorem exampleDb_wellNamed : exampleDb.WellNamed := by
  constructor <;> decide

theorem names_agree_iff_example : NamesAgree exampleHost exampleDb (.party (.uuid 2)) .read ↔
      DriveOwnersGranted exampleHost exampleDb (.party (.uuid 2)) .read :=
  names_agree_iff exampleHost exampleDb exampleDb_wellNamed (.party (.uuid 2)) .read

/-- The owner of a drive is refused when it is named by its system. -/
theorem drive_names_disagree : ¬ NamesAgree exampleHost exampleDb (.party (.uuid 1)) .read := by
  intro h
  have hdrive := h.drive ⟨20, some 1, some 22⟩ (by decide) (.uuid 20) (.uuid 22) rfl rfl rfl
  exact absurd hdrive (by decide)

/-- An id that no row uses, as a random one is. -/
structure Db.Unused (db : Db U) (u : U) : Prop where
  kb : ∀ kb ∈ db.kbs.rows, kb.id ≠ u ∧ kb.dbScope ≠ some u ∧ kb.systemId ≠ some u
  drive : ∀ drive ∈ db.drives.rows, drive.id ≠ u ∧ drive.systemId ≠ some u
  room : db.roomByScope u = none

/-- `create-kb!`: the registry row and the row of the knowledge base. -/
def Db.createKb (db : Db U) (eid : ℕ) (id owner scope system : U) : Db U :=
  { db with
    systems := db.systems.put ⟨eid, system⟩
    kbs := db.kbs.put ⟨id, some owner, [], some scope, some system⟩ }

/-- `create-drive!` -/
def Db.createDrive (db : Db U) (eid : ℕ) (id owner system : U) : Db U :=
  { db with
    systems := db.systems.put ⟨eid, system⟩
    drives := db.drives.put ⟨id, some owner, some system⟩ }

omit [DecidableEq U] in
theorem mem_put {κ ρ : Type} [DecidableEq κ] {key : ρ → κ} {t : Table key} {r q : ρ}
    (h : q ∈ (t.put r).rows) : q = r ∨ q ∈ t.rows := by
  simp only [Table.put, mem_cons, mem_filter] at h
  exact h.imp_right And.left

theorem kbByScope_eq_none :
    db.kbByScope scope = none ↔ ∀ kb ∈ db.kbs.rows, kb.dbScope ≠ some scope := by
  simp [Db.kbByScope]

theorem roomByScope_eq_none : db.roomByScope scope = none ↔
    ∀ room ∈ db.rooms.rows, room.contentDbScope ≠ some scope ∧ room.dbScope ≠ some scope := by
  simp [Db.roomByScope, forall_and]

theorem Db.WellNamed.createKb (hdb : db.WellNamed) (eid : ℕ) {id owner : U}
    (hscope : db.Unused scope) (hsystem : db.Unused system) (hne : scope ≠ system) :
    (db.createKb eid id owner scope system).WellNamed := by
  have hstore {u : U} (hu : u ≠ scope) (h : db.kbByScope u = none) :
      (db.createKb eid id owner scope system).kbByScope u = none := by
    rw [kbByScope_eq_none] at h ⊢
    intro kb hkb
    rcases mem_put hkb with rfl | hkb
    · exact fun heq ↦ hu (some.inj heq).symm
    · exact h kb hkb
  have hold {u : U} {kb : Kb U} (hkb : kb ∈ db.kbs.rows) (hu : kb.systemId = some u) : u ≠ scope := by
    rintro rfl
    exact (hscope.kb kb hkb).2.2 hu
  constructor
  · intro kb hkb kb' hkb' u hu hu'
    rcases mem_put hkb with rfl | hkb <;> rcases mem_put hkb' with rfl | hkb'
    · rfl
    · exact absurd (hu'.trans hu.symm) (hscope.kb kb' hkb').2.1
    · exact absurd (hu.trans hu'.symm) (hscope.kb kb hkb).2.1
    · exact hdb.kbScope kb hkb kb' hkb' u hu hu'
  · intro kb hkb kb' hkb' u hu hu'
    rcases mem_put hkb with rfl | hkb <;> rcases mem_put hkb' with rfl | hkb'
    · rfl
    · exact absurd (hu'.trans hu.symm) (hsystem.kb kb' hkb').2.2
    · exact absurd (hu.trans hu'.symm) (hsystem.kb kb hkb).2.2
    · exact hdb.kbSystem kb hkb kb' hkb' u hu hu'
  · intro drive hdrive kb hkb u hu
    rcases mem_put hkb with rfl | hkb
    · exact fun hu' ↦ (hsystem.drive drive hdrive).2 (hu.trans hu'.symm)
    · exact hdb.driveSystem drive hdrive kb hkb u hu
  · intro kb hkb u hu
    rcases mem_put hkb with rfl | hkb
    · obtain rfl := some.inj hu
      refine ⟨hstore hne.symm (kbByScope_eq_none.mpr fun kb hkb ↦ (hsystem.kb kb hkb).2.1), ?_⟩
      exact hsystem.room
    · exact ⟨hstore (hold hkb hu) (hdb.kbStore kb hkb u hu).1, (hdb.kbStore kb hkb u hu).2⟩
  · intro drive hdrive u hu
    refine ⟨hstore ?_ (hdb.driveStore drive hdrive u hu).1, (hdb.driveStore drive hdrive u hu).2⟩
    rintro rfl
    exact (hscope.drive drive hdrive).2 hu

theorem Db.WellNamed.createDrive (hdb : db.WellNamed) (eid : ℕ) {id owner : U}
    (hsystem : db.Unused system) : (db.createDrive eid id owner system).WellNamed := by
  constructor
  · exact hdb.kbScope
  · exact hdb.kbSystem
  · intro drive hdrive kb hkb u hu
    rcases mem_put hdrive with rfl | hdrive
    · obtain rfl := some.inj hu
      exact (hsystem.kb kb hkb).2.2
    · exact hdb.driveSystem drive hdrive kb hkb u hu
  · exact hdb.kbStore
  · intro drive hdrive u hu
    rcases mem_put hdrive with rfl | hdrive
    · obtain rfl := some.inj hu
      exact ⟨kbByScope_eq_none.mpr fun kb hkb ↦ (hsystem.kb kb hkb).2.1, hsystem.room⟩
    · exact hdb.driveStore drive hdrive u hu

/-- `create-room!`; a room reads the scopes of its two stores. -/
def Db.createRoom (db : Db U) (room : Room U) : Db U := { db with rooms := db.rooms.put room }

theorem Db.WellNamed.createRoom (hdb : db.WellNamed) {room : Room U}
    (hroom : ∀ u, room.contentDbScope = some u ∨ room.dbScope = some u → db.Unused u) :
    (db.createRoom room).WellNamed := by
  have hstore {u : U} (hused : ¬ db.Unused u) (h : db.roomByScope u = none) :
      (db.createRoom room).roomByScope u = none := by
    rw [roomByScope_eq_none] at h ⊢
    intro r hr
    rcases mem_put hr with rfl | hr
    · exact ⟨fun heq ↦ hused (hroom u (.inl heq)), fun heq ↦ hused (hroom u (.inr heq))⟩
    · exact h r hr
  refine ⟨hdb.kbScope, hdb.kbSystem, hdb.driveSystem, fun kb hkb u hu ↦ ?_,
    fun drive hdrive u hu ↦ ?_⟩
  · obtain ⟨hkbs, hrooms⟩ := hdb.kbStore kb hkb u hu
    exact ⟨hkbs, hstore (fun hunused ↦ (hunused.kb kb hkb).2.2 hu) hrooms⟩
  · obtain ⟨hkbs, hrooms⟩ := hdb.driveStore drive hdrive u hu
    exact ⟨hkbs, hstore (fun hunused ↦ (hunused.drive drive hdrive).2 hu) hrooms⟩

/-- A creation, with the ids that it draws. -/
inductive Creation (U : Type) where
  | kb (eid : ℕ) (id owner scope system : U)
  | drive (eid : ℕ) (id owner system : U)
  | room (row : Room U)

def Db.create (db : Db U) : Creation U → Db U
  | .kb eid id owner scope system => db.createKb eid id owner scope system
  | .drive eid id owner system => db.createDrive eid id owner system
  | .room row => db.createRoom row

/-- The ids of a creation are new, and differ. -/
def Creation.Fresh (db : Db U) : Creation U → Prop
  | .kb _ _ _ scope system => db.Unused scope ∧ db.Unused system ∧ scope ≠ system
  | .drive _ _ _ system => db.Unused system
  | .room row => ∀ u, row.contentDbScope = some u ∨ row.dbScope = some u → db.Unused u

end Simmis.Access
