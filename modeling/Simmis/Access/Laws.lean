import Simmis.Access.Evaluators

/-!
# Laws of the authorization predicate

Merging implies writing and writing implies reading, for every evaluator. More grants never take a
permission away.
-/

namespace Simmis.Access

open List Option

variable {U : Type} [DecidableEq U] {host : Host U} {db : Db U} {party : U} {action : Action}

theorem any_mono {α : Type} {x : Option α} {p q : α → Bool} (hpq : ∀ value, p value → q value)
    (h : x.any p) : x.any q := by
  rw [Option.any_eq_true] at h ⊢
  obtain ⟨value, hvalue, hp⟩ := h
  exact ⟨value, hvalue, hpq value hp⟩

theorem and_mono {p q r : Bool} (hqr : q → r) (h : p && q) : p && r := by
  rw [Bool.and_eq_true] at h ⊢
  exact ⟨h.1, hqr h.2⟩

theorem or_mono {p q r : Bool} (hqr : q → r) (h : p || q) : p || r := by
  rw [Bool.or_eq_true] at h ⊢
  exact h.imp_right hqr

/-- `a.Above b`: whoever may do `a` may do `b`. -/
inductive Action.Above : Action → Action → Prop
  | mergeWrite : Above .merge .write
  | writeRead : Above .write .read

variable {system scope : U} {kb : Kb U} {drive : Drive U} {mail : MailAccount U}
  {resource : Resource U}

section Above

variable {a b : Action}

section

variable (hab : a.Above b)
include hab

theorem permissionSatisfies_above {permission : Option Permission}
    (h : permissionSatisfies permission a) : permissionSatisfies permission b := by
  cases hab with
  | mergeWrite =>
    simp only [permissionSatisfies, Bool.or_eq_true, decide_eq_true_eq] at h ⊢
    rcases h with h | h
    · exact .inl (.inr h)
    · exact .inr h
  | writeRead =>
    cases permission with
    | none => simp [permissionSatisfies] at h
    | some permission => rfl

theorem not_override : authorityOverride db party a = false := by
  cases hab <;> rfl

theorem memberGranted_above (h : memberGranted db party system a) :
    memberGranted db party system b := by
  simp only [memberGranted, List.any_eq_true, Bool.and_eq_true] at h ⊢
  obtain ⟨g, hg, hmember, hpermits⟩ := h
  exact ⟨g, hg, hmember, permissionSatisfies_above hab hpermits⟩

theorem partyCanAccessKb_above (h : partyCanAccessKb db party kb a) :
    partyCanAccessKb db party kb b := by
  simp only [partyCanAccessKb, not_override hab, Bool.or_eq_true, Bool.and_eq_true,
    Option.any_eq_true, Bool.false_eq_true, or_false] at h ⊢
  rcases h with (howner | ⟨hshared, hpermits⟩) | ⟨system, hsystem, hgranted⟩
  · exact .inl (.inl (.inl howner))
  · exact .inl (.inr ⟨hshared, permissionSatisfies_above hab hpermits⟩)
  · exact .inr ⟨system, hsystem, memberGranted_above hab hgranted⟩

theorem partyCanAccessRoom_above {room : Room U} (h : partyCanAccessRoom party room a) :
    partyCanAccessRoom party room b := by
  cases hab with
  | mergeWrite => exact Bool.or_eq_true_iff.mpr (.inl h)
  | writeRead => exact h

theorem roomGranted_above (h : roomGranted db party system a) : roomGranted db party system b := by
  simp only [roomGranted, List.any_eq_true, Bool.and_eq_true, Option.any_eq_true] at h ⊢
  obtain ⟨g, hg, ⟨permission, hpermission, hpermits⟩, hroom⟩ := h
  exact ⟨g, hg, ⟨permission, hpermission, permissionSatisfies_above hab hpermits⟩, hroom⟩

theorem partyCanAccessSystem_above (h : partyCanAccessSystem db party system a) :
    partyCanAccessSystem db party system b := by
  unfold partyCanAccessSystem at h ⊢
  cases hkb : db.kbBySystem system with
  | some kb =>
    rw [hkb] at h
    exact partyCanAccessKb_above hab h
  | none =>
    rw [hkb] at h
    exact roomGranted_above hab h

theorem partyCanAccessDrive_above (h : partyCanAccessDrive db party drive a) :
    partyCanAccessDrive db party drive b := by
  simp only [partyCanAccessDrive, not_override hab, Bool.or_eq_true, Option.any_eq_true,
    Bool.false_eq_true, or_false] at h ⊢
  rcases h with howner | ⟨system, hsystem, hreach⟩
  · exact .inl (.inl howner)
  · exact .inr ⟨system, hsystem, partyCanAccessSystem_above hab hreach⟩

theorem partyCanAccessMail_above (h : partyCanAccessMail db party mail a) :
    partyCanAccessMail db party mail b := by
  simp only [partyCanAccessMail, Bool.or_eq_true, Option.any_eq_true] at h ⊢
  rcases h with howner | ⟨system, hsystem, hgranted⟩
  · exact .inl howner
  · exact .inr ⟨system, hsystem, memberGranted_above hab hgranted⟩

theorem canScope_above (h : canScope db party a scope) : canScope db party b scope := by
  unfold canScope at h ⊢
  split at h
  · exact partyCanAccessKb_above hab h
  · split at h
    · exact partyCanAccessRoom_above hab h
    · rw [Bool.and_eq_true] at h ⊢
      exact ⟨h.1, partyCanAccessSystem_above hab h.2⟩

/-- What holds beyond reading of the control of a fork. -/
theorem beyond_read {control : Bool} (h : decide (a = .read) || control) :
    decide (b = .read) || control := by
  cases hab with
  | mergeWrite => exact h
  | writeRead => rfl

theorem partyCan_above (h : partyCan host db party a resource) :
    partyCan host db party b resource := by
  cases resource with
  | authenticated | admin | settings | self => exact h
  | scope scope => exact any_mono (fun _ ↦ canScope_above hab) h
  | kb id => exact any_mono (fun _ ↦ partyCanAccessKb_above hab) h
  | room id =>
    refine any_mono (fun room hroom ↦ ?_) h
    exact any_mono (fun _ ↦ partyCanAccessRoom_above hab) hroom
  | mail id => exact any_mono (fun _ ↦ partyCanAccessMail_above hab) h
  | proposalFork proposal scope branch =>
    refine any_mono (fun room hroom ↦ ?_) h
    rw [Bool.and_eq_true] at hroom ⊢
    exact ⟨partyCanAccessRoom_above hab hroom.1, beyond_read hab hroom.2⟩
  | proposalForks proposal =>
    refine any_mono (fun room hroom ↦ ?_) h
    rw [Bool.and_eq_true, Bool.or_assoc] at hroom ⊢
    exact ⟨partyCanAccessRoom_above hab hroom.1, beyond_read hab hroom.2⟩
  | attachment room attached =>
    cases hab <;> cases attached <;> exact nomatch h
  | proposal id => exact any_mono (fun _ ↦ partyCanAccessRoom_above hab) h
  | drive id => exact any_mono (fun _ ↦ partyCanAccessDrive_above hab) h
  | branch scope branch =>
    refine any_mono (fun scope hscope ↦ ?_) h
    rw [Bool.and_eq_true, Bool.or_assoc] at hscope ⊢
    exact ⟨canScope_above hab hscope.1, beyond_read hab hscope.2⟩
  | kbStore scope => exact any_mono (fun _ ↦ partyCanAccessKb_above hab) h
  | unknown => exact nomatch h

end

end Above

def Db.withGrants (db : Db U) (grants : List Grant) : Db U := { db with grants }

section Grants

variable {grants : List Grant}

section

variable (hgrants : ∀ g ∈ db.grants, g ∈ grants)
include hgrants

theorem memberGranted_mono (h : memberGranted db party system action) :
    memberGranted (db.withGrants grants) party system action := by
  simp only [memberGranted, Db.grantsOn, List.any_eq_true, List.mem_filter] at h ⊢
  obtain ⟨g, ⟨hg, hsystem⟩, hreach⟩ := h
  exact ⟨g, ⟨hgrants g hg, hsystem⟩, hreach⟩

theorem roomGranted_mono (h : roomGranted db party system action) :
    roomGranted (db.withGrants grants) party system action := by
  simp only [roomGranted, Db.grantsOn, List.any_eq_true, List.mem_filter] at h ⊢
  obtain ⟨g, ⟨hg, hsystem⟩, hreach⟩ := h
  exact ⟨g, ⟨hgrants g hg, hsystem⟩, hreach⟩

theorem partyCanAccessKb_mono (h : partyCanAccessKb db party kb action) :
    partyCanAccessKb (db.withGrants grants) party kb action := by
  unfold partyCanAccessKb at h ⊢
  rw [Bool.or_eq_true] at h ⊢
  exact h.imp_right (any_mono fun _ ↦ memberGranted_mono hgrants)

theorem partyCanAccessSystem_mono (h : partyCanAccessSystem db party system action) :
    partyCanAccessSystem (db.withGrants grants) party system action := by
  have hkbs : (db.withGrants grants).kbBySystem system = db.kbBySystem system := rfl
  unfold partyCanAccessSystem at h ⊢
  rw [hkbs]
  split at h
  · exact partyCanAccessKb_mono hgrants h
  · exact roomGranted_mono hgrants h

theorem partyCanAccessDrive_mono (h : partyCanAccessDrive db party drive action) :
    partyCanAccessDrive (db.withGrants grants) party drive action := by
  unfold partyCanAccessDrive at h ⊢
  rw [Bool.or_eq_true] at h ⊢
  exact h.imp_right (any_mono fun _ ↦ partyCanAccessSystem_mono hgrants)

theorem partyCanAccessMail_mono (h : partyCanAccessMail db party mail action) :
    partyCanAccessMail (db.withGrants grants) party mail action := by
  unfold partyCanAccessMail at h ⊢
  rw [Bool.or_eq_true] at h ⊢
  exact h.imp_right (any_mono fun _ ↦ memberGranted_mono hgrants)

theorem canScope_mono (h : canScope db party action scope) :
    canScope (db.withGrants grants) party action scope := by
  have hkbs : (db.withGrants grants).kbByScope scope = db.kbByScope scope := rfl
  have hrooms : (db.withGrants grants).roomByScope scope = db.roomByScope scope := rfl
  unfold canScope at h ⊢
  rw [hkbs, hrooms]
  split at h
  · exact partyCanAccessKb_mono hgrants h
  · split at h
    · exact h
    · rw [Bool.and_eq_true] at h ⊢
      exact ⟨h.1, partyCanAccessSystem_mono hgrants h.2⟩

end

/-- Grants are not what tells the registry row of a world's system. -/
def Host.ReadsNoGrants (host : Host U) : Prop :=
  ∀ db grants world, host.registrySystemFor (db.withGrants grants) world =
    host.registrySystemFor db world

section

variable (hhost : host.ReadsNoGrants) (hgrants : ∀ g ∈ db.grants, g ∈ grants)
include hhost hgrants

theorem mayMergeProposalFork_mono {fork : Fork U} (h : mayMergeProposalFork host db party fork) :
    mayMergeProposalFork host (db.withGrants grants) party fork := by
  unfold mayMergeProposalFork at h ⊢
  split at h
  · exact h
  · split at h
    · rw [hhost, Bool.and_eq_true] at *
      exact ⟨h.1, any_mono (fun _ ↦ canScope_mono hgrants) h.2⟩
    · exact nomatch h
  · exact any_mono (fun _ ↦ canScope_mono hgrants) h

theorem forkController_mono {row : Fork U × Proposal U} (h : forkController host db party row) :
    forkController host (db.withGrants grants) party row := by
  unfold forkController at h ⊢
  rw [Bool.or_eq_true] at h ⊢
  exact h.imp_right (mayMergeProposalFork_mono hhost hgrants)

theorem partyCan_mono (h : partyCan host db party action resource) :
    partyCan host (db.withGrants grants) party action resource := by
  have hcontrol (row : Fork U × Proposal U) : forkController host db party row →
      forkController host (db.withGrants grants) party row := forkController_mono hhost hgrants
  cases resource with
  | authenticated | admin | settings | self | room | proposal => exact h
  | scope scope => exact any_mono (fun _ ↦ canScope_mono hgrants) h
  | kb id => exact any_mono (fun _ ↦ partyCanAccessKb_mono hgrants) h
  | mail id => exact any_mono (fun _ ↦ partyCanAccessMail_mono hgrants) h
  | proposalFork proposal scope branch =>
    refine any_mono (fun room ↦ and_mono (or_mono ?_)) h
    cases scope.asUuid host with
    | none => rintro ⟨⟩
    | some scope =>
      cases branch with
      | none => rintro ⟨⟩
      | some branch => exact any_mono hcontrol
  | proposalForks proposal =>
    refine any_mono (fun room ↦ and_mono (or_mono fun hforks ↦ ?_)) h
    rw [List.all_eq_true] at hforks ⊢
    exact fun row hrow ↦ hcontrol row (hforks row hrow)
  | attachment room attached =>
    have hrevoke {kb drive : Option U} (h : partyCanRevokeAttachment db party (room.asUuid host) kb
        drive action) : partyCanRevokeAttachment (db.withGrants grants) party (room.asUuid host) kb
        drive action := by
      simp only [partyCanRevokeAttachment, Bool.and_eq_true, Bool.or_eq_true] at h ⊢
      refine ⟨h.1, h.2.imp (fun h ↦ h.imp_right ?_) ?_⟩
      · exact any_mono fun _ ↦ partyCanAccessDrive_mono hgrants
      · exact any_mono fun _ ↦ partyCanAccessKb_mono hgrants
    cases attached with
    | kb | drive | nothing => exact hrevoke h
  | drive id => exact any_mono (fun _ ↦ partyCanAccessDrive_mono hgrants) h
  | branch scope branch =>
    refine any_mono (fun scope hscope ↦ ?_) h
    rw [Bool.and_eq_true] at hscope ⊢
    refine ⟨canScope_mono hgrants hscope.1, or_mono (fun hfork ↦ ?_) hscope.2⟩
    rw [Option.all_eq_true] at hfork ⊢
    exact fun row hrow ↦ hcontrol row (hfork row hrow)
  | kbStore scope => exact any_mono (fun _ ↦ partyCanAccessKb_mono hgrants) h
  | unknown => cases h

end

end Grants

section Unrecognised

variable {keyword : String}

theorem memberGranted_other : memberGranted db party system (.other keyword) = false := by
  simp [memberGranted, permissionSatisfies]

theorem roomGranted_other : roomGranted db party system (.other keyword) = false := by
  simp [roomGranted, permissionSatisfies]

theorem partyCanAccessKb_other :
    partyCanAccessKb db party kb (.other keyword) = decide (kb.owner = some party) := by
  simp [partyCanAccessKb, authorityOverride, permissionSatisfies, memberGranted_other]

theorem partyCanAccessMail_other :
    partyCanAccessMail db party mail (.other keyword) = decide (mail.owner = some party) := by
  simp [partyCanAccessMail, memberGranted_other]

theorem partyCanAccessSystem_other : partyCanAccessSystem db party system (.other keyword) =
      (db.kbBySystem system).any fun kb ↦ kb.owner = some party := by
  unfold partyCanAccessSystem
  cases db.kbBySystem system with
  | some kb => exact partyCanAccessKb_other
  | none => exact roomGranted_other

theorem partyCanAccessDrive_other : partyCanAccessDrive db party drive (.other keyword) =
      (decide (drive.owner = some party) ||
        (drive.systemId.bind db.kbBySystem).any fun kb ↦ kb.owner = some party) := by
  simp only [partyCanAccessDrive, authorityOverride, partyCanAccessSystem_other, reduceCtorEq,
    decide_false, Bool.or_self, Bool.false_and, Bool.or_false]
  cases drive.systemId <;> rfl

/-- The knowledge base that a store scope or a registry system names. -/
def Db.kbNamed (db : Db U) (scope : U) : Option (Kb U) :=
  (db.kbByScope scope).or (if (db.systems.get scope).isSome then db.kbBySystem scope else none)

theorem canScope_other (hroom : db.roomByScope scope = none) :
    canScope db party (.other keyword) scope =
      (db.kbNamed scope).any fun kb ↦ kb.owner = some party := by
  unfold canScope Db.kbNamed
  cases db.kbByScope scope with
  | some kb => exact partyCanAccessKb_other
  | none =>
    rw [hroom, none_or, partyCanAccessSystem_other]
    cases (db.systems.get scope).isSome with
    | true => rw [Bool.true_and, if_pos rfl]
    | false => rw [Bool.false_and, if_neg Bool.false_ne_true, any_none]

end Unrecognised

/-- What ownership, shares and grants decide: no conversation, and no setting of the party itself.
-/
def Resource.Governed (host : Host U) (db : Db U) : Resource U → Prop
  | .kb _ | .kbStore _ | .drive _ | .mail _ | .attachment _ _ | .unknown => True
  | .scope named => ∀ u, named.asUuid host = some u → db.roomByScope u = none
  | .branch named _ => ∀ u, named.asUuid host = some u → db.roomByScope u = none
  | .authenticated | .admin | .room _ | .proposal _ | .proposalFork _ _ _ | .proposalForks _
  | .settings _ | .self _ => False

/-- The party owns what the resource names. -/
def Resource.OwnedBy (host : Host U) (db : Db U) (party : U) : Resource U → Prop
  | .kb id => ∃ kb, (id.asUuid host).bind db.kbs.get = some kb ∧ kb.owner = some party
  | .kbStore named =>
    ∃ kb, (named.asUuid host).bind db.kbByScope = some kb ∧ kb.owner = some party
  | .drive id => ∃ drive, (id.asUuid host).bind db.drives.get = some drive ∧
      (drive.owner = some party ∨
        ∃ kb, drive.systemId.bind db.kbBySystem = some kb ∧ kb.owner = some party)
  | .mail id => ∃ mail, (id.asUuid host).bind db.mails.get = some mail ∧ mail.owner = some party
  | .scope named => ∃ kb, (named.asUuid host).bind db.kbNamed = some kb ∧ kb.owner = some party
  | .branch named _ =>
    ∃ kb, (named.asUuid host).bind db.kbNamed = some kb ∧ kb.owner = some party
  | _ => False

theorem partyCan_other {keyword : String} (hgoverned : resource.Governed host db)
    (h : partyCan host db party (.other keyword) resource) : resource.OwnedBy host db party := by
  have hscope {scope : Ident U} (hroom : ∀ u, scope.asUuid host = some u → db.roomByScope u = none)
      (h : (scope.asUuid host).any (canScope db party (.other keyword))) :
      ∃ kb, (scope.asUuid host).bind db.kbNamed = some kb ∧ kb.owner = some party := by
    obtain ⟨u, hu, hcan⟩ := (any_eq_true _ _).mp h
    rw [canScope_other (hroom u hu), Option.any_eq_true] at hcan
    obtain ⟨kb, hkb, howner⟩ := hcan
    exact ⟨kb, by rw [hu, bind_some, hkb], by simpa using howner⟩
  cases resource with
  | authenticated | admin | room | proposal | proposalFork | proposalForks | settings | self =>
    exact hgoverned.elim
  | scope scope => exact hscope hgoverned h
  | branch scope branch =>
    refine hscope hgoverned (any_mono (fun u hu ↦ ?_) h)
    rw [Bool.and_eq_true] at hu
    exact hu.1
  | kb id =>
    obtain ⟨kb, hkb, hcan⟩ := (any_eq_true _ _).mp h
    rw [partyCanAccessKb_other, decide_eq_true_eq] at hcan
    exact ⟨kb, hkb, hcan⟩
  | kbStore scope =>
    obtain ⟨kb, hkb, hcan⟩ := (any_eq_true _ _).mp h
    rw [partyCanAccessKb_other, decide_eq_true_eq] at hcan
    exact ⟨kb, hkb, hcan⟩
  | mail id =>
    obtain ⟨mail, hmail, hcan⟩ := (any_eq_true _ _).mp h
    rw [partyCanAccessMail_other, decide_eq_true_eq] at hcan
    exact ⟨mail, hmail, hcan⟩
  | drive id =>
    obtain ⟨drive, hdrive, hcan⟩ := (any_eq_true _ _).mp h
    rw [partyCanAccessDrive_other, Bool.or_eq_true, decide_eq_true_eq, Option.any_eq_true] at hcan
    refine ⟨drive, hdrive, hcan.imp_right ?_⟩
    rintro ⟨kb, hkb, howner⟩
    exact ⟨kb, hkb, by simpa using howner⟩
  | attachment room attached => cases attached <;> exact nomatch h
  | unknown => exact nomatch h

/-- Who may merge may write, and who may write may read. A grant takes nothing away, and an action
that is not recognised is denied to all but the owner. -/
theorem access_laws (host : Host U) (hhost : host.ReadsNoGrants) (db : Db U) (subject : Subject U)
    (resource : Resource U) :
    (∀ a b : Action, a.Above b → can host db subject a resource → can host db subject b resource) ∧
    (∀ action grants, (∀ g ∈ db.grants, g ∈ grants) → can host db subject action resource →
      can host (db.withGrants grants) subject action resource) ∧
    ∀ keyword, resource.Governed host db → can host db subject (.other keyword) resource →
      ∃ party, subject.partyUuid host = some party ∧ resource.OwnedBy host db party := by
  refine ⟨fun a b hab ↦ any_mono fun _ ↦ partyCan_above hab,
    fun action grants hgrants ↦ any_mono fun _ ↦ partyCan_mono hhost hgrants,
    fun keyword hgoverned h ↦ ?_⟩
  obtain ⟨party, hparty, hcan⟩ := (any_eq_true _ _).mp h
  exact ⟨party, hparty, partyCan_other hgoverned hcan⟩

def exampleHost : Host ℕ where
  parseUuid := String.toNat?
  registrySystemFor db world :=
    (db.systems.rows.find? fun system ↦ world = toString system.id).map System.id

/-- A knowledge base of party 1 granted to a room with party 2, and a drive. -/
def exampleDb : Db ℕ where
  parties := ⟨[⟨1, false⟩, ⟨2, false⟩], by decide⟩
  kbs := ⟨[⟨10, some 1, [], some 11, some 12⟩], by decide⟩
  drives := ⟨[⟨20, some 1, some 22⟩], by decide⟩
  mails := Table.empty
  rooms := ⟨[⟨0, some 30, none, [2], some 31, none⟩], by decide⟩
  systems := ⟨[⟨1, 12⟩, ⟨2, 22⟩], by decide⟩
  grants := [⟨0, 1, some .read⟩]
  forks := Table.empty
  proposals := Table.empty

theorem access_laws_example :
    can exampleHost (exampleDb.withGrants (⟨0, 1, some .merge⟩ :: exampleDb.grants)) (.party (.uuid 2)) .read
        (.kb (.uuid 10)) ∧
      can exampleHost (exampleDb.withGrants (⟨0, 1, some .merge⟩ :: exampleDb.grants)) (.party (.uuid 2)) .write
        (.kb (.uuid 10)) := by
  have hhost : exampleHost.ReadsNoGrants := fun _ _ _ ↦ rfl
  obtain ⟨-, hgrants, -⟩ := access_laws exampleHost hhost exampleDb (.party (.uuid 2)) (.kb (.uuid 10))
  obtain ⟨habove, -, -⟩ := access_laws exampleHost hhost
    (exampleDb.withGrants (⟨0, 1, some .merge⟩ :: exampleDb.grants)) (.party (.uuid 2)) (.kb (.uuid 10))
  exact ⟨hgrants .read _ (fun _ ↦ mem_cons_of_mem _) (by decide),
    habove .merge .write .mergeWrite (by decide)⟩

/-- The owner of a knowledge base may do what no action names. -/
theorem owner_unrecognised : ¬ ∀ (subject : Subject ℕ) (keyword : String) (resource : Resource ℕ),
    can exampleHost exampleDb subject (.other keyword) resource = false := by
  intro h
  exact absurd (h (.party (.uuid 1)) "delete" (.kb (.uuid 10))) (by decide)

end Simmis.Access
