import Simmis.Access.Names

/-!
# Open proposal forks

Work on an open proposal fork stays with its author and with whoever may merge it. Everybody else
reads the fork as the store, and a branch never grants what its store does not.
-/

namespace Simmis.Access

open List Option

variable {U : Type} [DecidableEq U]

/-- The fork of an open proposal, not yet decided, that is a branch of a store. -/
structure OpenOn (db : Db U) (scope : U) (branch : String) (fork : Fork U) (p : Proposal U) :
    Prop where
  forkRow : fork ∈ db.forks.rows
  proposalRow : p ∈ db.proposals.rows
  isOpen : p.isOpen
  filed : fork.eid ∈ p.forks
  undecided : fork.decided = false
  inScope : fork.scope = some scope
  onBranch : fork.branch = some branch

variable {host : Host U} {db : Db U} {party scope : U} {branch : String} {action : Action}
  {fork : Fork U} {p : Proposal U}

theorem mem_openForkRows {wanted : Fork U → Proposal U → Bool} :
    (fork, p) ∈ openForkRows db wanted ↔ fork ∈ db.forks.rows ∧ p ∈ db.proposals.rows ∧
      p.isOpen ∧ fork.eid ∈ p.forks ∧ fork.decided = false ∧ wanted fork p := by
  unfold openForkRows
  simp only [List.mem_flatMap, List.mem_map, List.mem_filter, Bool.and_eq_true, decide_eq_true_eq,
    Bool.not_eq_true', Prod.mk.injEq]
  constructor
  · rintro ⟨fork', hfork, p', ⟨hp, ⟨⟨hopen, hfiled⟩, hundecided⟩, hwanted⟩, rfl, rfl⟩
    exact ⟨hfork, hp, hopen, hfiled, hundecided, hwanted⟩
  · rintro ⟨hfork, hp, hopen, hfiled, hundecided, hwanted⟩
    exact ⟨fork, hfork, p, ⟨hp, ⟨⟨hopen, hfiled⟩, hundecided⟩, hwanted⟩, rfl, rfl⟩

theorem openOn_iff : OpenOn db scope branch fork p ↔
    (fork, p) ∈ openForkRows db fun fork _ ↦ fork.scope = some scope && fork.branch = some branch := by
  rw [mem_openForkRows, Bool.and_eq_true, decide_eq_true_eq, decide_eq_true_eq]
  constructor
  · exact fun h ↦ ⟨h.forkRow, h.proposalRow, h.isOpen, h.filed, h.undecided, h.inScope, h.onBranch⟩
  · exact fun ⟨hfork, hp, hopen, hfiled, hundecided, hscope, hbranch⟩ ↦
      ⟨hfork, hp, hopen, hfiled, hundecided, hscope, hbranch⟩

/-- A decided fork does not shadow an open one. -/
theorem openFork_of_openOn (h : OpenOn db scope branch fork p) :
    ∃ fork' p', openFork db scope (some branch) = some (fork', p') ∧
      OpenOn db scope branch fork' p' := by
  have hmem := openOn_iff.mp h
  unfold openFork
  rw [bind_some]
  cases hrows : openForkRows db fun fork _ ↦
      fork.scope = some scope && fork.branch = some branch with
  | nil =>
    rw [hrows] at hmem
    cases hmem
  | cons row rows =>
    refine ⟨row.1, row.2, rfl, openOn_iff.mpr ?_⟩
    rw [hrows]
    exact mem_cons_self ..

/-- Who controls none of the open forks that are a branch does nothing on it but read. -/
theorem partyCanAccessBranch_open (hbranch : branch ≠ "db") (hopen : OpenOn db scope branch fork p)
    (hcontrol : ∀ fork' p', OpenOn db scope branch fork' p' →
      forkController host db party (fork', p') = false) (haction : action ≠ .read) :
    partyCanAccessBranch host db party (some scope) (some branch) action = false := by
  obtain ⟨fork', p', hfork, hopen'⟩ := openFork_of_openOn hopen
  have htrunk : trunkBranch (some branch) = false := by simpa [trunkBranch] using hbranch
  unfold partyCanAccessBranch
  rw [any_some, hfork, all_some, hcontrol fork' p' hopen', htrunk]
  simp [haction]

/-- On the trunk everybody does what the store allows. -/
theorem partyCanAccessBranch_trunk (scope : Option U) :
    partyCanAccessBranch host db party scope none action =
      scope.any (canScope db party action) := by
  unfold partyCanAccessBranch trunkBranch
  simp

theorem partyCanAccessBranch_le {scope : Option U} {branch : Option String}
    (h : partyCanAccessBranch host db party scope branch action) :
    partyCanAccessBranch host db party scope none action := by
  rw [partyCanAccessBranch_trunk]
  exact any_mono (fun _ hscope ↦ (Bool.and_eq_true_iff.mp hscope).1) h

/-- Reading a branch is reading the store. -/
theorem partyCanAccessBranch_read (scope : Option U) (branch : Option String) :
    partyCanAccessBranch host db party scope branch .read = scope.any (canScope db party .read) := by
  simp [partyCanAccessBranch]

/-- On a proposal fork that is not named as the trunk only its writers and those who may merge do
more than read; and no branch gives more than the trunk. -/
theorem fork_work_stays (host : Host U) (db : Db U) (subject : Subject U) (named : Ident U)
    (scope : U) (branch : String) (fork : Fork U) (p : Proposal U)
    (hscope : named.asUuid host = some scope) (hbranch : branch ≠ "db")
    (hopen : OpenOn db scope branch fork p)
    (hcontrol : ∀ party, subject.partyUuid host = some party → ∀ fork' p',
      OpenOn db scope branch fork' p' → forkController host db party (fork', p') = false) :
    (∀ action, can host db subject action (.branch named (some branch)) =
      (decide (action = .read) && can host db subject .read (.scope named))) ∧
    ∀ subject' action branch', can host db subject' action (.branch named branch') →
      can host db subject' action (.branch named none) ∧
        can host db subject' action (.scope named) := by
  constructor
  · intro action
    cases hparty : subject.partyUuid host with
    | none => simp [can, hparty]
    | some party =>
      simp only [can, hparty, any_some, partyCan, hscope]
      by_cases haction : action = .read
      · rw [haction, partyCanAccessBranch_read]
        rfl
      · rw [partyCanAccessBranch_open hbranch hopen (hcontrol party hparty) haction]
        simp [haction]
  · intro subject' action branch' h
    have htrunk : can host db subject' action (.branch named none) :=
      any_mono (fun party hcan ↦ partyCanAccessBranch_le hcan) h
    refine ⟨htrunk, any_mono (fun party hcan ↦ ?_) htrunk⟩
    exact (partyCanAccessBranch_trunk (named.asUuid host)).symm.trans hcan

/-- A knowledge base of party 1, shared with parties 2 and 3, with open forks. -/
def forkedDb (forks : Table (Fork.eid (U := ℕ))) (proposals : Table (Proposal.id (U := ℕ))) :
    Db ℕ where
  parties := ⟨[⟨1, false⟩, ⟨2, false⟩, ⟨3, false⟩], by decide⟩
  kbs := ⟨[⟨10, some 1, [2, 3], some 11, some 12⟩], by decide⟩
  drives := Table.empty
  mails := Table.empty
  rooms := Table.empty
  systems := ⟨[⟨1, 12⟩], by decide⟩
  grants := []
  forks := forks
  proposals := proposals

/-- A fork of that knowledge base. -/
def exampleFork (eid author : ℕ) (branch : String) : Fork ℕ :=
  ⟨eid, some author, none, some 11, some branch, false, none, none, none⟩

def exampleProposal (id author fork : ℕ) : Proposal ℕ := ⟨id, some author, none, true, [fork]⟩

theorem fork_work_stays_example : can exampleHost (forkedDb ⟨[exampleFork 5 2 "fix"], by decide⟩
        ⟨[exampleProposal 40 2 5], by decide⟩) (.party (.uuid 3)) .write
      (.branch (.uuid 11) (some "fix")) = false := by
  have hopen : OpenOn (forkedDb ⟨[exampleFork 5 2 "fix"], by decide⟩
      ⟨[exampleProposal 40 2 5], by decide⟩) 11 "fix" (exampleFork 5 2 "fix")
      (exampleProposal 40 2 5) := by
    constructor <;> decide
  have hcontrol : ∀ party, (Subject.party (Ident.uuid 3)).partyUuid exampleHost = some party →
      ∀ fork' p', OpenOn (forkedDb ⟨[exampleFork 5 2 "fix"], by decide⟩
        ⟨[exampleProposal 40 2 5], by decide⟩) 11 "fix" fork' p' →
      forkController exampleHost (forkedDb ⟨[exampleFork 5 2 "fix"], by decide⟩
        ⟨[exampleProposal 40 2 5], by decide⟩) party (fork', p') = false := by
    rintro party hparty fork' p' h
    obtain rfl : 3 = party := some.inj hparty
    obtain rfl := mem_singleton.mp h.forkRow
    obtain rfl := mem_singleton.mp h.proposalRow
    decide
  have hstays := fork_work_stays exampleHost _ (.party (.uuid 3)) (.uuid 11) 11 "fix" _ _ rfl
    (by decide) hopen hcontrol
  rw [hstays.1 .write]
  rfl

/-- Nobody but the author of an open fork, and who may merge it, writes to its branch. -/
def StaysWithAuthor (host : Host U) (db : Db U) : Prop :=
  ∀ scope branch fork p party, OpenOn db scope branch fork p →
    forkController host db party (fork, p) = false → canScope db party .merge scope = false →
    partyCanAccessBranch host db party (some scope) (some branch) .write = false

/-- A fork named as the trunk is written by all who write the store, and forks of one branch by the
author of either. -/
theorem written_by_others :
    ¬ StaysWithAuthor exampleHost (forkedDb ⟨[exampleFork 5 2 "db"], by decide⟩
      ⟨[exampleProposal 40 2 5], by decide⟩) ∧
    ¬ StaysWithAuthor exampleHost (forkedDb ⟨[exampleFork 5 2 "fix", exampleFork 6 3 "fix"], by decide⟩
      ⟨[exampleProposal 40 2 5, exampleProposal 41 3 6], by decide⟩) := by
  constructor
  · intro h
    have hopen : OpenOn (forkedDb ⟨[exampleFork 5 2 "db"], by decide⟩
        ⟨[exampleProposal 40 2 5], by decide⟩) 11 "db" (exampleFork 5 2 "db")
        (exampleProposal 40 2 5) := by
      constructor <;> decide
    exact absurd (h 11 "db" _ _ 3 hopen (by decide) (by decide)) (by decide)
  · intro h
    have hopen : OpenOn (forkedDb ⟨[exampleFork 5 2 "fix", exampleFork 6 3 "fix"], by decide⟩
        ⟨[exampleProposal 40 2 5, exampleProposal 41 3 6], by decide⟩) 11 "fix"
        (exampleFork 6 3 "fix") (exampleProposal 41 3 6) := by
      constructor <;> decide
    exact absurd (h 11 "fix" _ _ 2 hopen (by decide) (by decide)) (by decide)

end Simmis.Access
