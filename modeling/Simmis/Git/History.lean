import Simmis.Git.Ancestry
import Simmis.Library.Checks
import Simmis.Library.Maps

/-!
# Ancestry in raw Git history

The second proof of ancestry reads the objects of a pack catalog. A missing object refuses the whole
history. On one graph of commits it and the proof from the metadata do not contradict each other.
-/

namespace Simmis.Git

open List Option Relation Searches Maps GithubAncestry

namespace GitHistory

inductive ObjectType
  | commit
  | tree
  | blob
  | tag
deriving DecidableEq

/-- A row of the catalog, its payload nothing where it is truncated. -/
structure Object (P : Type) where
  type : ObjectType
  payload : Option P

/-- What the object library parses of a commit. -/
structure Commit where
  headers : List (String × String)
  tree : Option String
  parents : List String

/-- The object library: reading may raise and is charged to the operation. -/
structure Store (β ε P : Type) where
  objects : List (String × Object P)
  readObject : String → β → Except ε β
  objectId : P → String
  parseCommit : P → Except ε Commit

/-- `oid?` -/
def isOid (value : String) : Bool :=
  value.length = 40 && value.toList.all fun c ↦ c.isDigit || 'a' ≤ c && c ≤ 'f'

variable {β ε P : Type} (budget : Budget β ε) (store : Store β ε P)

/-- The checks of a parsed commit. -/
def Commit.isValid (parsed : Commit) : Bool :=
  (parsed.headers.filter (·.1 = "tree")).length = 1 && parsed.tree.any isOid &&
    parsed.parents.length ≤ 16 && parsed.parents.all isOid

/-- `commit!` -/
def commit (oid : String) (operation : β) : Except (HistoryFailure ε) (Commit × β) := do
  if !isOid oid then .error (.held .invalidHistory)
  else
    let operation ← raising (budget.charge operation .commitVisits 1)
    let operation ← raising (store.readObject oid operation)
    match get? store.objects oid with
    | some ⟨.commit, some payload⟩ =>
      if store.objectId payload = oid then do
        let parsed ← raising (store.parseCommit payload)
        if parsed.isValid then do
          let operation ← raising (budget.charge operation .graphEdges parsed.parents.length)
          .ok (parsed, operation)
        else .error (.held .invalidHistory)
      else .error (.held .historyUnavailable)
    | _ => .error (.held .historyUnavailable)

/-- The loop, with fuel. The last of the pending ids is the first one here. -/
def loop (ancestor : String) : ℕ → Walk String → β →
    Option (Except (HistoryFailure ε) (Bool × List String))
  | 0, _, _ => none
  | fuel + 1, s, operation =>
    match raising (budget.check operation), s.pending with
    | .error e, _ => some (.error e)
    | .ok _, [] => some (.ok (false, s.seen))
    | .ok operation, id :: rest =>
      if id ∈ s.seen then loop ancestor fuel ⟨rest, s.seen⟩ operation
      else match commit budget store id operation with
        | .error e => some (.error e)
        | .ok (parsed, operation) =>
          if id = ancestor then some (.ok (true, s.seen))
          else loop ancestor fuel ⟨parsed.parents.reverse ++ rest, id :: s.seen⟩ operation

/-- Passes that suffice for every object with its parents. -/
def fuel : ℕ := 17 * store.objects.length + 2

/-- `proven-ancestor?` -/
def provenAncestor (ancestor descendant : String) (operation : β) :
    Option (Except (HistoryFailure ε) (Bool × List String)) :=
  match raising (budget.requireLimits operation [.commitVisits, .graphEdges, .objectBytes]) with
  | .error e => some (.error e)
  | .ok _ =>
    if isOid ancestor && isOid descendant then
      loop budget store ancestor (fuel store) ⟨[descendant], []⟩ operation
    else some (.error (.held .invalidHistory))

/-- The object of a commit is there, has its hash and passes the checks. -/
structure Verified (oid : String) (payload : P) (parsed : Commit) : Prop where
  object : get? store.objects oid = some ⟨.commit, some payload⟩
  hash : store.objectId payload = oid
  parse : store.parseCommit payload = .ok parsed
  valid : parsed.isValid = true

/-- A parent edge of a hash-verified object. -/
def Parent (oid parent : String) : Prop :=
  ∃ payload parsed, get? store.objects oid = some ⟨.commit, some payload⟩ ∧
    store.objectId payload = oid ∧ store.parseCommit payload = .ok parsed ∧ parent ∈ parsed.parents

variable {budget store}

theorem raising_ok {α : Type} {x : Except ε α} {a : α} (h : raising x = .ok a) : x = .ok a := by
  cases x with
  | error e => cases h
  | ok b =>
    cases h
    rfl

variable {oid : String} {operation : β} {parsed : Commit}

theorem commit_ok {operation' : β}
    (h : commit budget store oid operation = .ok (parsed, operation')) :
    ∃ payload, Verified store oid payload parsed := by
  unfold commit at h
  split at h
  · cases h
  obtain ⟨_, -, h⟩ := bind_eq_ok.mp h
  obtain ⟨_, -, h⟩ := bind_eq_ok.mp h
  split at h
  · next payload hobject =>
    split at h
    · next hhash =>
      obtain ⟨parsed', hparse, h⟩ := bind_eq_ok.mp h
      split at h
      · next hvalid =>
        obtain ⟨_, -, h⟩ := bind_eq_ok.mp h
        cases h
        exact ⟨payload, hobject, hhash, raising_ok hparse, hvalid⟩
      · cases h
    · cases h
  · cases h

theorem Verified.parent_iff {payload : P}
    (h : Verified store oid payload parsed) (parent : String) :
    parent ∈ parsed.parents ↔ Parent store oid parent := by
  constructor
  · intro hparent
    exact ⟨payload, parsed, h.object, h.hash, h.parse, hparent⟩
  · rintro ⟨payload', parsed', hobject, -, hparse, hparent⟩
    cases h.object.symm.trans hobject
    cases h.parse.symm.trans hparse
    exact hparent

theorem Verified.limit {payload : P}
    (h : Verified store oid payload parsed) : parsed.parents.length ≤ 16 := by
  have := h.valid
  simp only [Commit.isValid, Bool.and_eq_true, decide_eq_true_eq] at this
  exact this.1.2

/-- What an answer of the loop proves about the history of the descendant. -/
def Proves (store : Store β ε P) (ancestor descendant : String) :
    Except (HistoryFailure ε) (Bool × List String) → Prop
  | .ok (true, _) => ReflTransGen (Parent store) descendant ancestor
  | .ok (false, seen) => ∀ oid, ReflTransGen (Parent store) descendant oid →
      oid ∈ seen ∧ oid ≠ ancestor ∧ ∃ payload parsed, Verified store oid payload parsed
  | .error _ => True

variable {ancestor : String}

theorem loop_proves {descendant : String} {fuel : ℕ} {s : Walk String}
    {answer : Except (HistoryFailure ε) (Bool × List String)}
    (hinv : s.Inv (Parent store) descendant)
    (hseen : ∀ oid ∈ s.seen, oid ≠ ancestor ∧ ∃ payload parsed, Verified store oid payload parsed)
    (h : loop budget store ancestor fuel s operation = some answer) :
    Proves store ancestor descendant answer := by
  induction fuel generalizing s operation with
  | zero => cases h
  | succ fuel ih =>
    unfold loop at h
    obtain ⟨pending, seen⟩ := s
    split at h
    · cases h
      trivial
    · next hempty =>
      cases h
      cases hempty
      exact fun oid hoid ↦ ⟨hinv.complete hoid, hseen oid (hinv.complete hoid)⟩
    · next operation' id rest _ hpending =>
      cases hpending
      have hreach := hinv.reachable id (by simp)
      split at h
      · next hmem => exact ih (hinv.step (.skip hmem)) hseen h
      split at h
      · cases h
        trivial
      · next parsed operation'' hcommit =>
        obtain ⟨payload, hverified⟩ := commit_ok hcommit
        split at h
        · next hfound =>
          cases h
          exact hfound ▸ hreach
        · next hne =>
          refine ih (hinv.step (.visit (by simpa using hverified.parent_iff))) ?_ h
          intro oid hoid
          rcases mem_cons.mp hoid with rfl | hoid
          · exact ⟨hne, payload, parsed, hverified⟩
          · exact hseen oid hoid

/-- Passes that are left at most. -/
def measure (store : Store β ε P) (s : Walk String) : ℕ :=
  s.pending.length + 17 * fresh (some ·.1) s.seen store.objects

theorem loop_returns {fuel : ℕ} {s : Walk String}
    (hfuel : measure store s < fuel) : loop budget store ancestor fuel s operation ≠ none := by
  induction fuel generalizing s operation with
  | zero => exact absurd hfuel (Nat.not_lt_zero _)
  | succ fuel ih =>
    unfold loop
    obtain ⟨pending, seen⟩ := s
    split
    · rintro ⟨⟩
    · rintro ⟨⟩
    · next operation' id rest _ hpending =>
      cases hpending
      split
      · next hmem =>
        refine ih ?_
        simp only [measure, length_cons] at hfuel ⊢
        omega
      next hmem =>
      split
      · rintro ⟨⟩
      · next parsed operation'' hcommit =>
        obtain ⟨payload, hverified⟩ := commit_ok hcommit
        split
        · rintro ⟨⟩
        · refine ih ?_
          have hlimit := hverified.limit
          have hfresh : fresh (some ·.1) (id :: seen) store.objects <
              fresh (some ·.1) seen store.objects :=
            fresh_lt (fun w hw ↦ mem_cons_of_mem id hw) (mem_of_get? hverified.object) rfl hmem
              (by simp)
          simp only [measure, length_cons, length_append, length_reverse] at hfuel ⊢
          omega

theorem provenAncestor_returns (ancestor descendant : String) (operation : β) :
    provenAncestor budget store ancestor descendant operation ≠ none := by
  unfold provenAncestor
  split
  · rintro ⟨⟩
  · split
    · refine loop_returns ?_
      have hle : fresh (some ·.1) [] store.objects ≤ store.objects.length := countP_le_length
      simp only [measure, fuel, length_cons, length_nil]
      omega
    · rintro ⟨⟩

theorem provenAncestor_proves {descendant : String}
    {answer : Except (HistoryFailure ε) (Bool × List String)}
    (h : provenAncestor budget store ancestor descendant operation = some answer) :
    Proves store ancestor descendant answer := by
  unfold provenAncestor at h
  split at h
  · cases h
    trivial
  · split at h
    · exact loop_proves (Walk.inv_init _) (by simp) h
    · cases h
      trivial

end GitHistory

/-- The database and the catalog have one graph of commits, named by their hashes. -/
structure SameGraph {U β ε P : Type} [DecidableEq U] (db : GithubAncestry.Db U)
    (store : GitHistory.Store β ε P) (oid : U → String) : Prop where
  injective : Function.Injective oid
  forward : ∀ id parent, GithubAncestry.Parent db id parent →
    GitHistory.Parent store (oid id) (oid parent)
  backward : ∀ id name, GitHistory.Parent store (oid id) name →
    ∃ parent, GithubAncestry.Parent db id parent ∧ oid parent = name

variable {U β β' ε ε' P : Type} [DecidableEq U] {db : GithubAncestry.Db U}
  {store : GitHistory.Store β' ε' P} {oid : U → String}

theorem SameGraph.reachable_iff (h : SameGraph db store oid) (descendant ancestor : U) :
    ReflTransGen (GithubAncestry.Parent db) descendant ancestor ↔
      ReflTransGen (GitHistory.Parent store) (oid descendant) (oid ancestor) := by
  constructor
  · exact ReflTransGen.lift oid h.forward _ _
  · intro hpath
    have hlift : ∀ name, ReflTransGen (GitHistory.Parent store) (oid descendant) name →
        ∃ id, ReflTransGen (GithubAncestry.Parent db) descendant id ∧ oid id = name := by
      intro name hname
      induction hname with
      | refl => exact ⟨descendant, .refl, rfl⟩
      | tail _ hstep ih =>
        obtain ⟨id, hid, rfl⟩ := ih
        obtain ⟨parent, hparent, hname⟩ := h.backward id _ hstep
        exact ⟨parent, hid.tail hparent, hname⟩
    obtain ⟨id, hid, hname⟩ := hlift _ hpath
    rwa [← h.injective hname]

/-- `true` is a path and `false` a complete history, for any budget, and exactly the metadata of a
cycle is refused as one. -/
theorem ancestry_proven (budget : Budget β ε) (budget' : Budget β' ε') (db : GithubAncestry.Db U)
    (store : GitHistory.Store β' ε' P) (ancestor descendant : U) (operation : β)
    (operation' : β') :
    let github := provenAncestor budget db (some ancestor) (some descendant) operation
    let git := GitHistory.provenAncestor budget' store
    (∃ answer, github = some answer ∧ GithubAncestry.Proves db ancestor descendant answer) ∧
    (∀ first second, ∃ answer, git first second operation' = some answer ∧
      GitHistory.Proves store first second answer) ∧
    ((∀ id, ReflTransGen (GithubAncestry.Parent db) descendant id →
        ¬ TransGen (GithubAncestry.Parent db) id id) →
      github ≠ some (.error (.held .cyclicHistory))) ∧
    ((∃ id, ReflTransGen (GithubAncestry.Parent db) descendant id ∧
        TransGen (GithubAncestry.Parent db) id id) →
      ∀ finished, github ≠ some (.ok (false, finished))) ∧
    (∀ oid, SameGraph db store oid → ∀ first second finished seen,
      github = some (.ok (first, finished)) →
      git (oid ancestor) (oid descendant) operation' = some (.ok (second, seen)) →
        first = second) := by
  intro github git
  have hreturns : github ≠ none :=
    provenAncestor_returns (some ancestor) (some descendant) operation
  obtain ⟨answer, hanswer⟩ := ne_none_iff_exists'.mp hreturns
  have hproves := provenAncestor_proves hanswer
  have hgit (first second : String) : ∃ answer, git first second operation' = some answer ∧
      GitHistory.Proves store first second answer := by
    have hreturns : git first second operation' ≠ none :=
      GitHistory.provenAncestor_returns first second operation'
    obtain ⟨answer, hanswer⟩ := ne_none_iff_exists'.mp hreturns
    exact ⟨answer, hanswer, GitHistory.provenAncestor_proves hanswer⟩
  refine ⟨⟨answer, hanswer, hproves⟩, hgit, ?_, ?_, ?_⟩
  · intro hacyclic hcyclic
    obtain rfl := some.inj (hanswer.symm.trans hcyclic)
    obtain ⟨id, hid, hcycle⟩ := hproves rfl
    exact hacyclic id hid hcycle
  · rintro ⟨id, hid, hcycle⟩ finished hfalse
    obtain rfl := some.inj (hanswer.symm.trans hfalse)
    exact (hproves id hid).2.2.2 hcycle
  · intro oid hsame first second finished seen hfirst hsecond
    obtain rfl := some.inj (hanswer.symm.trans hfirst)
    obtain ⟨answer', hanswer', hproves'⟩ := hgit (oid ancestor) (oid descendant)
    obtain rfl := some.inj (hanswer'.symm.trans hsecond)
    have hiff := hsame.reachable_iff descendant ancestor
    cases first <;> cases second
    · rfl
    · exact absurd rfl (hproves _ (hiff.mpr hproves')).2.1
    · exact absurd rfl (hproves' _ (hiff.mp hproves)).2.1
    · rfl

end Simmis.Git
