import Simmis.KnowledgeInputs.Basis
import Simmis.KnowledgeInputs.Policy

/-!
# Published snapshots of a knowledge repository

A snapshot is a database value at a published commit. Its inventory lists the Markdown files that
the policy gives a role. It is shown to descend from another one by a walk through the parents of
commits.
-/

namespace Simmis.KnowledgeChanges

open List Option Documents Maps KnowledgeInputs

/-- The reasons of `refuse!`. -/
inductive Reason
  | unsupportedSnapshot
  | snapshotTooLarge
  | publishedSnapshotUnavailable
  | unpublishedSnapshot
  | invalidBasis
  | unsupportedFile
  | inventoryTooLarge
  | ancestryLimit
  | ancestryUnavailable
  | invalidAncestry
  | notDescendant
  | sourceChanged
  | cursorReversed
  | tooManyChangedFiles
deriving DecidableEq

/-- A refusal, or one of the policy and of the paths. -/
inductive Error
  | refused (reason : Reason)
  | inputs (e : KnowledgeInputs.Error)
deriving DecidableEq

def maxSnapshotDatoms : ℕ := 100000
def maxInventoryEntries : ℕ := 20000
def maxChangedFiles : ℕ := 20000
def maxAncestorCommits : ℕ := 4096

/-- The store of a database, the rest of its description as it is printed. -/
structure Store where
  id : Option Uuid
  backend : Option Keyword
  rest : String
deriving DecidableEq

/-- The keys of the configuration that are compared. -/
structure Config where
  store : Store
  branch : Option Keyword
  index : Option Keyword
  attributeRefs : Option Bool
  cryptoHash : Option Bool
deriving DecidableEq

/-- A database with what is read of it besides its datoms. -/
structure Snapshot where
  isDb : Bool
  db : Db
  commit : Option Uuid
  maxTx : Option ℤ
  maxEid : ℤ
  hash : ℤ
  config : Config

/-- `(count db)` -/
def Snapshot.count (s : Snapshot) : ℕ := s.db.datoms.length

/-- What `diff/diff` returns. -/
structure Difference where
  removed : List Datom
  added : List Datom

/-- What the database and the host supply besides. -/
structure Host (R : Type) extends View.Host R where
  commitAsDb : Snapshot → Uuid → Option Snapshot
  parentCommitIds : Snapshot → List (Option Uuid)
  currentRef : Snapshot → Option String
  hashConfig : Config → Uuid
  diff : Db → Db → Difference

variable {R : Type} (host : Host R)

def refuse {α : Type} (reason : Reason) : Except Error α := .error (.refused reason)

def persistentSet : Keyword := kw "datahike.index" "persistent-set"

def checkSupported (s : Snapshot) : Except Error Unit :=
  require (s.isDb ∧ s.config.index = some persistentSet) (.refused .unsupportedSnapshot)

/-- `snapshot!` -/
def checkSnapshot (s : Snapshot) : Except Error Unit := do
  checkSupported s
  require (s.count ≤ maxSnapshotDatoms) (.refused .snapshotTooLarge)
  let published ← demand (s.commit.bind (host.commitAsDb s))
    (.refused .publishedSnapshotUnavailable)
  require (published.count ≤ maxSnapshotDatoms) (.refused .snapshotTooLarge)
  require (s.maxTx = published.maxTx ∧ s.maxEid = published.maxEid ∧ s.hash = published.hash ∧
      s.db.schema = published.db.schema ∧ s.config = published.config ∧
      (host.diff published.db s.db).removed = [] ∧ (host.diff published.db s.db).added = [])
    (.refused .unpublishedSnapshot)

/-- `source-identity` -/
structure Identity where
  repository : Uuid
  store : Uuid
  backend : Keyword
  branch : Keyword
  ref : String
  configuration : Uuid
deriving DecidableEq

def sourceIdentity (s : Snapshot) : Except Error Identity := do
  checkSupported s
  match (host.repository s.db).id, s.config.store.id, s.config.store.backend, s.config.branch,
      host.currentRef s with
  | some repository, some store, some backend, some branch, some ref =>
    if Text.isBlank ref then refuse .invalidBasis
    else return ⟨repository, store, backend, branch, ref, host.hashConfig s.config⟩
  | _, _, _, _, _ => refuse .invalidBasis

structure Basis where
  identity : Identity
  commit : Uuid
  maxTx : ℤ
  datoms : ℕ
deriving DecidableEq

def basis (s : Snapshot) : Except Error Basis := do
  checkSnapshot host s
  match s.commit, s.maxTx with
  | some commit, some maxTx => return ⟨← sourceIdentity host s, commit, maxTx, s.count⟩
  | _, _ => refuse .invalidBasis

def role (policy : Policy) (path : String) : Option Role :=
  if View.isMarkdown path then
    if rolePath policy .trigger path then some .trigger
    else if rolePath policy .context path then some .context
    else none
  else none

/-- The metadata of a file with its role. -/
structure FileValue where
  role : Role
  file : View.FileEntry
deriving DecidableEq

abbrev FileMap := List (String × FileValue)

def workContent : Keyword := kw "geschichte.work" "content"
def workSize : Keyword := kw "geschichte.work" "size"
def workMode : Keyword := kw "geschichte.work" "mode"

/-- `:geschichte.content/size` of the entity with the content id. -/
def contentSize (db : Db) (id : Uuid) : Option ℤ :=
  (db.avet View.contentId (.uuid id)).head?.bind fun d ↦
    View.long? (db.pulled d.e (kw "geschichte.content" "size"))

def string? : Pulled Value → Option String
  | .one (.string s) => some s
  | _ => none

/-- The checks of an entry, its path and its metadata. -/
def checkEntry (db : Db) (path : String) (file : View.FileEntry) : Except Error Unit := do
  (checkPath host.toHost path).mapError .inputs
  require ((file.size.any fun n ↦ 0 ≤ n) ∧ file.mode = some host.defaultMode ∧
      file.content.any fun id ↦ file.size = contentSize db id)
    (.refused .unsupportedFile)

def entry (db : Db) (policy : Policy) (e : ℤ) : Except Error (Option (String × FileValue)) :=
  match string? (db.pulled e View.workPath) with
  | none => .ok none
  | some path =>
    match role policy path with
    | none => .ok none
    | some kind => do
      checkEntry host db path (View.fileEntry db e)
      return some (path, ⟨kind, View.fileEntry db e⟩)

def normalize (policy : Policy) : Except Error Policy :=
  (normalizePolicy host.toHost policy).mapError .inputs

structure Inventory where
  basis : Basis
  policy : Policy
  files : FileMap

def inventory (s : Snapshot) (policy : Policy) : Except Error Inventory := do
  let policy ← normalize host policy
  let snapshot ← basis host s
  let rows := (byPath s.db View.workPath).take (maxInventoryEntries + 1)
  require (rows.length ≤ maxInventoryEntries) (.refused .inventoryTooLarge)
  let entries ← rows.mapM fun d ↦ entry host s.db policy d.e
  return ⟨snapshot, policy, sorted Text.le (entries.filterMap id)⟩

/-- The parents of a commit that is met, with what is pending still, as a set. -/
def remaining (s : Snapshot) (pending : List Uuid) : Except Error (List Uuid) := do
  let parents := (host.parentCommitIds s).take (maxAncestorCommits + 1)
  let all := (pending.map some ++ parents).dedup
  require (parents.length ≤ maxAncestorCommits ∧ all.length ≤ maxAncestorCommits)
    (.refused .ancestryLimit)
  require (parents.all Option.isSome) (.refused .invalidAncestry)
  return all.filterMap id

/-- The loop of `ancestor!`, with fuel. The last of the pending commits is the first one here. -/
def ancestorFrom (after : Snapshot) (wanted : Option Uuid) :
    ℕ → List Uuid → List Uuid → Option (Except Error Unit)
  | 0, _, _ => none
  | _ + 1, [], _ => some (refuse .notDescendant)
  | fuel + 1, id :: pending, seen =>
    if some id = wanted then some (.ok ())
    else if id ∈ seen then ancestorFrom after wanted fuel pending seen
    else if maxAncestorCommits ≤ seen.length then some (refuse .ancestryLimit)
    else
      match if some id = after.commit then some after else host.commitAsDb after id with
      | none => some (refuse .ancestryUnavailable)
      | some s =>
        match remaining host s pending with
        | .error e => some (.error e)
        | .ok all =>
          if wanted.any (· ∈ all) then some (.ok ())
          else
            ancestorFrom after wanted fuel
              ((all.filter (· ∉ seen)).insertionSort fun a b ↦ b ≤ a) (id :: seen)

/-- Passes that suffice for every walk within the limit. -/
def ancestorFuel : ℕ := (maxAncestorCommits + 1) * (maxAncestorCommits + 1) + 2

/-- `ancestor!` -/
def ancestor (before after : Snapshot) (snapshot : Basis) : Option (Except Error Unit) :=
  ancestorFrom host after before.commit ancestorFuel [snapshot.commit] []

/-- A parent edge in the published commits. -/
def Parent (after : Snapshot) (id parent : Uuid) : Prop :=
  ∃ s, (if some id = after.commit then some after else host.commitAsDb after id) = some s ∧
    some parent ∈ host.parentCommitIds s

variable {host}

theorem mem_remaining {s : Snapshot} {pending all : List Uuid}
    (h : remaining host s pending = .ok all) {id : Uuid} (hid : id ∈ all) :
    id ∈ pending ∨ some id ∈ host.parentCommitIds s := by
  obtain ⟨-, h⟩ := require_bind_eq_ok.mp h
  obtain ⟨-, h⟩ := require_bind_eq_ok.mp h
  cases h
  obtain ⟨o, ho, rfl⟩ := mem_filterMap.mp hid
  rw [mem_dedup, mem_append] at ho
  rcases ho with ho | ho
  · exact .inl (by simpa using ho)
  · exact .inr (mem_of_mem_take ho)

theorem length_remaining {s : Snapshot} {pending all : List Uuid}
    (h : remaining host s pending = .ok all) : all.length ≤ maxAncestorCommits := by
  obtain ⟨hbounds, h⟩ := require_bind_eq_ok.mp h
  obtain ⟨-, h⟩ := require_bind_eq_ok.mp h
  cases h
  exact (length_filterMap_le id _).trans hbounds.2

/-- What is wanted is met by parent edges from what is pending. -/
theorem ancestorFrom_ok {after : Snapshot} {wanted : Option Uuid} {fuel : ℕ}
    {pending seen : List Uuid}
    (h : ancestorFrom host after wanted fuel pending seen = some (.ok ())) :
    ∃ id ∈ pending, ∃ w, wanted = some w ∧ Relation.ReflTransGen (Parent host after) id w := by
  induction fuel generalizing pending seen with
  | zero => cases h
  | succ fuel ih =>
    cases pending with
    | nil => cases h
    | cons id pending =>
      unfold ancestorFrom at h
      split at h
      · next hid => exact ⟨id, mem_cons_self, id, hid.symm, .refl⟩
      · split at h
        · obtain ⟨later, hlater, hpath⟩ := ih h
          exact ⟨later, mem_cons_of_mem _ hlater, hpath⟩
        · split at h
          · cases h
          · split at h
            · cases h
            · next s hs =>
              split at h
              · cases h
              · next all hall =>
                have hfrom : ∀ v ∈ all, ∃ u ∈ id :: pending,
                    Relation.ReflTransGen (Parent host after) u v := by
                  intro v hv
                  rcases mem_remaining hall hv with hmem | hmem
                  · exact ⟨v, mem_cons_of_mem _ hmem, .refl⟩
                  · exact ⟨id, mem_cons_self, .single ⟨s, hs, hmem⟩⟩
                split at h
                · next hany =>
                  cases wanted with
                  | none => cases hany
                  | some w =>
                    obtain ⟨u, hu, hpath⟩ := hfrom w (by simpa using hany)
                    exact ⟨u, hu, w, rfl, hpath⟩
                · obtain ⟨v, hv, w, hw, hpath⟩ := ih h
                  have hmem : v ∈ all := mem_of_mem_filter ((mem_insertionSort _).mp hv)
                  obtain ⟨u, hu, hfront⟩ := hfrom v hmem
                  exact ⟨u, hu, w, hw, hfront.trans hpath⟩

/-- The walk comes to an end within its fuel. -/
theorem ancestorFrom_ends {after : Snapshot} {wanted : Option Uuid} {fuel : ℕ}
    {pending seen : List Uuid} (hseen : seen.length ≤ maxAncestorCommits)
    (hfuel : (maxAncestorCommits - seen.length) * (maxAncestorCommits + 1) + pending.length <
      fuel) : ancestorFrom host after wanted fuel pending seen ≠ none := by
  induction fuel generalizing pending seen with
  | zero => exact absurd hfuel (Nat.not_lt_zero _)
  | succ fuel ih =>
    cases pending with
    | nil => exact some_ne_none _
    | cons id pending =>
      rw [length_cons] at hfuel
      unfold ancestorFrom
      split
      · exact some_ne_none _
      · split
        · exact ih hseen (by omega)
        · split
          · exact some_ne_none _
          · next hroom =>
            split
            · exact some_ne_none _
            · split
              · exact some_ne_none _
              · next all hall =>
                split
                · exact some_ne_none _
                · have hall := length_remaining hall
                  have hpending : ((all.filter (· ∉ seen)).insertionSort fun a b ↦
                      b ≤ a).length ≤ maxAncestorCommits := by
                    rw [length_insertionSort]
                    exact (length_filter_le _ _).trans hall
                  refine ih (by rw [length_cons]; omega) ?_
                  rw [length_cons]
                  have hmeasure : (maxAncestorCommits - seen.length) * (maxAncestorCommits + 1) =
                      (maxAncestorCommits - (seen.length + 1)) * (maxAncestorCommits + 1) +
                        (maxAncestorCommits + 1) := by
                    rw [← Nat.succ_mul]
                    congr 1
                    omega
                  omega

theorem ancestor_ends (before after : Snapshot) (snapshot : Basis) :
    ancestor host before after snapshot ≠ none := by
  refine ancestorFrom_ends (Nat.zero_le _) ?_
  rw [length_nil, length_singleton, Nat.sub_zero, ancestorFuel]
  decide

end Simmis.KnowledgeChanges
