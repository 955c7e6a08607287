import Simmis.KnowledgeChanges.Snapshots
import Simmis.KnowledgeInputs.OwnOutput

/-!
# Changes between two snapshots

The entities of the datoms that differ are read in both snapshots, and their files are compared by
path. This lists exactly the paths at which the two selected inventories differ.
-/

namespace Simmis.KnowledgeChanges

open List Option Documents Maps KnowledgeInputs View Datom Db Function

inductive ChangeKind
  | added
  | removed
  | modified
deriving DecidableEq

structure Change where
  path : String
  kind : ChangeKind
  before : Option FileValue
  after : Option FileValue
deriving DecidableEq

structure Changes where
  before : Basis
  after : Basis
  policy : Policy
  changes : List Change
deriving DecidableEq

variable {R : Type} (host : Host R)

def workAttributes : List Keyword := [View.workPath, workContent, workSize, workMode]

def affected (datoms : List Datom) : List ℤ :=
  (datoms.filter fun d ↦ d.a ∈ workAttributes).map Datom.e

/-- The entities of the datoms that differ, in order. -/
def ids (delta : Difference) : List ℤ :=
  (affected delta.removed ++ affected delta.added).dedup.insertionSort fun a b ↦ a ≤ b

/-- The entries of an entity in both snapshots. -/
def pair (before after : Db) (policy : Policy) (e : ℤ) :
    Except Error (Option (String × FileValue) × Option (String × FileValue)) := do
  return (← entry host before policy e, ← entry host after policy e)

def changeAt (old new : FileMap) (path : String) : Option Change :=
  let a := get? old path
  let b := get? new path
  if a = b then none
  else some ⟨path, if a = none then .added else if b = none then .removed else .modified, a, b⟩

def changesOf (old new : FileMap) : List Change :=
  (canonical (old.map (·.1) ++ new.map (·.1))).filterMap (changeAt old new)

/-- The comparison in `between`. -/
def compare (before after : Db) (policy : Policy) : Except Error (List Change) := do
  let pairs ← (ids (host.diff before after)).mapM (pair host before after policy)
  let old := sorted Text.le (pairs.filterMap (·.1))
  let new := sorted Text.le (pairs.filterMap (·.2))
  require ((changesOf old new).length ≤ maxChangedFiles) (.refused .tooManyChangedFiles)
  return changesOf old new

/-- Two snapshots of one source. -/
def SameSource (before after : Snapshot) (old new : Basis) : Prop :=
  old.identity.repository = new.identity.repository ∧ old.identity.store = new.identity.store ∧
    old.identity.backend = new.identity.backend ∧ old.identity.branch = new.identity.branch ∧
    old.identity.ref = new.identity.ref ∧ before.config.store = after.config.store ∧
    before.config.index = after.config.index ∧
    before.config.attributeRefs = after.config.attributeRefs ∧
    before.config.cryptoHash = after.config.cryptoHash

instance (before after : Snapshot) (old new : Basis) :
    Decidable (SameSource before after old new) := by
  unfold SameSource
  infer_instance

/-- What `between` checks of the two snapshots before the walk. -/
def prepare (before after : Snapshot) (policy : Policy) :
    Except Error (Policy × Basis × Basis) := do
  let policy ← normalize host policy
  let old ← basis host before
  let new ← basis host after
  require (SameSource before after old new) (.refused .sourceChanged)
  require (old.maxTx ≤ new.maxTx) (.refused .cursorReversed)
  return (policy, old, new)

/-- `between`; nothing would be a walk that does not end. -/
def between (before after : Snapshot) (policy : Policy) : Option (Except Error Changes) :=
  match prepare host before after policy with
  | .error e => some (.error e)
  | .ok (policy, old, new) =>
    (ancestor host before after new).map fun shown ↦ do
      shown
      let changes ← compare host before.db after.db policy
      return ⟨old, new, policy, changes⟩

/-- The file at a path, if it is selected. -/
def selected (db : Db) (policy : Policy) (path : String) : Option FileValue :=
  (role policy path).bind fun kind ↦ (fileAt db path).map fun file ↦ ⟨kind, file⟩

/-- The inventory after some changes. -/
def applied (changes : List Change) (files : String → Option FileValue) :
    String → Option FileValue :=
  changes.foldl (fun files c ↦ Function.update files c.path c.after) files

/-- The schema of the file store: its attributes have one value, and the path is unique. -/
structure IsWorktree (db : Db) : Prop where
  schema : ∀ a ∈ workAttributes, ∃ schema, db.attr? a = some schema ∧ schema.cardinality = .one
  one : ∀ d ∈ db.datoms, ∀ d' ∈ db.datoms, d.a ∈ workAttributes → d.e = d'.e → d.a = d'.a →
    d.v = d'.v
  path : ∀ d ∈ db.datoms, ∀ d' ∈ db.datoms, d.a = View.workPath → d'.a = View.workPath →
    d.v = d'.v → d.e = d'.e

/-- A file that refers to the same content in both databases keeps its id. -/
def SameContent (before after : Db) : Prop :=
  ∀ e c, ⟨e, workContent, .ref c⟩ ∈ before.datoms → ⟨e, workContent, .ref c⟩ ∈ after.datoms →
    before.pulled c View.contentId = after.pulled c View.contentId

/-- A difference holds exactly the datoms of one database only. -/
structure Host.Differs (host : Host R) : Prop where
  removed : ∀ before after, ∀ d ∈ before.datoms, d ∉ after.datoms →
    d ∈ (host.diff before after).removed
  added : ∀ before after, ∀ d ∈ after.datoms, d ∉ before.datoms → d ∈ (host.diff before after).added

variable {e : ℤ}

section

variable {db : Db} (hdb : IsWorktree db) {a : Keyword} (ha : a ∈ workAttributes)

include hdb ha

theorem pulled_eq_one {v : Value} : db.pulled e a = .one v ↔ ⟨e, a, v⟩ ∈ db.datoms := by
  obtain ⟨schema, hschema, hone⟩ := hdb.schema a ha
  have hvalues : ∀ v, v ∈ ((db.eavt e).filter fun d ↦ d.a = a).map Datom.v ↔
      ⟨e, a, v⟩ ∈ db.datoms := by
    intro v
    simp only [eavt, List.mem_map, List.mem_filter, decide_eq_true_eq]
    constructor
    · rintro ⟨⟨e', a', v'⟩, ⟨⟨hd, rfl⟩, rfl⟩, rfl⟩
      exact hd
    · exact fun hd ↦ ⟨_, ⟨⟨hd, rfl⟩, rfl⟩, rfl⟩
  unfold pulled
  rw [hschema]
  cases hlist : ((db.eavt e).filter fun d ↦ d.a = a).map Datom.v with
  | nil =>
    have hnone := hvalues v
    rw [hlist] at hnone
    simpa using hnone
  | cons w ws =>
    have hw : ⟨e, a, w⟩ ∈ db.datoms := (hvalues w).mp (by rw [hlist]; exact mem_cons_self)
    simp only [hone, Pulled.one.injEq]
    constructor
    · rintro rfl
      exact hw
    · exact fun hv ↦ hdb.one _ hw _ hv ha rfl rfl

theorem pulled_cases (e : ℤ) : db.pulled e a = .none ∨ ∃ v, db.pulled e a = .one v := by
  obtain ⟨schema, hschema, hone⟩ := hdb.schema a ha
  unfold pulled
  rw [hschema]
  cases ((db.eavt e).filter fun d ↦ d.a = a).map v with
  | nil => exact .inl rfl
  | cons w ws => exact .inr ⟨w, by simp only [hone]⟩

end

/-- The file of an entity is the same in both databases. -/
def Unaffected (before after : Db) (e : ℤ) : Prop :=
  ∀ a ∈ workAttributes, ∀ v, ⟨e, a, v⟩ ∈ before.datoms ↔ ⟨e, a, v⟩ ∈ after.datoms

section

variable {before after : Db} (hbefore : IsWorktree before) (hafter : IsWorktree after)

include hbefore hafter

theorem pulled_unaffected (h : Unaffected before after e) {a : Keyword}
    (ha : a ∈ workAttributes) : before.pulled e a = after.pulled e a := by
  rcases pulled_cases hbefore ha e with hnone | ⟨v, hv⟩
  · rcases pulled_cases hafter ha e with hnone' | ⟨v, hv⟩
    · rw [hnone, hnone']
    · have hmem := (h a ha v).mpr ((pulled_eq_one hafter ha).mp hv)
      rw [(pulled_eq_one hbefore ha).mpr hmem, hv]
  · have hmem := (h a ha v).mp ((pulled_eq_one hbefore ha).mp hv)
    rw [hv, (pulled_eq_one hafter ha).mpr hmem]

theorem fileEntry_unaffected (hcontent : SameContent before after)
    (h : Unaffected before after e) : fileEntry before e = fileEntry after e := by
  have hpulled := fun a ha ↦ pulled_unaffected hbefore hafter h (a := a) ha
  have hsize := hpulled workSize (by decide)
  have hmode := hpulled workMode (by decide)
  have href := hpulled workContent (by decide)
  have hids : ((before.pulled e workContent).nested some).one?.map
      (fun c ↦ before.pulled c contentId) =
      ((after.pulled e workContent).nested some).one?.map
        fun c ↦ after.pulled c contentId := by
    rw [← href]
    rcases pulled_cases hbefore (show workContent ∈ workAttributes by decide) e with hnone | ⟨v, hv⟩
    · rw [hnone]
      rfl
    · rw [hv]
      cases v with
      | ref c =>
        have hmem := (pulled_eq_one hbefore (by decide)).mp hv
        have hmem' := (h workContent (by decide) _).mp hmem
        exact congrArg some (hcontent e c hmem hmem')
      | _ => rfl
  simp only [workSize, workMode, workContent] at hsize hmode hids
  simp only [fileEntry, hsize, hmode, hids]

end

/-- An entity that no datom of the difference names is unaffected. -/
theorem unaffected_of_not_mem {before after : Db} (hdiffers : host.Differs)
    (he : e ∉ ids (host.diff before after)) : Unaffected before after e := by
  simp only [ids, List.mem_insertionSort, List.mem_dedup, List.mem_append, affected, List.mem_map,
    List.mem_filter, decide_eq_true_eq, not_or, not_exists, not_and] at he
  intro a ha v
  constructor
  · intro hmem
    by_contra hnone
    exact he.1 _ ⟨hdiffers.removed _ _ _ hmem hnone, ha⟩ rfl
  · intro hmem
    by_contra hnone
    exact he.2 _ ⟨hdiffers.added _ _ _ hmem hnone, ha⟩ rfl

/-- The entry of an entity without its checks. -/
def listed (db : Db) (policy : Policy) (e : ℤ) : Option (String × FileValue) :=
  (string? (db.pulled e View.workPath)).bind fun path ↦
    (role policy path).map fun kind ↦ (path, ⟨kind, View.fileEntry db e⟩)

variable {host}

theorem entry_eq_ok {db : Db} {policy : Policy} {o : Option (String × FileValue)}
    (h : entry host db policy e = .ok o) : o = listed db policy e := by
  unfold entry at h
  unfold listed
  cases hpath : string? (db.pulled e workPath) with
  | none =>
    rw [hpath] at h
    cases h
    rfl
  | some path =>
    rw [hpath] at h
    simp only at h
    cases hrole : role policy path with
    | none =>
      rw [hrole] at h
      cases h
      rw [bind_some, hrole]
      rfl
    | some kind =>
      rw [hrole] at h
      obtain ⟨-, -, h⟩ := bind_eq_ok.mp h
      cases h
      rw [bind_some, hrole]
      rfl

variable {path : String}

section

variable {db : Db} {policy : Policy} (hdb : IsWorktree db)

include hdb

theorem string_pulled :
    string? (db.pulled e workPath) = some path ↔ ⟨e, workPath, .string path⟩ ∈ db.datoms := by
  rw [← pulled_eq_one hdb (show workPath ∈ workAttributes by decide)]
  rcases pulled_cases hdb (show workPath ∈ workAttributes by decide) e with h | ⟨v, h⟩
  · simp [h, string?]
  · cases v <;> simp [h, string?]

theorem fileAt_eq (h : ⟨e, workPath, .string path⟩ ∈ db.datoms) :
    fileAt db path = some (fileEntry db e) := by
  have hmem : ⟨e, workPath, .string path⟩ ∈ db.avet workPath (.string path) := by
    simpa [avet, aevt] using h
  unfold fileAt
  cases hlist : db.avet workPath (.string path) with
  | nil => cases hlist ▸ hmem
  | cons d ds =>
    have hd : d ∈ db.avet workPath (.string path) := by
      rw [hlist]
      exact mem_cons_self
    simp only [avet, aevt, mem_filter, decide_eq_true_eq] at hd
    have hentity : d.e = e := hdb.path d hd.1.1 _ h hd.1.2 rfl hd.2
    rw [head?_cons, map_some, hentity]

theorem listed_eq_some {value : FileValue} : listed db policy e = some (path, value) ↔
      ⟨e, workPath, .string path⟩ ∈ db.datoms ∧ selected db policy path = some value := by
  unfold listed
  constructor
  · intro h
    obtain ⟨path', hpath, h⟩ := bind_eq_some_iff.mp h
    obtain ⟨kind, hkind, heq⟩ := map_eq_some_iff.mp h
    cases heq
    have hmem := (string_pulled hdb).mp hpath
    exact ⟨hmem, by simp [selected, hkind, fileAt_eq hdb hmem]⟩
  · rintro ⟨hmem, hselected⟩
    unfold selected at hselected
    rw [fileAt_eq hdb hmem] at hselected
    obtain ⟨kind, hkind, heq⟩ := bind_eq_some_iff.mp hselected
    cases heq
    simp [(string_pulled hdb).mpr hmem, hkind]

end

theorem selected_of_no_entity {db : Db} {policy : Policy}
    (h : ∀ e, ⟨e, workPath, .string path⟩ ∉ db.datoms) : selected db policy path = none := by
  have hnone : fileAt db path = none := by
    unfold fileAt
    rw [map_eq_none_iff, head?_eq_none_iff, avet, filter_eq_nil_iff]
    rintro ⟨e, a, v⟩ hd
    simp only [aevt, mem_filter, decide_eq_true_eq] at hd ⊢
    rintro rfl
    obtain ⟨hmem, rfl⟩ := hd
    exact h e hmem
  unfold selected
  rw [hnone]
  cases role policy path <;> rfl

/-- All selected files of some entities are listed, and no others. -/
theorem get?_listed {db : Db} {policy : Policy} (hdb : IsWorktree db) (es : List ℤ)
    (path : String) : get? (sorted le (es.filterMap (listed db policy))) path =
      if ∃ e ∈ es, ⟨e, workPath, .string path⟩ ∈ db.datoms then selected db policy path
      else none := by
  have hread : ∀ value, get? (sorted le (es.filterMap (listed db policy))) path =
      some value → ∃ e ∈ es, listed db policy e = some (path, value) := by
    intro value hvalue
    exact mem_filterMap.mp (mem_sorted (mem_of_get? hvalue))
  split
  · next hentity =>
    obtain ⟨e, he, hmem⟩ := hentity
    cases hselected : selected db policy path with
    | none =>
      refine eq_none_iff_forall_ne_some.mpr fun value hvalue ↦ ?_
      obtain ⟨e', -, hlisted⟩ := hread value hvalue
      have hsome := ((listed_eq_some hdb).mp hlisted).2
      rw [hselected] at hsome
      cases hsome
    | some value =>
      have hlisted := (listed_eq_some hdb).mpr ⟨hmem, hselected⟩
      have hkey : (get? (sorted le (es.filterMap (listed db policy))) path).isSome := by
        rw [get?_sorted, get?_isSome, map_reverse, mem_reverse]
        exact mem_map_of_mem (mem_filterMap.mpr ⟨e, he, hlisted⟩)
      obtain ⟨value', hvalue'⟩ := isSome_iff_exists.mp hkey
      obtain ⟨e', -, hlisted'⟩ := hread value' hvalue'
      rw [hvalue', ← hselected, ((listed_eq_some hdb).mp hlisted').2]
  · next hnone =>
    refine eq_none_iff_forall_ne_some.mpr fun value hvalue ↦ ?_
    obtain ⟨e, he, hlisted⟩ := hread value hvalue
    exact hnone ⟨e, he, ((listed_eq_some hdb).mp hlisted).1⟩

section

variable {before after : Db} {policy : Policy} (hbefore : IsWorktree before)
  (hafter : IsWorktree after) (hcontent : SameContent before after)

include hbefore hafter

/-- A path that an unaffected entity holds before is held by it alone afterwards. -/
theorem held_apart {e' : ℤ} (hunaffected : Unaffected before after e')
    (h' : ⟨e', workPath, .string path⟩ ∈ before.datoms)
    (h : ⟨e, workPath, .string path⟩ ∈ before.datoms ∨
      ⟨e, workPath, .string path⟩ ∈ after.datoms) : e = e' := by
  rcases h with h | h
  · exact hbefore.path _ h _ h' rfl rfl rfl
  · exact hafter.path _ h _ ((hunaffected _ (by decide) _).mp h') rfl rfl rfl

include hcontent

theorem selected_unaffected (hunaffected : Unaffected before after e)
    (h : ⟨e, workPath, .string path⟩ ∈ before.datoms) :
    selected before policy path = selected after policy path := by
  have h' := (hunaffected _ (by decide) _).mp h
  unfold selected
  rw [fileAt_eq hbefore h, fileAt_eq hafter h',
    fileEntry_unaffected hbefore hafter hcontent hunaffected]

/-- The entities of a difference show every path at which the selected files differ. -/
theorem compared {es : List ℤ} (hes : ∀ e, e ∉ es → Unaffected before after e) (path : String) :
    let old := sorted le (es.filterMap (listed before policy))
    let new := sorted le (es.filterMap (listed after policy))
    (get? old path = selected before policy path ∧ get? new path = selected after policy path) ∨
      (get? old path = none ∧ get? new path = none ∧
        selected before policy path = selected after policy path) := by
  intro old new
  have hold : get? old path = _ := get?_listed hbefore es path
  have hnew : get? new path = _ := get?_listed hafter es path
  by_cases hheld : ∃ e ∈ es, ⟨e, workPath, .string path⟩ ∈ before.datoms ∨
      ⟨e, workPath, .string path⟩ ∈ after.datoms
  · obtain ⟨e, he, hmem⟩ := hheld
    -- An entity that is not looked at would hold the path in both snapshots.
    have hlooked : ∀ e', (⟨e', workPath, .string path⟩ ∈ before.datoms ∨
        ⟨e', workPath, .string path⟩ ∈ after.datoms) → e' ∈ es := by
      intro e' h'
      by_contra hnot
      have hunaffected := hes e' hnot
      have hpath := hunaffected workPath (by decide) (.string path)
      have hbefore' := h'.elim (fun h ↦ h) hpath.mpr
      exact hnot (held_apart hbefore hafter hunaffected hbefore' hmem ▸ he)
    refine .inl ⟨?_, ?_⟩
    · rw [hold]
      split
      · rfl
      · next hnone =>
        refine (selected_of_no_entity fun e' h' ↦ ?_).symm
        exact hnone ⟨e', hlooked e' (.inl h'), h'⟩
    · rw [hnew]
      split
      · rfl
      · next hnone =>
        refine (selected_of_no_entity fun e' h' ↦ ?_).symm
        exact hnone ⟨e', hlooked e' (.inr h'), h'⟩
  · simp only [not_exists, not_and, not_or] at hheld
    refine .inr ⟨?_, ?_, ?_⟩
    · rw [hold, if_neg]
      rintro ⟨e, he, h⟩
      exact (hheld e he).1 h
    · rw [hnew, if_neg]
      rintro ⟨e, he, h⟩
      exact (hheld e he).2 h
    · by_cases hentity : ∃ e, ⟨e, workPath, .string path⟩ ∈ before.datoms
      · obtain ⟨e, hmem⟩ := hentity
        have hnot : e ∉ es := fun he ↦ (hheld e he).1 hmem
        exact selected_unaffected hbefore hafter hcontent (hes e hnot) hmem
      · rw [selected_of_no_entity (not_exists.mp hentity), selected_of_no_entity fun e hmem ↦ ?_]
        have hnot : e ∉ es := fun he ↦ (hheld e he).2 hmem
        have hpath := hes e hnot workPath (by decide) (.string path)
        exact hentity ⟨e, hpath.mpr hmem⟩

end

variable {c : Change}

section

variable {old new : FileMap}

theorem changeAt_eq_some (h : changeAt old new path = some c) :
    c.path = path ∧ c.before = get? old path ∧ c.after = get? new path := by
  unfold changeAt at h
  simp only [ite_none_left_eq_some] at h
  obtain ⟨-, h⟩ := h
  cases h
  exact ⟨rfl, rfl, rfl⟩

theorem changeAt_isSome : (changeAt old new path).isSome ↔ get? old path ≠ get? new path := by
  unfold changeAt
  by_cases h : get? old path = get? new path <;> simp [h]

theorem mem_changesOf (h : c ∈ changesOf old new) :
    c.before = get? old c.path ∧ c.after = get? new c.path := by
  obtain ⟨path, -, hpath⟩ := mem_filterMap.mp h
  obtain ⟨rfl, hvalues⟩ := changeAt_eq_some hpath
  exact hvalues

theorem changesOf_nodup : ((changesOf old new).map Change.path).Nodup := by
  have hpaths : (changesOf old new).map Change.path =
      (canonical (old.map (·.1) ++ new.map (·.1))).filterMap fun path ↦
        (changeAt old new path).map Change.path := by
    unfold changesOf
    rw [map_filterMap]
  rw [hpaths]
  refine (canonical_nodup _).filterMap fun path path' shown hshown hshown' ↦ ?_
  obtain ⟨c, hc, rfl⟩ := map_eq_some_iff.mp hshown
  obtain ⟨c', hc', heq⟩ := map_eq_some_iff.mp hshown'
  rw [← (changeAt_eq_some hc).1, ← (changeAt_eq_some hc').1, heq]

theorem mem_paths_changesOf :
    path ∈ (changesOf old new).map Change.path ↔ get? old path ≠ get? new path := by
  constructor
  · intro h
    obtain ⟨c, hc, rfl⟩ := mem_map.mp h
    obtain ⟨path, -, hpath⟩ := mem_filterMap.mp hc
    obtain ⟨rfl, -⟩ := changeAt_eq_some hpath
    exact changeAt_isSome.mp (by rw [hpath, isSome_some])
  · intro h
    obtain ⟨c, hc⟩ := isSome_iff_exists.mp (changeAt_isSome.mpr h)
    have hkey : path ∈ old.map (·.1) ++ new.map (·.1) := by
      rw [mem_append, ← get?_isSome, ← get?_isSome]
      by_contra hnone
      simp only [not_or, Bool.not_eq_true, isSome_eq_false_iff, isNone_iff_eq_none]
        at hnone
      exact h (hnone.1.trans hnone.2.symm)
    have hmem : c ∈ changesOf old new := mem_filterMap.mpr ⟨path, mem_canonical.mpr hkey, hc⟩
    exact (changeAt_eq_some hc).1 ▸ mem_map_of_mem hmem

end

variable {changes : List Change} {files : String → Option FileValue}

theorem applied_of_not_mem (h : path ∉ changes.map Change.path) :
    applied changes files path = files path := by
  induction changes generalizing files with
  | nil => rfl
  | cons c changes ih =>
    rw [map_cons, mem_cons, not_or] at h
    have hrest : applied changes (update files c.path c.after) path = _ := ih h.2
    rw [update_of_ne h.1] at hrest
    exact hrest

theorem applied_of_mem (hnodup : (changes.map Change.path).Nodup) (hc : c ∈ changes) :
    applied changes files c.path = c.after := by
  induction changes generalizing files with
  | nil => cases hc
  | cons c' changes ih =>
    rw [map_cons, nodup_cons] at hnodup
    rcases mem_cons.mp hc with rfl | hlater
    · have hrest : applied changes (update files c.path c.after) c.path = _ :=
        applied_of_not_mem hnodup.1
      rw [update_self] at hrest
      exact hrest
    · exact ih hnodup.2 hlater

/-- The changes take the files before to the files after, and list just what differs. -/
structure Exact (changes : List Change) (old new : String → Option FileValue) : Prop where
  applied : applied changes old = new
  once : (changes.map Change.path).Nodup
  listed : ∀ path, path ∈ changes.map Change.path ↔ old path ≠ new path
  shown : ∀ c ∈ changes, c.before = old c.path ∧ c.after = new c.path

/-- Changes between two maps that differ as two inventories do. -/
theorem exact_changesOf {old new : FileMap} {files' : String → Option FileValue}
    (h : ∀ path, (get? old path = files path ∧ get? new path = files' path) ∨
      (get? old path = none ∧ get? new path = none ∧ files path = files' path)) :
    Exact (changesOf old new) files files' := by
  have hdiffer : ∀ path, get? old path ≠ get? new path ↔ files path ≠ files' path := by
    intro path
    rcases h path with ⟨hold, hnew⟩ | ⟨hold, hnew, hsame⟩
    · rw [hold, hnew]
    · simp [hold, hnew, hsame]
  have hvalues : ∀ c ∈ changesOf old new, c.before = files c.path ∧ c.after = files' c.path := by
    intro c hc
    have hpath := mem_paths_changesOf.mp (mem_map_of_mem hc)
    obtain ⟨hbefore, hafter⟩ := mem_changesOf hc
    rcases h c.path with ⟨hold, hnew⟩ | ⟨hold, hnew, -⟩
    · exact ⟨hbefore.trans hold, hafter.trans hnew⟩
    · exact absurd (hold.trans hnew.symm) hpath
  have hlisted : ∀ path, path ∈ (changesOf old new).map Change.path ↔ files path ≠ files' path :=
    fun path ↦ mem_paths_changesOf.trans (hdiffer path)
  refine ⟨funext fun path ↦ ?_, changesOf_nodup, hlisted, hvalues⟩
  by_cases hmem : path ∈ (changesOf old new).map Change.path
  · obtain ⟨c, hc, rfl⟩ := mem_map.mp hmem
    rw [applied_of_mem changesOf_nodup hc, (hvalues c hc).2]
  · rw [applied_of_not_mem hmem]
    exact not_not.mp fun hne ↦ hmem ((hlisted path).mpr hne)

variable (hdiffers : host.Differs)

include hdiffers

theorem compare_exact {before after : Db} (hbefore : IsWorktree before) (hafter : IsWorktree after)
    (hcontent : SameContent before after) {policy : Policy}
    (h : compare host before after policy = .ok changes) :
    Exact changes (selected before policy) (selected after policy) := by
  obtain ⟨pairs, hpairs, h⟩ := bind_eq_ok.mp h
  obtain ⟨-, h⟩ := require_bind_eq_ok.mp h
  cases h
  have hvalues : ∀ e shown, pair host before after policy e = .ok shown →
      shown = (listed before policy e, listed after policy e) := by
    intro e shown hshown
    obtain ⟨a, ha, hshown⟩ := bind_eq_ok.mp hshown
    obtain ⟨b, hb, hshown⟩ := bind_eq_ok.mp hshown
    cases hshown
    rw [entry_eq_ok ha, entry_eq_ok hb]
  rw [eq_map_of_mapM hvalues hpairs, filterMap_map, filterMap_map]
  refine exact_changesOf fun path ↦ ?_
  exact compared hbefore hafter hcontent (fun e he ↦ unaffected_of_not_mem host hdiffers he) path

omit hdiffers

theorem commit_basis {s : Snapshot} {shown : Basis} (h : basis host s = .ok shown) :
    s.commit = some shown.commit := by
  obtain ⟨-, -, h⟩ := bind_eq_ok.mp h
  split at h
  · next commit _ hcommit _ =>
    obtain ⟨identity, -, h⟩ := bind_eq_ok.mp h
    cases h
    exact hcommit
  · cases h

theorem prepare_eq_ok {before after : Snapshot} {policy policy' : Policy} {old new : Basis}
    (h : prepare host before after policy = .ok (policy', old, new)) :
    normalize host policy = .ok policy' ∧ basis host before = .ok old ∧
      basis host after = .ok new := by
  unfold prepare at h
  obtain ⟨policy'', hpolicy, h⟩ := bind_eq_ok.mp h
  obtain ⟨old', hold, h⟩ := bind_eq_ok.mp h
  obtain ⟨new', hnew, h⟩ := bind_eq_ok.mp h
  obtain ⟨-, h⟩ := require_bind_eq_ok.mp h
  obtain ⟨-, h⟩ := require_bind_eq_ok.mp h
  cases h
  exact ⟨hpolicy, hold, hnew⟩

/-- An inventory lists the selected files. -/
theorem inventory_selected {s : Snapshot} (hdb : IsWorktree s.db) {policy : Policy}
    {shown : Inventory} (h : inventory host s policy = .ok shown) (path : String) :
    get? shown.files path = selected s.db shown.policy path := by
  obtain ⟨policy', -, h⟩ := bind_eq_ok.mp h
  obtain ⟨old, -, h⟩ := bind_eq_ok.mp h
  obtain ⟨hbound, h⟩ := require_bind_eq_ok.mp h
  obtain ⟨entries, hentries, h⟩ := bind_eq_ok.mp h
  cases h
  have hwhole : (byPath s.db workPath).take (maxInventoryEntries + 1) = byPath s.db workPath := by
    rw [length_take] at hbound
    exact take_of_length_le (by omega)
  have hlisted := eq_map_of_mapM (fun _ _ h ↦ entry_eq_ok h) hentries
  rw [hwhole] at hlisted
  have hrows : entries.filterMap id = ((byPath s.db workPath).map e).filterMap
      (listed s.db policy') := by
    rw [hlisted, filterMap_map, filterMap_map]
    rfl
  simp only [hrows]
  rw [get?_listed hdb, ite_eq_left_iff]
  refine fun hnone ↦ (selected_of_no_entity fun e hmem ↦ hnone ⟨e, ?_, hmem⟩).symm
  refine mem_map.mpr ⟨⟨e, workPath, .string path⟩, ?_, rfl⟩
  rw [byPath, mem_insertionSort]
  simpa [aevt] using hmem

theorem between_ends (before after : Snapshot) (policy : Policy) :
    between host before after policy ≠ none := by
  unfold between
  split
  · exact some_ne_none _
  · rw [ne_eq, map_eq_none_iff]
    exact ancestor_ends before after _

theorem between_eq_some {before after : Snapshot} {policy : Policy} {shown : Changes}
    (h : between host before after policy = some (.ok shown)) :
    prepare host before after policy = .ok (shown.policy, shown.before, shown.after) ∧
      ancestor host before after shown.after = some (.ok ()) ∧
      compare host before.db after.db shown.policy = .ok shown.changes := by
  unfold between at h
  split at h
  · cases h
  · next policy' old new hprepare =>
    obtain ⟨walk, hwalk, h⟩ := map_eq_some_iff.mp h
    obtain ⟨_, hdone, h⟩ := bind_eq_ok.mp h
    obtain ⟨changes, hchanges, h⟩ := bind_eq_ok.mp h
    cases h
    exact ⟨hprepare, hdone ▸ hwalk, hchanges⟩

/-- The changes between two snapshots are those of the selected inventories, if the second descends
from the first. -/
theorem changes_exact (hdiffers : host.Differs) {before after : Snapshot} {policy : Policy}
    (hbefore : IsWorktree before.db) (hafter : IsWorktree after.db)
    (hcontent : SameContent before.db after.db) : between host before after policy ≠ none ∧
      ∀ shown, between host before after policy = some (.ok shown) →
        Relation.ReflTransGen (Parent host after) shown.after.commit shown.before.commit ∧
        Exact shown.changes (selected before.db shown.policy) (selected after.db shown.policy) ∧
        (∀ old, inventory host before policy = .ok old →
          ∀ path, get? old.files path = selected before.db shown.policy path) ∧
        ∀ new, inventory host after policy = .ok new →
          ∀ path, get? new.files path = selected after.db shown.policy path := by
  refine ⟨between_ends before after policy, fun shown hshown ↦ ?_⟩
  obtain ⟨hprepare, hwalk, hcompare⟩ := between_eq_some hshown
  obtain ⟨hpolicy, hold, hnew⟩ := prepare_eq_ok hprepare
  have hnormal : ∀ s inv, inventory host s policy = .ok inv → inv.policy = shown.policy := by
    intro s inv hinv
    obtain ⟨policy', hpolicy', hinv⟩ := bind_eq_ok.mp hinv
    obtain ⟨_, -, hinv⟩ := bind_eq_ok.mp hinv
    obtain ⟨-, hinv⟩ := require_bind_eq_ok.mp hinv
    obtain ⟨_, -, hinv⟩ := bind_eq_ok.mp hinv
    cases hinv
    exact Except.ok.inj (hpolicy'.symm.trans hpolicy)
  refine ⟨?_, compare_exact hdiffers hbefore hafter hcontent hcompare, ?_, ?_⟩
  · obtain ⟨id, hid, w, hw, hpath⟩ := ancestorFrom_ok hwalk
    obtain rfl := mem_singleton.mp hid
    rw [commit_basis hold] at hw
    exact some.inj hw ▸ hpath
  · intro old hinv path
    exact hnormal before old hinv ▸ inventory_selected hbefore hinv path
  · intro new hinv path
    exact hnormal after new hinv ▸ inventory_selected hafter hinv path

/-- A published snapshot of a database. -/
def snapshotOf (db : Db) (commit : Uuid) : Snapshot :=
  { isDb := true
    db := db
    commit := some commit
    maxTx := some commit
    maxEid := 5000
    hash := 0
    config := ⟨⟨some 0x11, some (plain "memory"), ""⟩, some (plain "db"), some persistentSet, none,
      none⟩ }

/-- A host whose commit 2 has the parent 1. -/
def publishedHost : Host ℕ :=
  { exampleView with
    commitAsDb := fun s _ ↦ some s
    parentCommitIds := fun s ↦ if s.commit = some 2 then [some 1] else []
    currentRef := fun _ ↦ some "refs/heads/main"
    hashConfig := fun _ ↦ 0
    diff := fun before after ↦
      ⟨before.datoms.filter (· ∉ after.datoms), after.datoms.filter (· ∉ before.datoms)⟩ }

theorem publishedHost_differs : publishedHost.Differs :=
  ⟨fun _ _ _ hd hnot ↦ mem_filter.mpr ⟨hd, decide_eq_true hnot⟩,
    fun _ _ _ hd hnot ↦ mem_filter.mpr ⟨hd, decide_eq_true hnot⟩⟩

/-- Another entity takes over the path of a trigger, which is no change. -/
theorem changes_exact_reused :
    let old := snapshotOf (worktree ["inbox/a.md"] []) 1
    let new := snapshotOf (worktree ["wiki/c.md", "inbox/a.md"] []) 2
    ∃ shown, between publishedHost old new defaultPolicy = some (.ok shown) ∧
      shown.changes.map Change.path = ["wiki/c.md"] ∧
      Exact shown.changes (selected old.db shown.policy) (selected new.db shown.policy) := by
  intro old new
  have hpaths : (between publishedHost old new defaultPolicy).map
      (fun shown ↦ shown.toOption.map fun shown ↦ shown.changes.map Change.path) =
      some (some ["wiki/c.md"]) := by
    decide
  obtain ⟨result, hresult, hpaths⟩ := map_eq_some_iff.mp hpaths
  cases result with
  | error e => cases hpaths
  | ok shown =>
    have hold : IsWorktree old.db := ⟨by decide, by decide, by decide⟩
    have hnew : IsWorktree new.db := ⟨by decide, by decide, by decide⟩
    have hcontent : SameContent old.db new.db := by
      intro e c hmem _
      have hone : ∀ d ∈ old.db.datoms, d.a = workContent → d.v = .ref 1 := by decide
      obtain rfl : c = 1 := Value.ref.inj (hone _ hmem rfl)
      decide
    have hexact := (changes_exact publishedHost_differs hold hnew hcontent).2 shown hresult
    exact ⟨shown, hresult, some.inj hpaths, hexact.2.1⟩

end Simmis.KnowledgeChanges
