import Simmis.KnowledgeInputs.Basis

/-!
# What a publication basis records

A basis lists the files and the directories at its root, below it and on the way to it. What stands
at a target depends on nothing else, so that the basis decides it like the worktree.
-/

namespace Simmis.KnowledgeInputs

open List Option Documents Maps View Text Unique Except

variable {R : Type} {host : Host R} {db : Db}

section

variable {view : View.Host R} {path : String} (h : isPath view path = true)
include h

theorem not_mem_segments : [] ∉ path.toList.splitOn '/' := by
  intro hnil
  unfold isPath at h
  simp only [decide_eq_true_eq] at h
  have hsegment := all_eq_true.mp h.2.2.2.1 "" (mem_map.mpr ⟨[], hnil, rfl⟩)
  revert hsegment
  decide

theorem isPath_trim : Trim path :=
  fun hlast ↦ not_mem_segments h (mem_of_getLast? hlast)

theorem not_isAbove_empty : ¬ IsAbove "" path := by
  intro habove
  obtain ⟨rest, hrest⟩ := isAbove_iff.mp habove
  apply not_mem_segments h
  rw [hrest, splitOn_append_cons_self]
  exact mem_append_left _ (mem_singleton_self [])

end

theorem not_isAbove_zero (root : String) : ¬ IsAbove root (root ++ "0") := by
  intro habove
  obtain ⟨rest, hrest⟩ := isAbove_iff.mp habove
  rw [String.toList_append, append_cancel_left_eq] at hrest
  have hzero : "0".toList = ['0'] := rfl
  cases hrest

/-- At the root, below it or, under a scope, on the way to it. -/
def Near (isScoped : Bool) (root path : String) : Prop :=
  root = "" ∨ path = root ∨ IsAbove root path ∨ isScoped = true ∧ IsAbove path root

variable {root : String} {isScoped : Bool}

theorem isNear_iff {path : String} (hpath : path ≠ "") :
    isNear isScoped root path ↔ Near isScoped root path := by
  unfold isNear Near
  rw [Bool.or_eq_true, Bool.and_eq_true, containsPath_iff, containsPath_iff]
  grind

theorem take_eq_self {α : Type} {l : List α} {n : ℕ} (h : (l.take (n + 1)).length ≤ n) :
    l.take (n + 1) = l := by
  rw [length_take] at h
  exact take_of_length_le (by omega)

theorem byPath_pairwise (db : Db) (attr : Keyword) :
    (byPath db attr).Pairwise fun a b ↦ units (pathOf a) ≤ units (pathOf b) := by
  have htotal : Std.Total fun a b : Datom ↦ le (pathOf a) (pathOf b) :=
    ⟨fun a b ↦ textLe_total (pathOf a) (pathOf b)⟩
  have htrans : IsTrans Datom fun a b ↦ le (pathOf a) (pathOf b) :=
    ⟨fun a b c ↦ textLe_trans (pathOf a) (pathOf b) (pathOf c)⟩
  have hsorted := pairwise_insertionSort
    (fun a b : Datom ↦ le (pathOf a) (pathOf b)) (db.aevt attr)
  refine hsorted.imp fun {a b} h ↦ ?_
  exact of_decide_eq_true h

variable {d : Datom}

theorem pathOf_of_ne (h : pathOf d ≠ "") : d.v = .string (pathOf d) := by
  unfold pathOf at *
  split at * <;> simp_all

theorem mem_avet {attr : Keyword} {v : Value} :
    d ∈ db.avet attr v ↔ d ∈ db.aevt attr ∧ d.v = v := by
  unfold Db.avet
  rw [mem_filter, decide_eq_true_eq]

theorem mem_byPath {attr : Keyword} : d ∈ byPath db attr ↔ d ∈ db.aevt attr := mem_insertionSort _

/-- Nothing below the root is cut off by the bound if the bound is kept. -/
theorem filter_take_range {attr : Keyword} {n : ℕ}
    (h : (((indexRange db attr root).take (n + 1)).filter fun d ↦ pathOf d ≠ root ++ "0").length ≤
      n) (hd : d ∈ indexRange db attr root) (hne : pathOf d ≠ root ++ "0") :
    d ∈ (indexRange db attr root).take (n + 1) := by
  by_contra hnot
  have hsplit := take_append_drop (n + 1) (indexRange db attr root)
  have hdrop : d ∈ (indexRange db attr root).drop (n + 1) := by
    rw [← hsplit, mem_append] at hd
    exact hd.resolve_left hnot
  have hsorted : (indexRange db attr root).Pairwise
      fun a b ↦ units (pathOf a) ≤ units (pathOf b) :=
    (byPath_pairwise db attr).sublist filter_sublist
  rw [← hsplit, pairwise_append] at hsorted
  -- What is cut off stands behind everything that is kept, and `root0` is the last one.
  have hkept : ∀ x ∈ (indexRange db attr root).take (n + 1), pathOf x ≠ root ++ "0" := by
    intro x hx hzero
    have hxd := hsorted.2.2 x hx d hdrop
    have hd' := (mem_filter.mp hd).2
    unfold inRange le at hd'
    rw [Bool.and_eq_true, decide_eq_true_eq, decide_eq_true_eq] at hd'
    rw [hzero] at hxd
    exact hne (units_injective (le_antisymm hd'.2 hxd))
  rw [filter_eq_self.mpr (by simpa using hkept), length_take] at h
  have hlong := length_pos_of_mem hdrop
  rw [length_drop] at hlong
  omega

/-- The rows of an attribute are its datoms near the root. -/
theorem mem_rows {attr : Keyword} {path : String} (hroot : root ≠ "" → Trim root)
    (hlength : (rows db isScoped root attr).length ≤ maxIndexEntries) :
    (∃ d ∈ rows db isScoped root attr, d.v = .string path) ↔
      Near isScoped root path ∧ db.avet attr (.string path) ≠ [] := by
  have hrange : ∀ d : Datom, d ∈ indexRange db attr root ∧ pathOf d ≠ root ++ "0" ↔
      d ∈ db.aevt attr ∧ IsAbove root (pathOf d) := by
    intro d
    unfold indexRange
    rw [mem_filter, mem_byPath, inRange_iff]
    constructor
    · rintro ⟨⟨hd, habove | hzero⟩, hne⟩
      · exact ⟨hd, habove⟩
      · exact absurd hzero hne
    · rintro ⟨hd, habove⟩
      refine ⟨⟨hd, .inl habove⟩, fun hzero ↦ ?_⟩
      exact not_isAbove_zero root (hzero ▸ habove)
  rw [ne_eq, eq_nil_iff_forall_not_mem, not_forall_not]
  unfold rows at hlength ⊢
  split at hlength
  · rename_i hempty
    rw [if_pos hempty, take_eq_self hlength]
    simp only [mem_byPath, mem_avet, Near, hempty, true_or, true_and]
  · rename_i hne
    rw [if_neg hne]
    have htake : (((indexRange db attr root).take (maxIndexEntries + 1)).filter
        fun d ↦ pathOf d ≠ root ++ "0").length ≤ maxIndexEntries := by
      rw [length_append] at hlength
      omega
    constructor
    · rintro ⟨d, hd, hv⟩
      have hpathOf : pathOf d = path := by simp [pathOf, hv]
      rw [mem_append, mem_append] at hd
      rcases hd with (hparent | hself) | hbelow
      · split at hparent
        · rename_i hscoped
          obtain ⟨parent, hparent, hmem⟩ := mem_flatMap.mp hparent
          have hsame : parent = path := by
            have hv' := (mem_avet.mp hmem).2
            rw [hv] at hv'
            cases hv'
            rfl
          subst hsame
          exact ⟨.inr (.inr (.inr ⟨hscoped, (mem_pathParents (hroot hne)).mp hparent⟩)), d, hmem⟩
        · cases hparent
      · have hsame : root = path := by
          have hv' := (mem_avet.mp hself).2
          rw [hv] at hv'
          cases hv'
          rfl
        exact ⟨.inr (.inl hsame.symm), d, hsame ▸ hself⟩
      · obtain ⟨hmem, hzero⟩ := mem_filter.mp hbelow
        have hd := (hrange d).mp ⟨mem_of_mem_take hmem, of_decide_eq_true hzero⟩
        exact ⟨.inr (.inr (.inl (hpathOf ▸ hd.2))), d, mem_avet.mpr ⟨hd.1, hv⟩⟩
    · rintro ⟨hnear, d, hd⟩
      have hv := (mem_avet.mp hd).2
      have hpathOf : pathOf d = path := by simp [pathOf, hv]
      refine ⟨d, ?_, hv⟩
      rw [mem_append, mem_append]
      rcases hnear with hempty | hself | hbelow | ⟨hscoped, habove⟩
      · exact absurd hempty hne
      · exact .inl (.inr (hself ▸ hd))
      · right
        have hd' := (hrange d).mpr ⟨(mem_avet.mp hd).1, hpathOf.symm ▸ hbelow⟩
        exact mem_filter.mpr ⟨filter_take_range htake hd'.1 hd'.2, decide_eq_true hd'.2⟩
      · left
        left
        rw [if_pos hscoped]
        exact mem_flatMap.mpr ⟨path, (mem_pathParents (hroot hne)).mpr habove, hd⟩

/-- There is an explicit directory. -/
def HasDirectory (db : Db) (path : String) : Prop := db.avet workDirPath (.string path) ≠ []

/-- There is a file or an explicit directory. -/
def Occupied (db : Db) (path : String) : Prop := fileAt db path ≠ none ∨ HasDirectory db path

/-- There is a directory, an explicit one or one that something deeper implies. -/
def IsDirectory (db : Db) (path : String) : Prop :=
  HasDirectory db path ∨ ∃ deeper, IsAbove path deeper ∧ Occupied db deeper

/-- What is listed for a root. -/
structure Lists (db : Db) (isScoped : Bool) (root : String)
    (listed : List (String × View.FileEntry) × List String) : Prop where
  nodup : (listed.1.map (·.1)).Nodup
  files : ∀ path entry, (path, entry) ∈ listed.1 ↔
    Near isScoped root path ∧ fileAt db path = some entry
  directories : ∀ path, path ∈ listed.2 ↔ Near isScoped root path ∧
    (HasDirectory db path ∨
      ∃ deeper, IsAbove path deeper ∧ Near isScoped root deeper ∧ Occupied db deeper)

theorem fileAt_ne_none {path : String} :
    fileAt db path ≠ none ↔ db.avet workPath (.string path) ≠ [] := by
  unfold fileAt
  rw [ne_eq, map_eq_none_iff, head?_eq_none_iff]

def entryOf (db : Db) (path : String) : View.FileEntry := (fileAt db path).getD ⟨none, none, none⟩

theorem publicationEntry_eq_ok {file : String × View.FileEntry} :
    publicationEntry host db d = .ok file ↔
      (isPath host.toHost (pathOf d) ∧ ∃ metadata, fileAt db (pathOf d) = some metadata ∧
        metadata.content.isSome ∧ (metadata.size.any fun n ↦ 0 ≤ n) ∧
        metadata.mode.isSome) ∧ file = (pathOf d, entryOf db (pathOf d)) := by
  unfold publicationEntry entryOf
  rw [bind_eq_ok, exists_iff, checkPath_eq_ok, bind_eq_ok]
  constructor
  · rintro ⟨hpath, metadata, hmetadata, h⟩
    obtain ⟨hvalid, h⟩ := require_bind_eq_ok.mp h
    rw [demand_eq_ok] at hmetadata
    rw [hmetadata]
    exact ⟨⟨hpath, metadata, rfl, hvalid⟩, (ok.inj h).symm⟩
  · rintro ⟨⟨hpath, metadata, hmetadata, hvalid⟩, rfl⟩
    refine ⟨hpath, metadata, demand_eq_ok.mpr hmetadata, ?_⟩
    rw [hmetadata]
    exact require_bind_eq_ok.mpr ⟨hvalid, rfl⟩

theorem explicitDirectory_eq_ok {path : String} :
    explicitDirectory host d = .ok path ↔ isPath host.toHost (pathOf d) ∧ path = pathOf d := by
  unfold explicitDirectory
  rw [bind_eq_ok, exists_iff, checkPath_eq_ok]
  exact and_congr_right fun _ ↦ ⟨fun h ↦ (ok.inj h).symm, fun h ↦ h ▸ rfl⟩

theorem mem_addDirectories {files : ℕ} {paths dirs dirs' : List String} {path : String}
    (h : paths.foldlM (addDirectory files) dirs = .ok dirs') :
    path ∈ dirs' ↔ path ∈ dirs ∨ path ∈ paths := by
  induction paths generalizing dirs with
  | nil =>
    cases h
    simp
  | cons p paths ih =>
    obtain ⟨next, hnext, hrest⟩ := foldlM_cons_eq_ok.mp h
    obtain ⟨-, hnext⟩ := require_bind_eq_ok.mp hnext
    cases hnext
    rw [ih hrest, mem_insert_iff, mem_cons]
    tauto

theorem validate_eq_ok {basis basis' : Basis} (h : validate host basis = .ok basis') :
    basis' = basis := by
  unfold validate at h
  rw [bind_eq_ok, exists_iff] at h
  obtain ⟨-, hrest⟩ := h
  exact (ok.inj (require_bind_eq_ok.mp hrest).2).symm

/-- The occupied paths near the root, from the occupancy. -/
theorem mem_occupancy {path : String} (hroot : root ≠ "" → Trim root)
    (hlength : (occupancy db isScoped root).length ≤ maxIndexEntries) (attr : Keyword)
    (hattr : attr = workPath ∨ attr = workDirPath) :
    (∃ d ∈ (occupancy db isScoped root).filter fun d ↦ d.a = attr, d.v = .string path) ↔
      Near isScoped root path ∧ db.avet attr (.string path) ≠ [] := by
  have hwhole := take_eq_self hlength
  unfold occupancy at hlength
  rw [hwhole, length_append] at hlength
  have hfiles : (rows db isScoped root workPath).length ≤ maxIndexEntries := by omega
  have hdirs : (rows db isScoped root workDirPath).length ≤ maxIndexEntries := by omega
  have ha : ∀ attr, ∀ d ∈ rows db isScoped root attr, d.a = attr := by
    intro attr d hd
    have haevt : d ∈ db.aevt attr := by
      unfold rows at hd
      split at hd
      · exact mem_byPath.mp (mem_of_mem_take hd)
      · rw [mem_append, mem_append] at hd
        rcases hd with (hparent | hself) | hbelow
        · split at hparent
          · obtain ⟨parent, -, hmem⟩ := mem_flatMap.mp hparent
            exact (mem_avet.mp hmem).1
          · cases hparent
        · exact (mem_avet.mp hself).1
        · have hrange := mem_of_mem_take (mem_filter.mp hbelow).1
          exact mem_byPath.mp (mem_filter.mp hrange).1
    exact of_decide_eq_true (mem_filter.mp haevt).2
  have hrows : ∀ d, d ∈ (occupancy db isScoped root).filter (fun d ↦ d.a = attr) ↔
      d ∈ rows db isScoped root attr := by
    intro d
    unfold occupancy
    have hd' := ha workDirPath d
    grind
  have hlength' : (rows db isScoped root attr).length ≤ maxIndexEntries := by
    rcases hattr with rfl | rfl
    · exact hfiles
    · exact hdirs
  simp only [hrows]
  exact mem_rows hroot hlength'

theorem listOccupancy_lists {listed : List (String × View.FileEntry) × List String}
    (hroot : root ≠ "" → Trim root ∧ ¬ IsAbove "" root)
    (h : listOccupancy host db isScoped root = .ok listed) : Lists db isScoped root listed := by
  obtain ⟨hlength, h⟩ := require_bind_eq_ok.mp h
  obtain ⟨entries, hentries, h⟩ := bind_eq_ok.mp h
  obtain ⟨explicit, hexplicit, h⟩ := bind_eq_ok.mp h
  obtain ⟨dirs, hdirs, h⟩ := bind_eq_ok.mp h
  cases h
  obtain ⟨hpaths, rfl⟩ := (mapM_eq_ok fun d file ↦ publicationEntry_eq_ok).mp hentries
  obtain ⟨hdirpaths, rfl⟩ := (mapM_eq_ok fun d path ↦ explicitDirectory_eq_ok).mp hexplicit
  have hocc : ∀ path attr, attr = workPath ∨ attr = workDirPath →
      ((∃ d ∈ (occupancy db isScoped root).filter fun d ↦ d.a = attr, d.v = .string path) ↔
        Near isScoped root path ∧ db.avet attr (.string path) ≠ []) :=
    fun path attr ↦ mem_occupancy (fun hne ↦ (hroot hne).1) hlength attr
  -- Every occupied path that was read is an exact one, so that it is the value of its datom.
  have hvalue : ∀ d : Datom, isPath host.toHost (pathOf d) →
      d.v = .string (pathOf d) := fun d hd ↦ pathOf_of_ne (isPath_ne_empty hd)
  have hpathOf : ∀ (d : Datom) (path : String), d.v = .string path → pathOf d = path := by
    intro d path hv
    simp [pathOf, hv]
  generalize hfs : (occupancy db isScoped root).filter (fun d ↦ d.a = workPath) = fs at *
  generalize hds : (occupancy db isScoped root).filter (fun d ↦ d.a = workDirPath) = ds at *
  have hfile : ∀ path, path ∈ fs.map pathOf ↔ Near isScoped root path ∧ fileAt db path ≠ none := by
    intro path
    rw [fileAt_ne_none, ← hocc path workPath (.inl rfl), hfs, List.mem_map]
    constructor
    · rintro ⟨d, hd, rfl⟩
      exact ⟨d, hd, hvalue d (hpaths d hd).1⟩
    · rintro ⟨d, hd, hv⟩
      exact ⟨d, hd, hpathOf d path hv⟩
  have hdir : ∀ path, path ∈ ds.map pathOf ↔ Near isScoped root path ∧ HasDirectory db path := by
    intro path
    unfold HasDirectory
    rw [← hocc path workDirPath (.inr rfl), hds, List.mem_map]
    constructor
    · rintro ⟨d, hd, rfl⟩
      exact ⟨d, hd, hvalue d (hdirpaths d hd)⟩
    · rintro ⟨d, hd, hv⟩
      exact ⟨d, hd, hpathOf d path hv⟩
  have hsame : fs.map (fun d ↦ (pathOf d, entryOf db (pathOf d))) =
      (fs.map pathOf).map fun path ↦ (path, entryOf db path) := by
    rw [List.map_map]
    rfl
  rw [hsame] at hdirs ⊢
  have hfiles : ∀ path entry, (path, entry) ∈ sorted le
      ((fs.map pathOf).map fun path ↦ (path, entryOf db path)) ↔
      Near isScoped root path ∧ fileAt db path = some entry := by
    intro path entry
    rw [mem_sorted_map, hfile]
    unfold entryOf
    cases fileAt db path with
    | none => simp
    | some found => simp [eq_comm]
  refine ⟨nodup_sorted _ _, hfiles, ?_⟩
  generalize sorted le ((fs.map pathOf).map fun path ↦ (path, entryOf db path)) = files at *
  have hoccupied : ∀ path, path ∈ files.map (·.1) ++ ds.map pathOf ↔
      Near isScoped root path ∧ Occupied db path := by
    intro path
    unfold Occupied
    rw [List.mem_append, hdir, List.mem_map, and_or_left]
    apply or_congr_left
    constructor
    · rintro ⟨⟨path, entry⟩, hentry, rfl⟩
      obtain ⟨hnear, hat⟩ := (hfiles path entry).mp hentry
      exact ⟨hnear, by simp [hat]⟩
    · rintro ⟨hnear, hat⟩
      obtain ⟨entry, hentry⟩ := ne_none_iff_exists'.mp hat
      exact ⟨(path, entry), (hfiles path entry).mpr ⟨hnear, hentry⟩, rfl⟩
  have hexact : ∀ path ∈ files.map (·.1) ++ ds.map pathOf, isPath host.toHost path := by
    intro path hpath
    obtain hpath | hpath := mem_append.mp hpath
    · obtain ⟨⟨path, entry⟩, hentry, rfl⟩ := mem_map.mp hpath
      obtain ⟨hnear, hat⟩ := (hfiles path entry).mp hentry
      obtain ⟨d, hd, rfl⟩ := mem_map.mp ((hfile path).mpr ⟨hnear, by simp [hat]⟩)
      exact (hpaths d hd).1
    · obtain ⟨d, hd, rfl⟩ := mem_map.mp hpath
      exact hdirpaths d hd
  intro path
  rw [mem_insertionSort, mem_addDirectories hdirs, mem_filter, mem_append, mem_flatMap]
  have hnot : path ∉ ([] : List String) := not_mem_nil
  simp only [hnot, false_or]
  constructor
  · rintro ⟨hexplicit | ⟨deeper, hdeeper, hparent⟩, hnear⟩
    · exact ⟨((hdir path).mp hexplicit).1, .inl ((hdir path).mp hexplicit).2⟩
    · have hpath := hexact deeper hdeeper
      have habove := (mem_pathParents (isPath_trim hpath)).mp hparent
      have hne : path ≠ "" := by
        rintro rfl
        exact not_isAbove_empty hpath habove
      obtain ⟨hnear', hocc'⟩ := (hoccupied deeper).mp hdeeper
      exact ⟨(isNear_iff hne).mp hnear, .inr ⟨deeper, habove, hnear', hocc'⟩⟩
  · rintro ⟨hnear, hhas | ⟨deeper, habove, hnear', hocc'⟩⟩
    · have hmem := (hdir path).mpr ⟨hnear, hhas⟩
      have hpath := hexact path (mem_append_right _ hmem)
      exact ⟨.inl hmem, (isNear_iff (isPath_ne_empty hpath)).mpr hnear⟩
    · have hdeeper := (hoccupied deeper).mpr ⟨hnear', hocc'⟩
      have hpath := hexact deeper hdeeper
      have hne : path ≠ "" := by
        rintro rfl
        exact not_isAbove_empty hpath habove
      exact ⟨.inr ⟨deeper, hdeeper, (mem_pathParents (isPath_trim hpath)).mpr habove⟩,
        (isNear_iff hne).mpr hnear⟩

/-- What a basis that was built has recorded. -/
structure Records (host : Host R) (db : Db) (scope : Option Scope) (basis : Basis) : Prop where
  accepted : ∀ s ∈ scope, s.Accepted host.toHost
  version : basis.version = if scope.isSome then 2 else 1
  root : basis.root = (scope.map Scope.destinationRoot).getD "wiki"
  outputScope : basis.scope = scope
  valid : validate host basis = .ok basis
  lists : Lists db scope.isSome basis.root (basis.files, basis.directories)

theorem root_trim {scope : Option Scope} (haccepted : ∀ s ∈ scope, s.Accepted host.toHost)
    (hne : (scope.map Scope.destinationRoot).getD "wiki" ≠ "") :
    Trim ((scope.map Scope.destinationRoot).getD "wiki") ∧
      ¬ IsAbove "" ((scope.map Scope.destinationRoot).getD "wiki") := by
  cases scope with
  | none =>
    refine ⟨?_, fun habove ↦ ?_⟩
    · change ("wiki".toList.splitOn '/').getLast? ≠ some []
      decide
    · obtain ⟨rest, hrest⟩ := isAbove_iff.mp habove
      have hwiki : "wiki".toList = ['w', 'i', 'k', 'i'] := rfl
      rw [map_none, getD_none, hwiki] at hrest
      cases hrest
  | some s =>
    have hpath := (haccepted s rfl).root.resolve_left hne
    exact ⟨isPath_trim hpath, not_isAbove_empty hpath⟩

theorem checkOutputScope_eq_ok {scope : Option Scope} {u : Unit} :
    checkOutputScope host scope = .ok u ↔ ∀ s ∈ scope, s.Accepted host.toHost := by
  cases scope with
  | none => exact ⟨fun _ _ hs ↦ absurd hs (not_mem_none _), fun _ ↦ rfl⟩
  | some s =>
    unfold checkOutputScope
    rw [bind_eq_ok]
    constructor
    · rintro ⟨s', hs', -⟩ t ht
      cases ht
      exact (normalizeScope_eq_ok.mp hs').1
    · exact fun h ↦ ⟨s, normalizeScope_eq_ok.mpr ⟨h s rfl, rfl⟩, rfl⟩

theorem publicationBasis_records {identity : Option Identity} {scope : Option Scope} {basis : Basis}
    (h : publicationBasis host db identity scope = .ok basis) : Records host db scope basis := by
  unfold publicationBasis at h
  rw [bind_eq_ok, exists_iff, checkOutputScope_eq_ok] at h
  obtain ⟨haccepted, h⟩ := h
  obtain ⟨-, h⟩ := require_bind_eq_ok.mp h
  obtain ⟨-, h⟩ := require_bind_eq_ok.mp h
  obtain ⟨⟨files, directories⟩, hlisted, h⟩ := bind_eq_ok.mp h
  obtain ⟨-, h⟩ := require_bind_eq_ok.mp h
  obtain rfl := validate_eq_ok h
  exact ⟨haccepted, rfl, rfl, rfl, h, listOccupancy_lists (root_trim haccepted) hlisted⟩

section

variable {scope : Option Scope} {basis : Basis} (h : Records host db scope basis)
include h

theorem Records.target {path : String} :
    (checkPath host.toHost path = .ok () ∧ checkTarget host basis path = .ok ()) ↔
      Admissible host.toHost scope path := by
  unfold checkTarget Admissible
  rw [h.version, h.root, h.outputScope, checkPath_eq_ok]
  cases scope with
  | none =>
    have hbelow : startsWith path "wiki/" ↔ IsAbove "wiki" path := startsWith_iff
    simp [hbelow]
  | some s =>
    have hdemand : (demand (some s) (Error.scope .invalid) >>= fun scope ↦
        targetPath host.toHost scope path) = targetPath host.toHost s path := rfl
    simp only [isSome_some, if_true, hdemand, targetPath_eq_ok]
    exact ⟨And.right, fun hs ↦ ⟨hs.isPath, hs⟩⟩

/-- A target is below the root. -/
theorem Records.below {path : String} (hpath : Admissible host.toHost scope path) :
    basis.root = "" ∨ IsAbove basis.root path := by
  rw [h.root]
  cases scope with
  | none => exact .inr hpath.2.1
  | some s => exact (Scope.Admits.below hpath).symm

/-- What is above a target is near the root. -/
theorem Records.near {path parent : String} (hpath : Admissible host.toHost scope path)
    (hparent : parent = path ∨ IsAbove parent path) : Near scope.isSome basis.root parent := by
  obtain hempty | hbelow := h.below hpath
  · exact .inl hempty
  · obtain rfl | hparent := hparent
    · exact .inr (.inr (.inl hbelow))
    · obtain heq | habove | habove := isAbove_total hparent hbelow
      · exact .inr (.inl heq)
      · cases scope with
        | some s => exact .inr (.inr (.inr ⟨rfl, habove⟩))
        | none =>
          rw [h.root] at habove
          exact absurd habove (not_isAbove_wiki parent)
      · exact .inr (.inr (.inl habove))

/-- At the root or below it, a basis lists the directories of the worktree. -/
theorem Records.mem_directories {path : String}
    (hpath : basis.root = "" ∨ path = basis.root ∨ IsAbove basis.root path) :
    path ∈ basis.directories ↔ IsDirectory db path := by
  have hnear : Near scope.isSome basis.root path := by
    obtain hempty | hself | hbelow := hpath
    · exact .inl hempty
    · exact .inr (.inl hself)
    · exact .inr (.inr (.inl hbelow))
  have hdeeper : ∀ deeper, IsAbove path deeper → Near scope.isSome basis.root deeper := by
    intro deeper habove
    obtain hempty | rfl | hbelow := hpath
    · exact .inl hempty
    · exact .inr (.inr (.inl habove))
    · exact .inr (.inr (.inl (hbelow.trans habove)))
  rw [h.lists.directories]
  constructor
  · rintro ⟨-, hhas | ⟨deeper, habove, -, hocc⟩⟩
    · exact .inl hhas
    · exact .inr ⟨deeper, habove, hocc⟩
  · rintro (hhas | ⟨deeper, habove, hocc⟩)
    · exact ⟨hnear, .inl hhas⟩
    · exact ⟨hnear, .inr ⟨deeper, habove, hdeeper deeper habove, hocc⟩⟩

/-- At a target and above it, a basis lists the files of the worktree. -/
theorem Records.get? {path parent : String} (hpath : Admissible host.toHost scope path)
    (hparent : parent = path ∨ IsAbove parent path) :
    get? basis.files parent = fileAt db parent := by
  ext entry
  constructor
  · intro hentry
    exact ((h.lists.files parent entry).mp (mem_of_get? hentry)).2
  · intro hentry
    have hmem := (h.lists.files parent entry).mpr ⟨h.near hpath hparent, hentry⟩
    exact get?_of_mem h.lists.nodup hmem

/-- The answer about a target, read off the worktree. -/
theorem Records.publicationBefore {path : String} (hpath : Admissible host.toHost scope path)
    (answer : Option View.FileEntry) : publicationBefore host basis path = .ok answer ↔
      ¬ IsDirectory db path ∧ (∀ parent, IsAbove parent path → fileAt db parent = none) ∧
        fileAt db path = answer ∧ ∀ entry ∈ answer, entry.mode = some host.defaultMode := by
  obtain ⟨hcheck, htarget⟩ := h.target.mpr hpath
  have hparents : (∀ parent ∈ pathParents path, Maps.get? basis.files parent = none) ↔
      ∀ parent, IsAbove parent path → fileAt db parent = none := by
    constructor
    · intro hall parent habove
      rw [← h.get? hpath (.inr habove)]
      exact hall parent ((mem_pathParents (isPath_trim hpath.isPath)).mpr habove)
    · intro hall parent hparent
      have habove := (mem_pathParents (isPath_trim hpath.isPath)).mp hparent
      rw [h.get? hpath (.inr habove)]
      exact hall parent habove
  unfold KnowledgeInputs.publicationBefore
  rw [hcheck, htarget]
  change (require _ _ >>= fun _ ↦ _) = .ok answer ↔ _
  rw [require_bind_eq_ok, h.mem_directories ((h.below hpath).imp_right .inr), hparents,
    h.get? hpath (.inl rfl), and_assoc]
  apply and_congr_right
  intro _
  apply and_congr_right
  intro _
  cases hfile : fileAt db path with
  | none =>
    cases answer with
    | none => simp [pure, Except.pure]
    | some entry => simp [pure, Except.pure]
  | some metadata =>
    rw [require_bind_eq_ok]
    constructor
    · rintro ⟨hmode, hanswer⟩
      cases hanswer
      exact ⟨rfl, fun entry hentry ↦ some.inj hentry ▸ hmode⟩
    · rintro ⟨rfl, hmode⟩
      exact ⟨hmode metadata rfl, rfl⟩

end

/-- No path is both a file and a proper ancestor of another path. -/
def IsTree (db : Db) : Prop := ∀ a b, fileAt db a ≠ none → IsAbove a b → ¬ Occupied db b

/-- A basis lists what is near its root, and decides every target like the worktree. -/
theorem basis_decides {identity : Option Identity} {scope : Option Scope} {basis : Basis}
    (htree : IsTree db) (h : publicationBasis host db identity scope = .ok basis) :
    validate host basis = .ok basis ∧ basis.root = (scope.map Scope.destinationRoot).getD "wiki" ∧
      (∀ path entry, (path, entry) ∈ basis.files ↔
        Near scope.isSome basis.root path ∧ fileAt db path = some entry) ∧
      (∀ path, path ∈ basis.directories ↔ Near scope.isSome basis.root path ∧
        (HasDirectory db path ∨ ∃ deeper, IsAbove path deeper ∧
          Near scope.isSome basis.root deeper ∧ Occupied db deeper)) ∧
      (∀ path, basis.root = "" ∨ path = basis.root ∨ IsAbove basis.root path →
        (path ∈ basis.directories ↔ IsDirectory db path)) ∧
      ∀ path, Admissible host.toHost scope path →
        (publicationBefore host basis path = .ok none ↔ fileAt db path = none ∧
          ¬ IsDirectory db path ∧ ∀ parent, IsAbove parent path → fileAt db parent = none) ∧
        ∀ entry, publicationBefore host basis path = .ok (some entry) ↔
          fileAt db path = some entry ∧ entry.mode = some host.defaultMode ∧
            ¬ HasDirectory db path := by
  have hrecords := publicationBasis_records h
  refine ⟨hrecords.valid, hrecords.root, hrecords.lists.files, hrecords.lists.directories,
    fun path ↦ hrecords.mem_directories, fun path hpath ↦ ⟨?_, fun entry ↦ ?_⟩⟩
  · rw [hrecords.publicationBefore hpath]
    tauto
  · rw [hrecords.publicationBefore hpath]
    simp only [mem_def, some.injEq, forall_eq']
    constructor
    · rintro ⟨hdir, -, hfile, hmode⟩
      exact ⟨hfile, hmode, fun hhas ↦ hdir (.inl hhas)⟩
    · rintro ⟨hfile, hmode, hhas⟩
      have hne : fileAt db path ≠ none := by simp [hfile]
      refine ⟨?_, fun parent habove ↦ ?_, hfile, hmode⟩
      · rintro (hhas' | ⟨deeper, habove, hocc⟩)
        · exact hhas hhas'
        · exact htree path deeper hne habove hocc
      · by_contra hparent
        exact htree parent path hparent habove (.inl hne)

/-- A worktree with these files of one byte and these directories. -/
def worktree (files directories : List String) : Db :=
  let one (type : DbType) : AttrSchema := ⟨type, .one, none, none⟩
  { schema :=
      [(View.workPath, ⟨.string, .one, some .identity, none⟩),
        (workDirPath, ⟨.string, .one, some .identity, none⟩),
        (kw "geschichte.work" "content", one .ref), (kw "geschichte.work" "size", one .long),
        (kw "geschichte.work" "mode", one .long), (View.contentId, ⟨.uuid, .one, some .identity, none⟩),
        (kw "geschichte.content" "size", one .long)]
    datoms :=
      [⟨1, View.contentId, .uuid 0x77⟩, ⟨1, kw "geschichte.content" "size", .long 1⟩] ++
      (files.zipIdx 2).flatMap (fun file ↦
        [⟨file.2, View.workPath, .string file.1⟩, ⟨file.2, kw "geschichte.work" "content", .ref 1⟩,
          ⟨file.2, kw "geschichte.work" "size", .long 1⟩,
          ⟨file.2, kw "geschichte.work" "mode", .long 33188⟩]) ++
      (directories.zipIdx 1000).map fun directory ↦
        ⟨directory.2, workDirPath, .string directory.1⟩ }

def exampleView : View.Host ℕ :=
  { repository := fun _ ↦ ⟨some 0x99, none⟩
    defaultMode := 33188
    readById := fun _ id ↦ if id = 0x77 then some [10] else none
    workspacePath := ("/" ++ ·)
    parse := fun _ ↦ .error .markdown
    java := ⟨fun _ ↦ 0, fun _ ↦ none⟩
    prStr := fun _ ↦ ""
    hashScope := fun _ ↦ 0
    hashBindings := fun _ ↦ 0
    hashDocument := fun _ _ ↦ 0
    hashBlock := fun _ _ _ _ ↦ 0
    hashView := fun _ _ ↦ 0 }

def exampleHost : Host ℕ :=
  { exampleView with
    target := fun _ ↦ ⟨some 0x99, some 0x98, some (plain "memory"), some (plain "db"),
      some "refs/heads/main", none⟩
    printBasis := fun basis ↦ " ".intercalate basis.paths
    hashBasis := fun basis ↦ basis.paths.length }

theorem isTree_example : IsTree (worktree ["wiki/a.md"] []) := by
  intro a b ha habove hocc
  have hfile : ∀ path, fileAt (worktree ["wiki/a.md"] []) path ≠ none → path = "wiki/a.md" := by
    intro path hpath
    by_contra hne
    rw [fileAt_ne_none] at hpath
    apply hpath
    have haevt : (worktree ["wiki/a.md"] []).aevt workPath =
        [⟨2, workPath, .string "wiki/a.md"⟩] := by decide
    unfold Db.avet
    rw [haevt, filter_cons_of_neg (by simpa using Ne.symm hne), filter_nil]
  obtain rfl := hfile a ha
  obtain hb | hb := hocc
  · obtain rfl := hfile b hb
    exact not_isAbove_self _ habove
  · apply hb
    have haevt : (worktree ["wiki/a.md"] []).aevt workDirPath = [] := by decide
    unfold Db.avet
    rw [haevt, filter_nil]

/-- The basis of a worktree with one page decides that page. -/
theorem basis_decides_example : ∃ basis,
    publicationBasis exampleHost (worktree ["wiki/a.md"] []) none none = .ok basis ∧
      publicationBefore exampleHost basis "wiki/a.md" =
        .ok (some ⟨some 0x77, some 1, some 33188⟩) := by
  have hok : (publicationBasis exampleHost (worktree ["wiki/a.md"] []) none none).isOk = true := by
    decide
  obtain ⟨basis, hbasis⟩ : ∃ basis,
      publicationBasis exampleHost (worktree ["wiki/a.md"] []) none none = .ok basis := by
    cases hbasis : publicationBasis exampleHost (worktree ["wiki/a.md"] []) none none with
    | error e => cases hbasis ▸ hok
    | ok basis => exact ⟨basis, rfl⟩
  have hadmissible : Admissible exampleView none "wiki/a.md" :=
    ⟨by decide, ⟨"a.md", rfl⟩, by decide⟩
  obtain ⟨-, -, -, -, -, hdecides⟩ := basis_decides isTree_example hbasis
  refine ⟨basis, hbasis, ((hdecides _ hadmissible).2 _).mpr ⟨by decide, rfl, ?_⟩⟩
  unfold HasDirectory
  decide

/-- What only a file elsewhere implies is not listed, and what only a deeper directory implies is in
the way. -/
theorem implied_directories :
    (publicationBasis exampleHost (worktree ["a/c.md"] []) none (some ⟨"a/b", []⟩) =
        .ok ⟨some 0, 2, "a/b", exampleHost.target ⟨[], []⟩, [], [], some ⟨"a/b", []⟩⟩ ∧
      IsAbove "a" "a/b" ∧ IsAbove "a" "a/c.md" ∧
      fileAt (worktree ["a/c.md"] []) "a/c.md" = some ⟨some 0x77, some 1, some 33188⟩) ∧
    ∃ basis, publicationBasis exampleHost (worktree [] ["a/b/d.md/e"]) none (some ⟨"a/b", []⟩) =
        .ok basis ∧ Admissible exampleView (some ⟨"a/b", []⟩) "a/b/d.md" ∧
      (∀ path, fileAt (worktree [] ["a/b/d.md/e"]) path = none) ∧
      ¬ HasDirectory (worktree [] ["a/b/d.md/e"]) "a/b/d.md" ∧
      publicationBefore exampleHost basis "a/b/d.md" =
        .error (.refused .publicationPathCollision) := by
  refine ⟨⟨by decide, ⟨"b", rfl⟩, ⟨"c.md", rfl⟩, by decide⟩, ?_⟩
  refine ⟨⟨some 4, 2, "a/b", exampleHost.target ⟨[], []⟩, [],
    ["a", "a/b", "a/b/d.md", "a/b/d.md/e"], some ⟨"a/b", []⟩⟩, by decide, ?_, ?_, ?_, ?_⟩
  · have htarget : targetPath exampleHost.toHost ⟨"a/b", []⟩ "a/b/d.md" = .ok () := by
      decide
    exact targetPath_eq_ok.mp htarget
  · intro path
    unfold fileAt Db.avet
    rfl
  · unfold HasDirectory
    decide
  · decide

end Simmis.KnowledgeInputs
