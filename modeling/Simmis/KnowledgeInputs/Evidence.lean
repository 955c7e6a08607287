import Simmis.KnowledgeInputs.Capture

/-!
# What frozen evidence proves

Every capture passes its verification and is rebuilt from the inputs that it was written to. Whatever
is rebuilt with the same manifest is the same capture, so that nothing below its folder can be altered,
removed or added unseen.
-/

namespace Simmis.KnowledgeInputs

open List Option Documents Maps ManifestFile Text Unique Prod Bool View

variable {R : Type} {codec : Codec R} {db : Db} {policy : Policy}

theorem bytesOf_decode {bytes : List UInt8} {text : String} (h : decode bytes = .ok text) :
    bytesOf text = bytes := by
  obtain ⟨-, h⟩ := require_bind_eq_ok.mp h
  unfold String.fromUTF8? at h
  split at h
  · cases h
    rfl
  · cases h

theorem length_bytesOf (text : String) : ((bytesOf text).length : ℤ) = byteCount text := by
  rfl

theorem bytesOf_injective {s t : String} (h : bytesOf s = bytesOf t) : s = t := by
  apply String.toByteArray_inj.mp
  apply ByteArray.ext
  exact Array.toList_inj.mp h

theorem inputPath_injective {a b : String} (h : inputPath a = inputPath b) : a = b := by
  unfold inputPath at h
  have hlist := congrArg String.toList h
  rw [String.toList_append, String.toList_append, append_cancel_left_eq] at hlist
  exact String.toList_inj.mp hlist

theorem inputPath_ne (path : String) : inputPath path ≠ manifestPath := by
  intro h
  have hlist := congrArg (fun s : String ↦ s.toList[14]?) h
  unfold inputPath manifestPath at hlist
  simp only [String.toList_append] at hlist
  rw [getElem?_append_left (by decide)] at hlist
  revert hlist
  decide

theorem isOwned_inputPath (path : String) : isOwned (inputPath path) := by
  exact startsWith_iff.mpr ⟨"sources/" ++ path, by
    rfl⟩

theorem isOwned_manifestPath : isOwned manifestPath := by decide

structure VerifiedManifest (codec : Codec R) (policy : Policy) (manifest : Manifest) : Prop where
  accepted : policy.Accepted codec.toHost
  fits : manifest.fitsSchema codec = true
  version : policy.version = manifest.version
  policy_eq : manifest.policy = policy.normal
  paths : (manifest.files.map ManifestFile.path).Nodup
  inputs : (manifest.files.map ManifestFile.input).Nodup
  triggerId : manifest.triggerId = codec.hashTrigger manifest.repository policy.normal
    (sorted Text.le (manifest.ofRole .trigger))
  executionId : manifest.executionId = codec.hashExecution manifest.triggerId
    (sorted Text.le (manifest.ofRole .context))
  files : ∀ file ∈ manifest.files, View.isPath codec.toHost file.path = true ∧
    file.input = inputPath file.path ∧ rolePath policy.normal file.role file.path = true

structure Verified (codec : Codec R) (policy : Policy) (captured : Captured) : Prop where
  manifest : VerifiedManifest codec policy captured.manifest
  few : captured.inputs.length ≤ maxInputFiles
  texts : ∀ text ∈ captured.inputs.map Prod.snd, byteCount text ≤ maxFileBytes
  total : ((captured.inputs.map Prod.snd).map byteCount).sum ≤ maxInputBytes
  triggerId : captured.triggerId = captured.manifest.triggerId
  executionId : captured.executionId = captured.manifest.executionId
  text : get? captured.inputs manifestPath = some (codec.print captured.manifest)
  paths : ∀ path, path ∈ captured.inputs.map Prod.fst ↔
    path ∈ manifestPath :: captured.manifest.files.map ManifestFile.input
  isEmpty : captured.isEmpty = captured.manifest.lacksTrigger
  copies : ∀ file ∈ captured.manifest.files, ∃ text, get? captured.inputs file.input = some text ∧
    file.size = (bytesOf text).length ∧ file.entry.content = some (codec.blobId (bytesOf text))

theorem Policy.Accepted.foldersOf (h : policy.Accepted codec.toHost) (role : Role) :
    foldersOf codec.toHost (policy.roots role) =
      .ok (canonical ((policy.roots role).map folder)) := by
  rw [foldersOf_eq_ok]
  cases role with
  | trigger => exact ⟨h.triggers, rfl⟩
  | context => exact ⟨h.context, rfl⟩

variable {file : ManifestFile}

theorem verifyFile_eq_ok (h : policy.Accepted codec.toHost) {u : Unit} :
    verifyFile codec policy file = .ok u ↔ isPath codec.toHost file.path ∧
      file.input = inputPath file.path ∧ rolePath policy file.role file.path := by
  have hexcluded : foldersOf codec.toHost policy.excludePrefixes =
      .ok (canonical (policy.excludePrefixes.map folder)) := foldersOf_eq_ok.mpr ⟨h.excluded, rfl⟩
  unfold verifyFile
  rw [bind_eq_ok, exists_iff, checkPath_eq_ok, h.foldersOf, hexcluded]
  exact and_congr_right fun _ ↦ require_eq_ok

variable {manifest : Manifest}

theorem verifyManifest_eq_ok {result : Manifest} :
    verifyManifest codec policy manifest = .ok result ↔
      VerifiedManifest codec policy manifest ∧ result = manifest := by
  constructor
  · intro h
    obtain ⟨normal, hnormal, h⟩ := bind_eq_ok.mp h
    obtain ⟨haccepted, rfl⟩ := normalizePolicy_eq_ok.mp hnormal
    obtain ⟨⟨hfits, hversion, hpolicy⟩, h⟩ := require_bind_eq_ok.mp h
    obtain ⟨⟨hpaths, hinputs, htrigger, hexecution⟩, h⟩ := require_bind_eq_ok.mp h
    rw [bind_eq_ok, exists_iff, forM_eq_ok] at h
    simp only [verifyFile_eq_ok haccepted.normal] at h
    refine ⟨⟨haccepted, hfits, hversion, hpolicy.symm, hpaths, hinputs, htrigger, ?_, h.1⟩,
      (Except.ok.inj h.2).symm⟩
    rw [htrigger]
    exact hexecution
  · rintro ⟨h, rfl⟩
    refine bind_eq_ok.mpr ⟨policy.normal, normalizePolicy_eq_ok.mpr ⟨h.accepted, rfl⟩, ?_⟩
    refine require_bind_eq_ok.mpr ⟨⟨h.fits, h.version, h.policy_eq.symm⟩, ?_⟩
    refine require_bind_eq_ok.mpr ⟨⟨h.paths, h.inputs, h.triggerId, ?_⟩, ?_⟩
    · rw [← h.triggerId]
      exact h.executionId
    · rw [bind_eq_ok, exists_iff, forM_eq_ok]
      simp only [verifyFile_eq_ok h.accepted.normal]
      exact ⟨h.files, rfl⟩

theorem verifyCopy_eq_ok {inputs : Inputs} {u : Unit} :
    verifyCopy codec inputs file = .ok u ↔ ∃ text, get? inputs file.input = some text ∧
      file.size = (bytesOf text).length ∧ file.entry.content = some (codec.blobId (bytesOf text)) := by
  unfold verifyCopy
  simp only [bind_eq_ok, demand_eq_ok, require_eq_ok]

variable {captured : Captured}

theorem verifyCapture_eq_ok {result : Captured} : verifyCapture codec policy captured = .ok result ↔
      Verified codec policy captured ∧ result = captured := by
  constructor
  · intro h
    obtain ⟨manifest, hmanifest, h⟩ := bind_eq_ok.mp h
    obtain ⟨hverified, rfl⟩ := verifyManifest_eq_ok.mp hmanifest
    obtain ⟨⟨hfew, htexts, htotal, htrigger, hexecution, htext⟩, h⟩ := require_bind_eq_ok.mp h
    obtain ⟨⟨hpaths, hlisted, hempty⟩, h⟩ := require_bind_eq_ok.mp h
    rw [bind_eq_ok, exists_iff, forM_eq_ok] at h
    simp only [verifyCopy_eq_ok] at h
    exact ⟨⟨hverified, hfew, htexts, htotal, htrigger, hexecution, htext,
      fun path ↦ ⟨hpaths path, hlisted path⟩, hempty, h.1⟩, (Except.ok.inj h.2).symm⟩
  · rintro ⟨h, rfl⟩
    refine bind_eq_ok.mpr ⟨result.manifest, verifyManifest_eq_ok.mpr ⟨h.manifest, rfl⟩, ?_⟩
    refine require_bind_eq_ok.mpr
      ⟨⟨h.few, h.texts, h.total, h.triggerId, h.executionId, h.text⟩, ?_⟩
    refine require_bind_eq_ok.mpr
      ⟨⟨fun path ↦ (h.paths path).mp, fun path ↦ (h.paths path).mpr, h.isEmpty⟩, ?_⟩
    rw [bind_eq_ok, exists_iff, forM_eq_ok]
    simp only [verifyCopy_eq_ok]
    exact ⟨h.copies, rfl⟩

/-- Printed manifests are read back, the hashes are injective, and the order of keys does not change
the length of a manifest. -/
structure Codec.Lawful (codec : Codec R) : Prop where
  read_print : ∀ manifest, codec.read (codec.print manifest) = some (some manifest)
  blobId_injective : Function.Injective codec.blobId
  stored : ∀ db id bytes, codec.readById db id = some bytes → codec.blobId bytes = id
  execution_injective : ∀ id files files',
    codec.hashExecution id files = codec.hashExecution id files' → files = files'
  layout : ∀ manifest layout,
    byteCount (codec.print { manifest with layout }) = byteCount (codec.print manifest)

/-- Inputs in the form of a sorted map. -/
structure IsMap (inputs : Inputs) : Prop where
  sorted : inputs.Pairwise fun p q ↦ Text.le p.1 q.1 = true
  nodup : (inputs.map (·.1)).Nodup

theorem isMap_sorted (rows : Inputs) : IsMap (sorted le rows) :=
  ⟨sorted_pairwise textLe_total textLe_trans rows, nodup_sorted _ _⟩

theorem IsMap.ext {inputs inputs' : Inputs} (h : IsMap inputs) (h' : IsMap inputs')
    (hget : ∀ path, get? inputs path = get? inputs' path) : inputs = inputs' :=
  eq_of_get? textLe_antisymm h.sorted h'.sorted h.nodup h'.nodup hget

theorem fromInputs_eq_ok (hcodec : codec.Lawful) {files : Inputs} :
    fromInputs codec policy files = .ok captured ↔
      Verified codec policy captured ∧ captured.inputs = owned files := by
  unfold fromInputs
  simp only [bind_eq_ok, demand_eq_ok]
  constructor
  · rintro ⟨text, -, u, -, value, -, h⟩
    cases value with
    | none =>
      obtain ⟨-, -, h⟩ := bind_eq_ok.mp h
      cases h
    | some manifest =>
      obtain ⟨hverified, rfl⟩ := verifyCapture_eq_ok.mp h
      exact ⟨hverified, rfl⟩
  · rintro ⟨h, hinputs⟩
    have htext := h.text
    have hbytes : byteCount (codec.print captured.manifest) ≤ maxFileBytes :=
      h.texts _ (mem_map.mpr ⟨_, mem_of_get? htext, rfl⟩)
    rw [hinputs] at htext
    refine ⟨_, htext, (), require_eq_ok.mpr hbytes, _, hcodec.read_print captured.manifest, ?_⟩
    have hsame : captured = ⟨captured.manifest.triggerId, captured.manifest.executionId,
        captured.manifest.lacksTrigger, captured.manifest, owned files⟩ := by
      rw [← h.triggerId, ← h.executionId, ← h.isEmpty, ← hinputs]
    exact verifyCapture_eq_ok.mpr ⟨hsame ▸ h, hsame⟩

theorem Verified.isOwned (h : Verified codec policy captured) {path : String}
    (hpath : path ∈ captured.inputs.map fst) : isOwned path := by
  obtain rfl | hlisted := mem_cons.mp ((h.paths path).mp hpath)
  · exact isOwned_manifestPath
  · obtain ⟨file, hfile, rfl⟩ := mem_map.mp hlisted
    rw [(h.manifest.files file hfile).2.1]
    exact isOwned_inputPath file.path

/-- What else there is among the inputs is left out. -/
theorem Verified.owned (h : Verified codec policy captured) (hmap : IsMap captured.inputs)
    {outside files : Inputs} (houtside : ∀ file ∈ outside, KnowledgeInputs.isOwned file.1 = false)
    (hfiles : files.Perm (outside ++ captured.inputs)) : owned files = captured.inputs := by
  have hnone : outside.filter (fun file ↦ KnowledgeInputs.isOwned file.1) = [] :=
    filter_eq_nil_iff.mpr fun file hfile ↦ by simp [houtside file hfile]
  have hall : captured.inputs.filter (fun file ↦ KnowledgeInputs.isOwned file.1) = captured.inputs :=
    filter_eq_self.mpr fun file hfile ↦ h.isOwned (mem_map_of_mem hfile)
  have hperm := hfiles.filter fun file ↦ KnowledgeInputs.isOwned file.1
  rw [filter_append, hnone, hall, nil_append] at hperm
  apply (isMap_sorted _).ext hmap
  intro path
  rw [get?_sorted]
  exact (get?_perm (hperm.symm.trans (reverse_perm _).symm) hmap.nodup path).symm

/-- A verified capture is determined by its manifest. -/
theorem Verified.inputs_eq (hcodec : codec.Lawful) {captured' : Captured}
    (h : Verified codec policy captured) (h' : Verified codec policy captured')
    (hmap : IsMap captured.inputs) (hmap' : IsMap captured'.inputs)
    (hmanifest : captured'.manifest = captured.manifest) : captured' = captured := by
  have hinputs : captured'.inputs = captured.inputs := by
    apply hmap'.ext hmap
    intro path
    by_cases hpath : path ∈ manifestPath :: captured.manifest.files.map input
    · obtain rfl | hlisted := mem_cons.mp hpath
      · rw [h.text, h'.text, hmanifest]
      · obtain ⟨file, hfile, rfl⟩ := mem_map.mp hlisted
        obtain ⟨text, htext, -, hcontent⟩ := h.copies file hfile
        obtain ⟨text', htext', -, hcontent'⟩ := h'.copies file (hmanifest ▸ hfile)
        have hsame := hcodec.blobId_injective (some.inj (hcontent.symm.trans hcontent'))
        rw [htext, htext', bytesOf_injective hsame]
    · have hnone : get? captured.inputs path = none := by
        rw [← not_isSome_iff_eq_none, get?_isSome, h.paths]
        exact hpath
      have hnone' : get? captured'.inputs path = none := by
        rw [← not_isSome_iff_eq_none, get?_isSome, h'.paths, hmanifest]
        exact hpath
      rw [hnone, hnone']
  cases captured
  cases captured'
  have htrigger := h.triggerId
  have htrigger' := h'.triggerId
  have hexecution := h.executionId
  have hexecution' := h'.executionId
  have hempty := h.isEmpty
  have hempty' := h'.isEmpty
  simp_all

theorem mem_roleFiles {role : Role} {file : String × View.FileEntry}
    (h : file ∈ roleFiles db policy role) :
    rolePath policy role file.1 ∧ isMarkdown file.1 ∧ file ∈ worktreeRows db := by
  obtain ⟨hrow, hcondition⟩ := mem_filter.mp (mem_sorted h)
  rw [and_eq_true] at hcondition
  exact ⟨hcondition.1, hcondition.2, hrow⟩

/-- The files of both roles, listed. -/
def bothRoles (db : Db) (policy : Policy) : List ManifestFile :=
  (roleFiles db policy .trigger).map (listed .trigger) ++
    (roleFiles db policy .context).map (listed .context)

theorem mem_bothRoles : file ∈ bothRoles db policy ↔
    (file.path, file.entry) ∈ roleFiles db policy file.role ∧ file.input = inputPath file.path := by
  unfold bothRoles
  rw [List.mem_append, List.mem_map, List.mem_map]
  constructor
  · rintro (⟨row, hrow, rfl⟩ | ⟨row, hrow, rfl⟩)
    · exact ⟨hrow, rfl⟩
    · exact ⟨hrow, rfl⟩
  · rintro ⟨hrow, hinput⟩
    obtain ⟨path, role, input, entry⟩ := file
    simp only at hrow hinput
    subst hinput
    cases role with
    | trigger => exact .inl ⟨(path, entry), hrow, rfl⟩
    | context => exact .inr ⟨(path, entry), hrow, rfl⟩

/-- What a file of a role is, as it was checked. -/
structure Checked (codec : Codec R) (file : ManifestFile) : Prop where
  isPath : View.isPath codec.toHost file.path = true
  frozen : isFrozen codec file.entry = true
  short : Text.count file.input ≤ 512

section

variable (db : Db) (policy : Policy) (role : Role)

theorem roleFiles_pairwise : (roleFiles db policy role).Pairwise fun p q ↦ le p.1 q.1 :=
  sorted_pairwise textLe_total textLe_trans _

theorem roleFiles_nodup : ((roleFiles db policy role).map (·.1)).Nodup :=
  nodup_sorted _ _

theorem filter_bothRoles : ((bothRoles db policy).filter fun file ↦ file.role = role).map
      (fun file ↦ (file.path, file.entry)) = roleFiles db policy role := by
  have hkept : ∀ role : Role, ∀ rows : FileMap, ((rows.map (listed role)).filter
      fun file ↦ file.role = role) = rows.map (listed role) := by
    intro role rows
    apply filter_eq_self.mpr
    intro file hfile
    obtain ⟨row, -, rfl⟩ := mem_map.mp hfile
    exact decide_eq_true rfl
  have hgone : ∀ role role' : Role, role' ≠ role → ∀ rows : FileMap,
      ((rows.map (listed role')).filter fun file ↦ file.role = role) = [] := by
    intro role role' hne rows
    apply filter_eq_nil_iff.mpr
    intro file hfile
    obtain ⟨row, -, rfl⟩ := mem_map.mp hfile
    simp [listed, hne]
  have hback : ∀ role : Role, ∀ rows : FileMap,
      (rows.map (listed role)).map (fun file ↦ (file.path, file.entry)) = rows := by
    intro role rows
    rw [List.map_map]
    exact map_id rows
  unfold bothRoles
  rw [filter_append]
  cases role with
  | trigger => rw [hkept, hgone _ _ (by decide), append_nil, hback]
  | context => rw [hkept, hgone _ _ (by decide), nil_append, hback]

end

theorem paths_bothRoles (h : policy.Accepted codec.toHost) :
    ((bothRoles db policy).map path).Nodup := by
  have hpaths : ∀ role : Role, ∀ rows : FileMap,
      (rows.map (listed role)).map path = rows.map (·.1) := by
    intro role rows
    rw [List.map_map]
    rfl
  unfold bothRoles
  rw [map_append, hpaths, hpaths, nodup_append]
  refine ⟨roleFiles_nodup .., roleFiles_nodup .., ?_⟩
  rintro path hpath path' hpath' rfl
  obtain ⟨row, hrow, rfl⟩ := mem_map.mp hpath
  obtain ⟨row', hrow', heq⟩ := mem_map.mp hpath'
  have hcontext := (mem_roleFiles hrow').1
  rw [heq] at hcontext
  exact h.roles_disjoint row.1 ⟨(mem_roleFiles hrow).1, hcontext⟩

theorem sorted_ofRole (role : Role) (hperm : manifest.files.Perm (bothRoles db policy)) :
    sorted le (manifest.ofRole role) = roleFiles db policy role := by
  have hrows := (hperm.filter fun file ↦ file.role = role).map
    fun file : ManifestFile ↦ (file.path, file.entry)
  rw [filter_bothRoles] at hrows
  exact sorted_of_perm textLe_total textLe_trans textLe_antisymm hrows (roleFiles_pairwise ..)
    (roleFiles_nodup ..)

variable {selected : Selected}

theorem count_pos {text : String} (h : text ≠ "") : 1 ≤ Text.count text := by
  have hlength := length_le_count text
  have hne : text.toList ≠ [] := fun hnil ↦ h (String.toList_inj.mp hnil)
  have hpos := length_pos_iff.mpr hne
  omega

theorem inputPath_ne_empty (path : String) : inputPath path ≠ "" := by
  intro h
  have hlist := congrArg (fun s : String ↦ s.toList[0]?) h
  unfold inputPath at hlist
  simp only [String.toList_append] at hlist
  rw [getElem?_append_left (by decide)] at hlist
  revert hlist
  decide

/-- A manifest over checked files of both roles, with its own identities, is verified. -/
theorem verifiedManifest_of_perm (haccepted : policy.Accepted codec.toHost)
    (hpolicy : manifest.policy = policy.normal) (hversion : manifest.version = policy.version)
    (hfew : manifest.files.length ≤ 99) (hperm : manifest.files.Perm (bothRoles db policy.normal))
    (hchecked : ∀ file ∈ manifest.files, Checked codec file)
    (htrigger : manifest.triggerId = codec.hashTrigger manifest.repository policy.normal
      (roleFiles db policy.normal .trigger))
    (hexecution : manifest.executionId = codec.hashExecution manifest.triggerId
      (roleFiles db policy.normal .context)) : VerifiedManifest codec policy manifest := by
  have hfile : ∀ file ∈ manifest.files, (file.path, file.entry) ∈
      roleFiles db policy.normal file.role ∧ file.input = inputPath file.path :=
    fun file hfile ↦ mem_bothRoles.mp (hperm.mem_iff.mp hfile)
  have hpaths : (manifest.files.map path).Nodup :=
    (hperm.map _).nodup_iff.mpr (paths_bothRoles haccepted.normal)
  have hinputs : manifest.files.map input = (manifest.files.map path).map inputPath := by
    rw [List.map_map]
    exact map_congr_left fun file hmem ↦ (hfile file hmem).2
  refine ⟨haccepted, ?_, hversion.symm, hpolicy, hpaths, ?_, ?_, ?_, ?_⟩
  · unfold Manifest.fitsSchema
    rw [decide_eq_true_eq, hpolicy, hversion]
    refine ⟨haccepted.version, haccepted.normal.fits, hfew, all_eq_true.mpr ?_⟩
    intro file hmem
    obtain ⟨hpath, hfrozen, hshort⟩ := hchecked file hmem
    have hlong := (isPath_iff.mp hpath).1
    unfold isExact at hlong
    rw [decide_eq_true_eq] at hlong
    have hinput : 1 ≤ Text.count file.input := by
      rw [(hfile file hmem).2]
      exact count_pos (inputPath_ne_empty file.path)
    simp only [and_eq_true, isBounded, decide_eq_true_eq]
    exact ⟨⟨⟨hlong.1, hlong.2.1⟩, hinput, hshort⟩, hfrozen⟩
  · rw [hinputs]
    exact hpaths.map fun _ _ ↦ inputPath_injective
  · rw [sorted_ofRole .trigger hperm]
    exact htrigger
  · rw [sorted_ofRole .context hperm]
    exact hexecution
  · intro file hmem
    exact ⟨(hchecked file hmem).isPath, (hfile file hmem).2, (mem_roleFiles (hfile file hmem).1).1⟩

theorem copyFile_eq_ok (hcodec : codec.Lawful) {copy : String × String}
    (h : copyFile codec db file = .ok copy) : copy.1 = file.input ∧
      file.size = (bytesOf copy.2).length ∧
        file.entry.content = some (codec.blobId (bytesOf copy.2)) := by
  obtain ⟨bytes, hbytes, h⟩ := bind_eq_ok.mp h
  obtain ⟨hsize, h⟩ := require_bind_eq_ok.mp h
  obtain ⟨text, htext, h⟩ := bind_eq_ok.mp h
  cases h
  rw [demand_eq_ok] at hbytes
  obtain ⟨id, hid, hread⟩ := bind_eq_some_iff.mp hbytes
  rw [bytesOf_decode htext, hcodec.stored db id bytes hread]
  exact ⟨rfl, hsize, hid⟩

theorem copies_eq (hcodec : codec.Lawful) {files : List ManifestFile} {copies : Inputs}
    (h : files.mapM (copyFile codec db) = .ok copies) : copies.map fst = files.map input ∧
      (copies.map snd).map byteCount = files.map size := by
  induction files generalizing copies with
  | nil =>
    cases h
    exact ⟨rfl, rfl⟩
  | cons file files ih =>
    obtain ⟨copy, rest, hcopy, hrest, rfl⟩ := mapM_cons_eq_ok.mp h
    obtain ⟨hpath, hsize, -⟩ := copyFile_eq_ok hcodec hcopy
    obtain ⟨hpaths, hsizes⟩ := ih hrest
    rw [map_cons, map_cons, map_cons, map_cons, map_cons, hpaths, hsizes,
      hpath, hsize, length_bytesOf]
    exact ⟨rfl, rfl⟩

/-- The copies of checked files are what the manifest lists. -/
theorem captureSelected_verified (hcodec : codec.Lawful)
    (hmanifest : VerifiedManifest codec policy selected.manifest)
    (htrigger : selected.triggerId = selected.manifest.triggerId)
    (hexecution : selected.executionId = selected.manifest.executionId)
    (hempty : selected.isEmpty = selected.manifest.lacksTrigger)
    (htext : selected.manifestText = codec.print selected.manifest)
    (htextBytes : byteCount selected.manifestText ≤ maxFileBytes)
    (hbytes : byteCount selected.manifestText + selected.manifest.size ≤ maxInputBytes)
    (h : captureSelected codec db selected = .ok captured) :
    Verified codec policy captured ∧ IsMap captured.inputs := by
  obtain ⟨copies, hcopies, h⟩ := bind_eq_ok.mp h
  cases h
  refine ⟨?_, isMap_sorted _⟩
  obtain ⟨hpaths, hsizes⟩ := copies_eq hcodec hcopies
  have hfits := hmanifest.fits
  unfold Manifest.fitsSchema at hfits
  rw [decide_eq_true_eq] at hfits
  have hkeys : ((manifestPath, selected.manifestText) :: copies).map fst =
      manifestPath :: selected.manifest.files.map input := by
    rw [map_cons, hpaths]
  have hfresh : manifestPath ∉ selected.manifest.files.map input := by
    intro hmem
    obtain ⟨file, hfile, hinput⟩ := mem_map.mp hmem
    rw [(hmanifest.files file hfile).2.1] at hinput
    exact inputPath_ne file.path hinput
  have hnodup : (((manifestPath, selected.manifestText) :: copies).map (·.1)).Nodup := by
    rw [hkeys]
    exact nodup_cons.mpr ⟨hfresh, hmanifest.inputs⟩
  have hperm := perm_sorted le hnodup
  have hget : ∀ row ∈ (manifestPath, selected.manifestText) :: copies,
      get? (sorted le ((manifestPath, selected.manifestText) :: copies)) row.1 = some row.2 :=
    fun row hrow ↦ get?_of_mem (nodup_sorted _ _) (hperm.mem_iff.mpr hrow)
  refine ⟨hmanifest, ?_, ?_, ?_, htrigger, hexecution, ?_, ?_, hempty, ?_⟩
  · have hlength : copies.length = selected.manifest.files.length := by
      simpa using congrArg length hpaths
    rw [hperm.length_eq, length_cons, hlength]
    unfold maxInputFiles
    omega
  · intro text hmem
    rw [(hperm.map snd).mem_iff, map_cons, mem_cons] at hmem
    obtain rfl | hcopy := hmem
    · exact htextBytes
    · have hsize := mem_map_of_mem (f := byteCount) hcopy
      rw [hsizes] at hsize
      obtain ⟨file, hfile, hsize⟩ := mem_map.mp hsize
      have hfrozen := all_eq_true.mp hfits.2.2.2 file hfile
      simp only [and_eq_true, isFrozen, decide_eq_true_eq] at hfrozen
      obtain ⟨n, hn, hbounds⟩ := (any_eq_true _ _).mp hfrozen.2.2.1
      rw [decide_eq_true_eq] at hbounds
      rw [← hsize, size, hn]
      exact hbounds.2
  · calc
      (((sorted le ((manifestPath, selected.manifestText) :: copies)).map snd).map
          byteCount).sum =
          ((((manifestPath, selected.manifestText) :: copies).map snd).map byteCount).sum :=
        ((hperm.map _).map _).sum_eq
      _ = byteCount selected.manifestText + selected.manifest.size := by
        rw [map_cons, map_cons, sum_cons, hsizes]
        rfl
      _ ≤ maxInputBytes := hbytes
  · rw [← htext]
    exact hget _ (mem_cons_self ..)
  · intro path
    rw [(hperm.map fst).mem_iff, hkeys]
  · intro file hfile
    obtain ⟨copy, hmem, hcopy⟩ := mem_mapM hcopies hfile
    obtain ⟨hpath, hsize, hcontent⟩ := copyFile_eq_ok hcodec hcopy
    exact ⟨copy.2, hpath ▸ hget copy (mem_cons_of_mem _ hmem), hsize, hcontent⟩

theorem captureFiles_verified {files : List ExplicitFile}
    (h : captureFiles codec db policy files = .ok captured) :
    Verified codec policy captured ∧ IsMap captured.inputs := by
  obtain ⟨selected, -, h⟩ := bind_eq_ok.mp h
  obtain ⟨captured', hcaptured, h⟩ := bind_eq_ok.mp h
  obtain ⟨hverified, rfl⟩ := verifyCapture_eq_ok.mp h
  obtain ⟨copies, -, hcopies⟩ := bind_eq_ok.mp hcaptured
  cases hcopies
  exact ⟨hverified, isMap_sorted _⟩

section

variable (h : Selects codec db policy selected)
include h

theorem Selects.files_perm : selected.manifest.files.Perm (bothRoles db policy.normal) := by
  rw [h.manifest]
  exact perm_insertionSort _ _

theorem Selects.mem_files : file ∈ selected.manifest.files ↔
      (file.path, file.entry) ∈ roleFiles db policy.normal file.role ∧
        file.input = inputPath file.path :=
  h.files_perm.mem_iff.trans mem_bothRoles

theorem Selects.checked_file (hfile : file ∈ selected.manifest.files) : Checked codec file := by
  have hrow := (h.mem_files.mp hfile).1
  obtain ⟨hpath, hchecked⟩ := require_bind_eq_ok.mp (h.checked file.role _ hrow)
  rw [require_eq_ok] at hchecked
  obtain ⟨hcontent, hsize, hmode⟩ := hchecked
  obtain ⟨hlarge, hlisted⟩ := require_bind_eq_ok.mp (h.listed file hfile)
  obtain ⟨hshort, -⟩ := require_bind_eq_ok.mp hlisted
  refine ⟨hpath, decide_eq_true ⟨hcontent, ?_, hmode⟩, hshort⟩
  obtain ⟨n, hn, hbounds⟩ := (any_eq_true _ _).mp hsize
  rw [decide_eq_true_eq] at hbounds
  unfold size at hlarge
  rw [hn, getD_some] at hlarge
  rw [hn]
  exact decide_eq_true ⟨hbounds.1, hlarge⟩

theorem Selects.verifiedManifest : VerifiedManifest codec policy selected.manifest := by
  have hmanifest := h.manifest
  have hfew := h.few
  have hchecked : ∀ file ∈ selected.manifest.files, Checked codec file :=
    fun file hfile ↦ h.checked_file hfile
  apply verifiedManifest_of_perm h.accepted _ _ _ h.files_perm hchecked
  · rw [hmanifest]
    rfl
  · rw [hmanifest]
    rfl
  · rw [hmanifest]
    rfl
  · rw [hmanifest]
    rfl
  · unfold maxInputFiles at hfew
    omega

theorem Selects.lacksTrigger : selected.isEmpty = selected.manifest.lacksTrigger := by
  rw [h.isEmpty, Bool.eq_iff_iff, List.isEmpty_iff, Manifest.lacksTrigger, List.all_eq_true]
  constructor
  · intro hnil file hfile
    have hrow := (h.mem_files.mp hfile).1
    rw [decide_eq_true_eq]
    intro htrigger
    rw [htrigger, hnil] at hrow
    cases hrow
  · intro hall
    rw [eq_nil_iff_forall_not_mem]
    intro row hrow
    have hfile : KnowledgeInputs.listed .trigger row ∈ selected.manifest.files :=
      h.mem_files.mpr ⟨hrow, rfl⟩
    exact absurd rfl (of_decide_eq_true (hall _ hfile))

end

/-- Every capture passes its verification. -/
theorem capture_verified (hcodec : codec.Lawful) (h : capture codec db policy = .ok captured) :
    Verified codec policy captured ∧ IsMap captured.inputs := by
  obtain ⟨selected, hselected, hcaptured⟩ := bind_eq_ok.mp h
  have hselects := selection_selects hselected
  exact captureSelected_verified hcodec hselects.verifiedManifest hselects.triggerId
    hselects.executionId hselects.lacksTrigger hselects.text hselects.textBytes hselects.bytes
    hcaptured

/-- A listed file, named explicitly. -/
def ManifestFile.explicit (file : ManifestFile) : ExplicitFile := ⟨file.path, file.role, file.entry⟩

/-- The path of a file is a unique attribute of the worktree. -/
def UniquePaths (db : Db) : Prop := ((worktreeRows db).map (·.1)).Nodup

theorem first_of_mem {file : String × View.FileEntry} (rows : List Datom) :
    ((rows.filterMap fun d ↦ match d.v with
      | .string path => some (path, fileEntry db d.e)
      | _ => none).map (·.1)).Nodup → file ∈ (rows.filterMap fun d ↦
      match d.v with
      | .string path => some (path, fileEntry db d.e)
      | _ => none) → ((rows.filter fun d ↦ d.v = .string file.1).head?.map
        fun d ↦ fileEntry db d.e) = some file.2 := by
  induction rows with
  | nil => exact fun _ hmem ↦ absurd hmem not_mem_nil
  | cons d rows ih =>
    intro hnodup hmem
    cases hv : d.v with
    | string path =>
      simp only [filterMap_cons, hv, map_cons, nodup_cons] at hnodup hmem
      obtain rfl | hlater := mem_cons.mp hmem
      · simp [hv]
      · have hne : path ≠ file.1 := fun heq ↦ hnodup.1 (heq ▸ mem_map_of_mem hlater)
        rw [filter_cons_of_neg (by simpa [hv] using hne)]
        exact ih hnodup.2 hlater
    | _ =>
      simp only [filterMap_cons, hv] at hnodup hmem
      rw [filter_cons_of_neg (by simp [hv])]
      exact ih hnodup hmem

theorem fileAt_of_mem (hunique : UniquePaths db)
    {file : String × View.FileEntry} (hfile : file ∈ worktreeRows db) :
    fileAt db file.1 = some file.2 :=
  first_of_mem _ hunique hfile

/-- Naming what was selected selects it again. -/
theorem selectionOfFiles_selected (hcodec : codec.Lawful)
    (hunique : UniquePaths db) (h : Selects codec db policy selected) :
    ∃ explicit, selectionOfFiles codec db policy
        (selected.manifest.files.map ManifestFile.explicit) = .ok explicit ∧
      explicit.triggerId = selected.triggerId ∧ explicit.executionId = selected.executionId ∧
      explicit.manifest.files = selected.manifest.files := by
  have htotal : Std.Total fun a b : ManifestFile ↦ le a.path b.path :=
    ⟨fun a b ↦ textLe_total a.path b.path⟩
  have htrans : IsTrans ManifestFile fun a b ↦ le a.path b.path :=
    ⟨fun a b c ↦ textLe_trans a.path b.path c.path⟩
  have hpairwise : selected.manifest.files.Pairwise fun a b ↦ le a.path b.path := by
    rw [h.manifest]
    exact pairwise_insertionSort (fun a b : ManifestFile ↦ le a.path b.path) _
  have hsorted : (selected.manifest.files.map explicit).insertionSort
      (fun a b ↦ le a.path b.path) = selected.manifest.files.map explicit :=
    (pairwise_map.mpr hpairwise).insertionSort_eq
  have hverified := h.verifiedManifest
  have hpaths : ((selected.manifest.files.map explicit).map ExplicitFile.path).Nodup := by
    rw [List.map_map]
    exact hverified.paths
  have hofRole : ∀ role, filesOf (selected.manifest.files.map explicit) role =
      roleFiles db policy.normal role := by
    intro role
    rw [← sorted_ofRole role h.files_perm]
    unfold filesOf Manifest.ofRole
    rw [List.filter_map, List.map_map]
    rfl
  have hfiles : ((selected.manifest.files.map explicit).map
      fun file ↦ (⟨file.path, file.role, inputPath file.path, file.entry⟩ : ManifestFile)) =
      selected.manifest.files := by
    rw [List.map_map]
    have hsame : ∀ file ∈ selected.manifest.files, ((fun file : ExplicitFile ↦
        (⟨file.path, file.role, inputPath file.path, file.entry⟩ : ManifestFile)) ∘
          explicit) file = id file := by
      intro file hfile
      have hinput := (h.mem_files.mp hfile).2
      obtain ⟨path, role, input, entry⟩ := file
      simp only at hinput
      rw [hinput]
      rfl
    rw [List.map_congr_left hsame, List.map_id]
  have hchecks : (selected.manifest.files.map explicit).forM
      (checkExplicit codec db policy.normal) = .ok () := by
    rw [forM_eq_ok]
    intro explicit hexplicit
    obtain ⟨file, hfile, rfl⟩ := mem_map.mp hexplicit
    obtain ⟨hrow, hinput⟩ := h.mem_files.mp hfile
    obtain ⟨hrole, hmarkdown, hworktree⟩ := mem_roleFiles hrow
    obtain ⟨-, hlisted⟩ := require_bind_eq_ok.mp (h.listed file hfile)
    obtain ⟨hshort, hsize⟩ := require_bind_eq_ok.mp hlisted
    unfold checkExplicit
    rw [bind_eq_ok, exists_iff, checkPath_eq_ok, require_eq_ok]
    exact ⟨(h.checked_file hfile).isPath, hmarkdown, (fileAt_of_mem hunique hworktree).symm,
      require_eq_ok.mp hsize, hrole, hinput ▸ hshort⟩
  have hschema : (selected.manifest.files.map explicit).length ≤ 99 ∧
      ∀ file ∈ selected.manifest.files.map explicit,
        isBounded 1 file.path ∧ isFrozen codec file.entry := by
    have hfits := hverified.fits
    unfold Manifest.fitsSchema at hfits
    rw [decide_eq_true_eq] at hfits
    refine ⟨(length_map _).trans_le hfits.2.2.1, fun explicit hexplicit ↦ ?_⟩
    obtain ⟨file, hfile, rfl⟩ := mem_map.mp hexplicit
    have hfile := all_eq_true.mp hfits.2.2.2 file hfile
    rw [and_eq_true, and_eq_true] at hfile
    exact ⟨hfile.1.1, hfile.2⟩
  have hmanifest : (⟨.explicit, policy.normal.version, selected.manifest.repository, policy.normal,
      codec.hashTrigger selected.manifest.repository policy.normal
        (roleFiles db policy.normal .trigger),
      codec.hashExecution (codec.hashTrigger selected.manifest.repository policy.normal
        (roleFiles db policy.normal .trigger)) (roleFiles db policy.normal .context),
      selected.manifest.files⟩ : Manifest) = { selected.manifest with layout := .explicit } := by
    conv_rhs => rw [h.manifest]
    rw [h.manifest]
    rfl
  have hprint := hcodec.layout selected.manifest .explicit
  rw [← hmanifest, ← h.text] at hprint
  have htrigger : selected.triggerId = codec.hashTrigger selected.manifest.repository policy.normal
      (roleFiles db policy.normal .trigger) := by
    rw [h.triggerId, h.manifest]
    rfl
  have hexecution : selected.executionId = codec.hashExecution selected.triggerId
      (roleFiles db policy.normal .context) := by
    rw [h.executionId, htrigger, h.manifest]
    rfl
  rw [← htrigger, ← hexecution] at hmanifest hprint
  refine ⟨⟨selected.triggerId, selected.executionId, selected.isEmpty,
    { selected.manifest with layout := .explicit },
    codec.print { selected.manifest with layout := .explicit }⟩, ?_, rfl, rfl, rfl⟩
  unfold selectionOfFiles
  refine bind_eq_ok.mpr ⟨_, normalizePolicy_eq_ok.mpr ⟨h.accepted, rfl⟩, ?_⟩
  refine require_bind_eq_ok.mpr ⟨hschema, ?_⟩
  rw [hsorted]
  refine require_bind_eq_ok.mpr ⟨hpaths, ?_⟩
  refine bind_eq_ok.mpr ⟨(), hchecks, bind_eq_ok.mpr ⟨_, demand_eq_ok.mpr h.repository, ?_⟩⟩
  simp only [hofRole, hfiles]
  rw [← htrigger, ← hexecution, hmanifest, ← h.isEmpty]
  rw [hmanifest] at hprint
  refine require_bind_eq_ok.mpr ⟨hprint ▸ h.textBytes, require_bind_eq_ok.mpr ⟨?_, rfl⟩⟩
  have hbytes := h.bytes
  rw [← hprint] at hbytes
  exact hbytes

end Simmis.KnowledgeInputs
