import Simmis.Documents.Staging
import Simmis.Documents.View

/-!
# Freshness

A view that is current for a database is the view that preparing the database would give. Only a
selected file whose path is not exact is an error, the one with which preparing fails.
-/

namespace Simmis.Documents.View

open List Option Properties Canonical Constraints

variable {R : Type} {host : Host R} {db db' : Db} {options : Options}

variable {u : Unit}

/-- A canonical base has nothing of a projection, so that nobody can own any of it. -/
theorem projectionOwnership_of_base (h : canonicalBase db false = .ok u) :
    projectionOwnership db = .ok () := by
  simp only [canonicalBase, bind_eq_ok, require_eq_ok] at h
  obtain ⟨-, -, -, -, u, hschema, -, -, hempty⟩ := h
  have hnone (attr : Keyword) (hattr : attr ∈ projectionAttributes.map (·.1)) :
      db.aevt attr = [] := by
    obtain ⟨p, hp, rfl⟩ := mem_map.mp hattr
    exact isEmpty_iff.mp (hempty.resolve_left Bool.false_ne_true p hp)
  have hid : db.aevt (kw "document" "id") = [] := hnone _ (by decide)
  have hkind : db.aevt (kw "document.node" "kind") = [] := hnone _ (by decide)
  have hblock : db.aevt (kw "document.block" "id") = [] := hnone _ (by decide)
  simp only [projectionOwnership, hid, hkind, hblock, hschema, bind_eq_ok, require_eq_ok]
  simp [reachable]

theorem canonicalBase_throws (ownDerived : Bool) :
    Throws (fun e ↦ ∃ reason, e = .view reason) (canonicalBase db ownDerived) := by
  have hview (reason : Reason) : ∃ reason', Error.view reason = .view reason' := ⟨reason, rfl⟩
  unfold canonicalBase projectionSchema
  exact .bind (.require (hview _)) fun _ _ ↦ .bind (.require (hview _)) fun _ _ ↦
    .bind (.require (hview _)) fun _ _ ↦ .bind (.require (hview _)) fun _ _ ↦ .require (hview _)

theorem selection_eq_ok {selected : Selection R} (h : selection host db options = .ok selected) :
    (options.entityProfile.isSome → options.propertyBindings = []) ∧
      selected.files = selectedFiles db selected.roots selected.excludePrefixes := by
  simp only [selection, bind_eq_ok, require_eq_ok, demand_eq_ok] at h
  obtain ⟨-, -, -, -, -, -, u, hbindings, revision, -, roots, -, excluded, -, id, -, -, -, -, -, -, -,
    -, -, schema, -, h⟩ := h
  cases h
  exact ⟨hbindings, rfl⟩

/-- Without trusted bindings a selection refuses, or it throws at a path. -/
theorem selection_throws (hbindings : options.propertyBindings = []) :
    Throws (fun e ↦ (∃ reason, e = .view reason) ∨ e = .path) (selection host db options) := by
  have hview (reason : Reason) :
      (∃ reason', Error.view reason = .view reason') ∨ Error.view reason = .path := .inl ⟨_, rfl⟩
  have hprefixes (paths : List String) :
      Throws (fun e ↦ (∃ reason, e = .view reason) ∨ e = .path) (policyPrefixes paths) := by
    exact .bind (.require (hview _)) fun _ _ ↦ .bind (.require (hview _)) fun _ _ ↦ .ok _
  have hfile (file : String × FileEntry) :
      Throws (fun e ↦ (∃ reason, e = .view reason) ∨ e = .path) (checkFile host file) := by
    exact .bind (.require (.inr rfl)) fun _ _ ↦ .require (hview _)
  have hschema : compileSchema host.hashBindings db [] = .ok ([], host.hashBindings []) := rfl
  unfold selection
  rw [hbindings, hschema]
  exact .bind (.require (hview _)) fun _ _ ↦ .bind (.require (hview _)) fun _ _ ↦
    .bind (.require (hview _)) fun _ _ ↦ .bind (.require (hview _)) fun _ _ ↦
    .bind (.demand (hview _)) fun _ _ ↦ .bind (hprefixes _) fun _ _ ↦
    .bind (hprefixes _) fun _ _ ↦ .bind (.demand (hview _)) fun _ _ ↦
    .bind (.require (hview _)) fun _ _ ↦ .bind (.require (hview _)) fun _ _ ↦
    .bind (.forM hfile _) fun _ _ ↦ .bind (.require (hview _)) fun _ _ ↦ .ok _

/-- The body and the size of a content are the same in two databases. -/
def SameContent (host : Host R) (db db' : Db) (id : Uuid) : Prop :=
  contentSize db' id = contentSize db id ∧ host.readById db' id = host.readById db id

theorem analyzeFile_congr {repositoryId : Uuid} {bindings : List (String × Binding)}
    {file : String × FileEntry} (hsame : ∀ id, file.2.content = some id → SameContent host db db' id)
    (s : List Document × ℕ) : analyzeFile host db' repositoryId bindings s file =
      analyzeFile host db repositoryId bindings s file := by
  obtain ⟨path, content, size, mode⟩ := file
  cases content with
  | none => rfl
  | some id =>
    obtain ⟨hsize, hbody⟩ := hsame id rfl
    simp only [analyzeFile, bind_some, hsize, hbody]

theorem analyzeFile_plain {repositoryId : Uuid} {bindings : List (String × Binding)}
    {file : String × FileEntry} {s t : List Document × ℕ} (hs : ∀ d ∈ s.1, d.canonical = none)
    (h : analyzeFile host db repositoryId bindings s file = .ok t) :
    ∀ d ∈ t.1, d.canonical = none := by
  unfold analyzeFile at h
  simp only [bind_eq_ok] at h
  obtain ⟨-, -, bytes, -, -, -, parsed, -, semantic, -, -, -, h⟩ := h
  cases h
  intro d hd
  obtain hold | hlast := mem_append.mp hd
  · exact hs d hold
  · obtain rfl := mem_singleton.mp hlast
    rfl

/-- The transaction of a canonical view is its documents. -/
theorem transaction_of_base (hbase : canonicalBase db false = .ok u)
    (documents : List Document) : transaction db documents true = documents.map .project := by
  simp only [canonicalBase, bind_eq_ok, require_eq_ok] at hbase
  obtain ⟨-, -, -, hcontains, -⟩ := hbase
  have hmissing : (projectionAttributes.filter fun attr ↦ ¬ db.contains attr.1) = [] :=
    filter_eq_nil_iff.mpr fun attr hattr ↦ by simp [hcontains attr hattr]
  simp only [transaction, hmissing]
  rfl

variable {view : KnowledgeView R}

theorem prepare_eq_ok (h : prepare host db options = .ok view) :
    ∃ a, analyze host db options = .ok a ∧ view.selection = a.selection ∧
      view.documents = a.documents ∧ view.diagnostics = a.diagnostics ∧
      view.typedScopes = ((a.canonicalResult.map Canonical.Result.scopes).getD []) ∧
      view.constraintDependencies = a.canonicalResult.bind Canonical.Result.dependencies ∧
      (view.status = .ready → a.diagnostics.isEmpty) := by
  obtain ⟨a, ha, h⟩ := bind_eq_ok.mp h
  cases h
  refine ⟨a, ha, rfl, rfl, rfl, ?_, ?_, fun hready ↦ ?_⟩
  · cases a.canonicalResult <;> rfl
  · cases a.canonicalResult <;> rfl
  · split at hready
    · next hempty => exact hempty
    · cases hready

section

variable (hprofile : options.entityProfile.isSome = true) {a : Analysis R}
include hprofile

theorem analyze_eq_ok (h : analyze host db options = .ok a) :
    ∃ u nodes result, selection host db options = .ok a.selection ∧ canonicalBase db false = .ok u ∧
      a.selection.files.foldlM (analyzeFile host db a.selection.repositoryId []) ([], 0) =
        .ok (a.documents, nodes) ∧
      Canonical.prepare host.hashScope host.java host.prStr db a.documents = .ok result ∧
      a.canonicalResult = some result ∧
      a.diagnostics = a.documents.flatMap Document.diagnostics ++ result.diagnostics ++
        duplicates a.documents := by
  obtain ⟨selected, hselected, h⟩ := bind_eq_ok.mp h
  have hbindings := (selection_eq_ok hselected).1 hprofile
  have hschema : compileSchema host.hashBindings db [] = .ok ([], host.hashBindings []) := rfl
  obtain ⟨u, hbase, h⟩ := bind_eq_ok.mp h
  obtain ⟨-, -, h⟩ := bind_eq_ok.mp h
  rw [hbindings, hschema] at h
  obtain ⟨schema, hs, h⟩ := bind_eq_ok.mp h
  cases hs
  obtain ⟨⟨documents, nodes⟩, hdocuments, h⟩ := bind_eq_ok.mp h
  obtain ⟨result?, hresult, h⟩ := bind_eq_ok.mp h
  rw [if_pos hprofile] at hbase
  rw [canonicalStage, if_pos hprofile] at hresult
  obtain ⟨result, hprepared, hsome⟩ := map_eq_ok.mp hresult
  cases h
  cases hsome
  exact ⟨u, nodes, result, hselected, hbase, hdocuments, hprepared, rfl, rfl⟩

/-- Databases with the same selection, contents and canonical stage have one analysis. -/
theorem analyze_replays (hselected : selection host db' options = .ok a.selection)
    (hbase : canonicalBase db' false = .ok u)
    (hbodies : ∀ file ∈ a.selection.files, ∀ id, file.2.content = some id →
      SameContent host db db' id) (hstage : ∀ result, a.canonicalResult = some result →
      Canonical.prepare host.hashScope host.java host.prStr db' a.documents = .ok result)
    (h : analyze host db options = .ok a) : analyze host db' options = .ok a := by
  obtain ⟨-, nodes, result, -, -, hdocuments, -, hsome, hdiagnostics⟩ := analyze_eq_ok hprofile h
  have hdocuments' : a.selection.files.foldlM (analyzeFile host db' a.selection.repositoryId [])
      ([], 0) = .ok (a.documents, nodes) :=
    (foldlM_congr (fun file hfile s ↦ analyzeFile_congr (hbodies file hfile) s) _).trans hdocuments
  have hresult : canonicalStage host db' options a.documents = .ok (some result) := by
    rw [canonicalStage, if_pos hprofile]
    exact map_eq_ok.mpr ⟨result, hstage result hsome, rfl⟩
  have hschema : compileSchema host.hashBindings db' options.propertyBindings =
      .ok ([], host.hashBindings []) := by
    rw [(selection_eq_ok hselected).1 hprofile]
    rfl
  refine bind_eq_ok.mpr ⟨_, hselected, bind_eq_ok.mpr ⟨u, ?_, ?_⟩⟩
  · rw [if_pos hprofile]
    exact hbase
  · refine bind_eq_ok.mpr ⟨(), projectionOwnership_of_base hbase, ?_⟩
    refine bind_eq_ok.mpr ⟨_, hschema, bind_eq_ok.mpr ⟨_, hdocuments', ?_⟩⟩
    refine bind_eq_ok.mpr ⟨_, hresult, ?_⟩
    obtain ⟨selected, documents, result?, diagnostics⟩ := a
    cases hsome
    dsimp only at hdiagnostics
    subst hdiagnostics
    rfl

/-- The same analysis of a canonical base gives the same view. -/
theorem prepare_congr {u' : Unit} (hbase : canonicalBase db false = .ok u)
    (hbase' : canonicalBase db' false = .ok u') (ha : analyze host db options = .ok a)
    (ha' : analyze host db' options = .ok a) :
    prepare host db' options = prepare host db options := by
  simp only [prepare, ha, ha', hprofile, transaction_of_base hbase, transaction_of_base hbase']

end

variable [DecidableEq R]

variable {ownDerived : Bool}

theorem recheck_eq_ok (hprofile : options.entityProfile.isSome)
    (h : recheck host db options view ownDerived = .ok true) :
    selection host db options = .ok view.selection ∧ ∃ u, canonicalBase db ownDerived = .ok u ∧
      Canonical.isCurrent host.hashScope db view.typedScopes view.constraintDependencies
        ownDerived = .ok true ∧ (ownDerived ∨ sourceAvailable db view.documents) := by
  obtain ⟨selected, hselected, h⟩ := bind_eq_ok.mp h
  by_cases hsame : view.selection = selected
  · rw [if_pos hsame, if_pos hprofile] at h
    obtain ⟨u, hbase, h⟩ := bind_eq_ok.mp h
    obtain ⟨typed, htyped, h⟩ := bind_eq_ok.mp h
    have hboth : typed ∧ (ownDerived ∨ sourceAvailable db view.documents) := by
      simpa using Except.ok.inj h
    rw [hboth.1] at htyped
    exact ⟨hsame ▸ hselected, u, hbase, htyped, hboth.2⟩
  · rw [if_neg hsame] at h
    cases h

theorem isCurrent_eq_ok (h : isCurrent host db options view ownDerived = .ok true) :
    recheck host db options view ownDerived = .ok true := by
  unfold isCurrent at h
  split at h
  · split at h <;> cases h
  · exact h

theorem rebuilt (hinj : Function.Injective host.hashScope) (hprofile : options.entityProfile.isSome)
    (hbodies : ∀ file ∈ view.selection.files, ∀ id, file.2.content = some id →
      SameContent host db db' id)
    (hprepared : prepare host db options = .ok view) (hready : view.status = .ready)
    (hcurrent : recheck host db' options view false = .ok true) :
    prepare host db' options = .ok view := by
  obtain ⟨a, ha, hselection, hdocuments, -, hscopes, hdependencies, hempty⟩ :=
    prepare_eq_ok hprepared
  obtain ⟨hselected, u', hbase', htyped, havailable⟩ := recheck_eq_ok hprofile hcurrent
  obtain ⟨u, nodes, result, -, hbase, hanalyzed, hstage, hsome, hdiagnostics⟩ :=
    analyze_eq_ok hprofile ha
  have hplain : ∀ d ∈ a.documents, d.canonical = none :=
    foldlM_keeps (p := fun s ↦ ∀ d ∈ s.1, d.canonical = none)
      (fun _ _ _ _ hs ht ↦ analyzeFile_plain hs ht) (fun d hd ↦ absurd hd not_mem_nil)
      hanalyzed
  have hclean : result.diagnostics.isEmpty := by
    have hall := isEmpty_iff.mp (hempty hready)
    rw [hdiagnostics] at hall
    simp only [append_eq_nil_iff] at hall
    exact isEmpty_iff.mpr hall.1.2
  have htyped' : Canonical.isCurrent host.hashScope db' result.scopes result.dependencies false =
      .ok true := by
    rw [hscopes, hdependencies, hsome] at htyped
    exact htyped
  have hagain : Canonical.prepare host.hashScope host.java host.prStr db' a.documents =
      .ok result := by
    refine prepare_replays hinj hplain hclean htyped' ?_ hstage
    rw [← hdocuments]
    exact havailable.resolve_left Bool.false_ne_true
  have ha' : analyze host db' options = .ok a := by
    refine analyze_replays hprofile (hselection ▸ hselected) hbase' (hselection ▸ hbodies) ?_ ha
    intro result' hresult'
    rw [hsome] at hresult'
    cases hresult'
    exact hagain
  rw [prepare_congr hprofile hbase hbase' ha ha']
  exact hprepared

/-- Something that went into a view differs between two databases. -/
inductive Differs (host : Host R) (db db' : Db) (view : KnowledgeView R) : Prop
  | files (h : selectedFiles db' view.selection.roots view.selection.excludePrefixes ≠
      selectedFiles db view.selection.roots view.selection.excludePrefixes)
  | definitions (scope : Declaration × R) (hmem : scope ∈ view.typedScopes)
      (h : compileScope host.hashScope db' scope.1 ≠ compileScope host.hashScope db scope.1)
  | target (d : Constraints.Dependencies) (hd : view.constraintDependencies = some d)
      (t : Constraints.External) (hmem : t ∈ d.externalTargets)
      (h : db'.eid t.uuid ≠ db.eid t.uuid ∨
        Constraints.role db' t.eid t.codomain ≠ Constraints.role db t.eid t.codomain)
  | unique (d : Constraints.Dependencies) (hd : view.constraintDependencies = some d)
      (u : Constraints.UniqueValue) (hmem : u ∈ d.uniqueValues) (base : Value)
      (hbase : u.baseValue = some base)
      (h : (db'.avet u.attr base).isEmpty ≠ (db.avet u.attr base).isEmpty)

omit [DecidableEq R] in
theorem Differs.ne (h : Differs host db db' view) : db' ≠ db := by
  rintro rfl
  cases h with
  | files h | definitions _ _ h | unique _ _ _ _ _ _ h => exact h rfl
  | target _ _ _ _ h => exact h.elim (· rfl) (· rfl)

/-- A canonical view is not current where something that went into it differs. -/
theorem Differs.not_current (hinj : Function.Injective host.hashScope)
    (hprofile : options.entityProfile.isSome)
    (hprepared : prepare host db options = .ok view) (hready : view.status = .ready)
    (h : Differs host db db' view) : recheck host db' options view false ≠ .ok true := by
  intro hcurrent
  obtain ⟨a, ha, hselection, -, -, hscopes, hdependencies, hempty⟩ := prepare_eq_ok hprepared
  obtain ⟨hselected, -, -, htyped, -⟩ := recheck_eq_ok hprofile hcurrent
  obtain ⟨-, nodes, result, hselected₀, -, hanalyzed, hstage, hsome, hdiagnostics⟩ :=
    analyze_eq_ok hprofile ha
  obtain ⟨hscopes', hdependencies'⟩ := Canonical.isCurrent_eq_ok htyped
  have hplain : ∀ d ∈ a.documents, d.canonical = none :=
    foldlM_keeps (p := fun s ↦ ∀ d ∈ s.1, d.canonical = none)
      (fun _ _ _ _ hs ht ↦ analyzeFile_plain hs ht) (fun d hd ↦ absurd hd not_mem_nil)
      hanalyzed
  have hclean : result.diagnostics.isEmpty := by
    have hall := isEmpty_iff.mp (hempty hready)
    rw [hdiagnostics] at hall
    simp only [append_eq_nil_iff] at hall
    exact isEmpty_iff.mpr hall.1.2
  obtain ⟨hcompiled, hhold⟩ := prepare_right hplain hclean hstage
  rw [hsome] at hscopes hdependencies
  have hhold' (d : Constraints.Dependencies) (hd : view.constraintDependencies = some d) :
      d.Hold db' := by
    rw [hd] at hdependencies'
    exact hold_of_isCurrent hdependencies'
  have hheld (d : Constraints.Dependencies) (hd : view.constraintDependencies = some d) :
      d.Hold db := hhold d (hdependencies.symm.trans hd)
  cases h with
  | files h =>
    rw [← (selection_eq_ok hselected).2] at h
    rw [hselection, (selection_eq_ok hselected₀).2] at h
    exact h rfl
  | definitions scope hmem h =>
    obtain ⟨c', hc', hrevision'⟩ := scopesCurrent_compiles hscopes' hmem
    rw [hscopes] at hmem
    obtain ⟨c, hc, hrevision⟩ := hcompiled scope hmem
    have hsame : c' = c := compileScope_eq hinj hc hc' (hrevision'.trans hrevision.symm)
    exact h (by rw [hc', hc, hsame])
  | target d hd t hmem h =>
    have hleft := (hheld d hd).external t hmem
    have hright := (hhold' d hd).external t hmem
    obtain hid | hrole := h
    · exact hid (hright.1.trans hleft.1.symm)
    · exact hrole (hright.2.trans hleft.2.symm)
  | unique d hd u hmem base hbase h =>
    rw [hd] at hdependencies'
    have hfree (db'' : Db) (hholds : d.Hold db'') : (db''.avet u.attr base).isEmpty := by
      obtain hplanned | hany := hholds.unique u hmem
      · have hnone := baseValue_of_isCurrent hdependencies' hmem hplanned
        rw [hbase] at hnone
        cases hnone
      · rw [hbase] at hany
        exact hany
    exact h ((hfree db' (hhold' d hd)).trans (hfree db (hheld d hd)).symm)

/-- Beyond its refusals the check throws only where the selection throws. -/
theorem recheck_error (hbindings : options.propertyBindings = [])
    {e : Error} (h : recheck host db options view ownDerived = .error e) :
    (∃ reason, e = .view reason) ∨ (e = .path ∧ selection host db options = .error .path) := by
  cases hselected : selection host db options with
  | error e' =>
    have hsame : e' = e := by
      rw [recheck, hselected] at h
      exact Except.error.inj h
    rw [← hsame]
    obtain hview | rfl := selection_throws hbindings e' hselected
    · exact .inl hview
    · exact .inr ⟨rfl, rfl⟩
  | ok selected =>
    refine .inl ?_
    have hcanonical : Throws (fun e ↦ ∃ reason, e = .view reason)
        (recheckCanonical host db view ownDerived) := by
      obtain ⟨b, hb⟩ := isCurrent_answers host.hashScope db view.typedScopes
        view.constraintDependencies ownDerived
      unfold recheckCanonical
      rw [hb]
      exact .bind (canonicalBase_throws _) fun _ _ ↦ .bind (.ok _) fun _ _ ↦ .ok _
    rw [recheck, hselected] at h
    change (if view.selection = selected then if options.entityProfile.isSome then
      recheckCanonical host db view ownDerived else pure true else pure false) = .error e at h
    split at h
    · split at h
      · exact hcanonical e h
      · cases h
    · cases h

/-- A canonical view that is current for another database is what preparing that database gives;
where something that went into it differs, it is not current. -/
theorem fresh_views_are_rebuilt (host : Host R) (hinj : Function.Injective host.hashScope)
    (db db' : Db) (options : Options) (hprofile : options.entityProfile.isSome = true)
    (view : KnowledgeView R) (ownDerived : Bool) (hown : ownDerived = true → db' = db)
    (hbodies : ∀ file ∈ view.selection.files, ∀ id, file.2.content = some id →
      SameContent host db db' id)
    (hprepared : prepare host db options = .ok view) (hready : view.status = .ready) :
    (isCurrent host db' options view ownDerived = .ok true → prepare host db' options = .ok view) ∧
    (Differs host db db' view → isCurrent host db' options view ownDerived = .ok false ∨
      (isCurrent host db' options view ownDerived = .error .path ∧
        prepare host db' options = .error .path)) := by
  have hbindings : options.propertyBindings = [] := by
    obtain ⟨a, ha, -⟩ := prepare_eq_ok hprepared
    obtain ⟨-, -, -, hselected, -⟩ := analyze_eq_ok hprofile ha
    exact (selection_eq_ok hselected).1 hprofile
  constructor
  · intro hcurrent
    cases ownDerived with
    | true => rw [hown rfl]; exact hprepared
    | false =>
      exact rebuilt hinj hprofile hbodies hprepared hready (isCurrent_eq_ok hcurrent)
  · intro hdiffers
    cases ownDerived with
    | true => exact absurd (hown rfl) hdiffers.ne
    | false =>
      cases hcheck : recheck host db' options view false with
      | ok answer =>
        have hfalse : answer = false := by
          by_contra htrue
          rw [Bool.not_eq_false] at htrue
          exact hdiffers.not_current hinj hprofile hprepared hready (hcheck.trans (by rw [htrue]))
        left
        rw [isCurrent, hcheck, hfalse]
      | error e =>
        obtain ⟨reason, rfl⟩ | ⟨rfl, hselection⟩ := recheck_error hbindings hcheck
        · left
          rw [isCurrent, hcheck]
          simp only [hprofile, if_true]
        · right
          constructor
          · rw [isCurrent, hcheck]
          · rw [prepare, analyze, hselection]
            rfl

def exampleSchema : List (Keyword × AttrSchema) :=
  let one (type : DbType) : AttrSchema := ⟨type, .one, none, none⟩
  projectionAttributes ++
    [(entityUuid, ⟨.uuid, .one, some .identity, none⟩), (entityName, one .string),
      (instanceOfRole, ⟨.ref, .many, none, none⟩),
      (pageTitle, ⟨.string, .one, some .value, none⟩), (objectOfCategory, one .ref),
      (morphismSrc, one .ref), (kw "morphism" "dst", one .ref), (morphismOfCategory, one .ref),
      (kw "morphism" "cardinality", one .keyword),
      (kw "document.repository" "profile", one .keyword), (kw "geschichte.repo" "id", one .uuid),
      (workPath, ⟨.string, .one, some .identity, none⟩),
      (kw "geschichte.work" "content", one .ref), (kw "geschichte.work" "size", one .long),
      (kw "geschichte.work" "mode", one .long), (contentId, ⟨.uuid, .one, some .identity, none⟩),
      (kw "geschichte.content" "size", one .long)]

/-- A file of the worktree, whose content of one byte is the entity 8. -/
def exampleFile (e : ℤ) (path : String) : List Datom :=
  [⟨e, workPath, .string path⟩, ⟨e, kw "geschichte.work" "content", .ref 8⟩,
    ⟨e, kw "geschichte.work" "size", .long 1⟩, ⟨e, kw "geschichte.work" "mode", .long 33188⟩]

/-- A category `S` with the types `S/EntityType`, `S/Page` and `S/String`, the title of a page, and
these files. -/
def exampleDb (files : List Datom) : Db :=
  { schema := exampleSchema
    datoms :=
      [⟨1, kw "geschichte.repo" "id", .uuid 0x99⟩,
        ⟨1, kw "document.repository" "profile", .keyword profile⟩,
        ⟨2, entityUuid, .uuid 0x01⟩, ⟨2, entityName, .string "S"⟩,
        ⟨3, entityUuid, .uuid 0x23⟩, ⟨3, entityName, .string "S/EntityType"⟩,
        ⟨3, objectOfCategory, .ref 2⟩, ⟨3, instanceOfRole, .ref 3⟩,
        ⟨4, entityUuid, .uuid pageRole⟩, ⟨4, entityName, .string "S/Page"⟩,
        ⟨4, objectOfCategory, .ref 2⟩, ⟨4, instanceOfRole, .ref 3⟩,
        ⟨5, entityUuid, .uuid 0x10⟩, ⟨5, entityName, .string "S/String"⟩,
        ⟨5, objectOfCategory, .ref 2⟩,
        ⟨6, entityUuid, .uuid titleProperty⟩, ⟨6, entityName, .string "S/Page/title"⟩,
        ⟨6, morphismSrc, .ref 4⟩, ⟨6, kw "morphism" "dst", .ref 5⟩, ⟨6, morphismOfCategory, .ref 2⟩,
        ⟨6, kw "morphism" "cardinality", .keyword (plain "one")⟩,
        ⟨8, contentId, .uuid 0x77⟩, ⟨8, kw "geschichte.content" "size", .long 1⟩] ++ files }

/-- A host whose only source is a page with an explicit identity. -/
def exampleHost : Host ScopeContent :=
  { repository := fun db ↦
      { id := (db.pulled 1 (kw "geschichte.repo" "id")).uuid?
        profile := match db.pulled 1 (kw "document.repository" "profile") with
          | .one (.keyword k) => some k
          | _ => none }
    defaultMode := 33188
    readById := fun _ id ↦ if id = 0x77 then some [10] else none
    workspacePath := ("/" ++ ·)
    parse := fun _ ↦ .ok
      { source := "\n"
        revision := 0x55
        properties := some [(.text "simmis-id", .str "00000000-0000-0000-0000-0000000000aa")]
        diagnostics := []
        nodes := [] }
    java := ⟨fun _ ↦ 0, fun _ ↦ none⟩
    prStr := fun _ ↦ "\x7b:types [#uuid \"00000000-0000-0000-0000-000000000022\"], :bindings \x7b\x7d\x7d"
    hashScope := id
    hashBindings := fun bindings ↦ ⟨[], [], bindings⟩
    hashDocument := fun _ _ ↦ 0
    hashBlock := fun _ _ _ _ ↦ 0
    hashView := fun selection _ ↦ selection.propertySchema }

def exampleOptions : Options := ⟨none, [""], [], some "v1", [], some profile⟩

/-- What holds of the view of the example with one page. -/
def exampleHas (p : KnowledgeView ScopeContent → Bool) : Bool :=
  match prepare exampleHost (exampleDb (exampleFile 9 "a.md")) exampleOptions with
  | .ok view => p view
  | .error _ => false

theorem of_exampleHas {p : KnowledgeView ScopeContent → Bool} (h : exampleHas p) :
    ∃ view, prepare exampleHost (exampleDb (exampleFile 9 "a.md")) exampleOptions = .ok view ∧
      p view := by
  unfold exampleHas at h
  split at h
  · next view hview => exact ⟨view, hview, h⟩
  · cases h

/-- An unrelated file leaves the view current. -/
theorem fresh_views_are_rebuilt_example : ∃ view,
    prepare exampleHost (exampleDb (exampleFile 9 "a.md")) exampleOptions = .ok view ∧
    view.status = .ready ∧
    prepare exampleHost (exampleDb (exampleFile 9 "a.md" ++ exampleFile 10 "b.txt"))
      exampleOptions = .ok view := by
  let db' : Db := exampleDb (exampleFile 9 "a.md" ++ exampleFile 10 "b.txt")
  obtain ⟨view, hprepared, hview⟩ := of_exampleHas (p := fun view ↦ view.status = .ready ∧
    view.selection.files = [("a.md", ⟨some 0x77, some 1, some 33188⟩)] ∧
    isCurrent exampleHost db' exampleOptions view false = .ok true) (by decide)
  simp only [decide_eq_true_eq] at hview
  obtain ⟨hready, hfiles, hcurrent⟩ := hview
  have hbodies : ∀ file ∈ view.selection.files, ∀ id, file.2.content = some id →
      SameContent exampleHost (exampleDb (exampleFile 9 "a.md")) db' id := by
    rw [hfiles]
    intro file hfile id hid
    obtain rfl := mem_singleton.mp hfile
    cases hid
    exact ⟨by decide, rfl⟩
  have hrebuilt := fresh_views_are_rebuilt exampleHost Function.injective_id _ db' exampleOptions rfl
    view false (fun h ↦ absurd h Bool.false_ne_true) hbodies hprepared hready
  exact ⟨view, hprepared, hready, hrebuilt.1 hcurrent⟩

/-- A new Markdown file differs, and its path is not exact: the check does not answer. -/
theorem inexact_path_is_no_answer : ∃ view,
    prepare exampleHost (exampleDb (exampleFile 9 "a.md")) exampleOptions = .ok view ∧
    view.status = .ready ∧ Differs exampleHost (exampleDb (exampleFile 9 "a.md"))
      (exampleDb (exampleFile 9 "a.md" ++ exampleFile 10 "b\\c.md")) view ∧
    isCurrent exampleHost (exampleDb (exampleFile 9 "a.md" ++ exampleFile 10 "b\\c.md"))
      exampleOptions view false = .error .path := by
  let db' : Db := exampleDb (exampleFile 9 "a.md" ++ exampleFile 10 "b\\c.md")
  obtain ⟨view, hprepared, hview⟩ := of_exampleHas (p := fun view ↦ view.status = .ready ∧
    (view.selection.roots = [""] ∧ view.selection.excludePrefixes = []) ∧
    isCurrent exampleHost db' exampleOptions view false = .error .path) (by decide)
  simp only [decide_eq_true_eq] at hview
  obtain ⟨hready, ⟨hroots, hexcluded⟩, hcurrent⟩ := hview
  refine ⟨view, hprepared, hready, .files ?_, hcurrent⟩
  rw [hroots, hexcluded]
  decide

end Simmis.Documents.View
