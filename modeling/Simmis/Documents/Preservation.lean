import Simmis.Documents.Blocks
import Simmis.Library.Replays

/-!
# What maintenance keeps of a document

An automated edit of a document may add types and property bindings and may change the values of the
properties that were bound before it. Everything else has to stay. The result of a chain of edits is
then one edit of the first document.
-/

namespace Simmis.Documents.Preservation

open List Option Maps Metadata Bool

def isNaN (bits : UInt64) : Bool := 0x7FF0000000000000 < bits &&& 0x7FFFFFFFFFFFFFFF

def isZero (bits : UInt64) : Bool := bits &&& 0x7FFFFFFFFFFFFFFF = 0

variable (shared : Bool)

/-- `=` of two doubles. One that is not a number is equal to itself only, as an object. -/
def sameDouble (a b : UInt64) : Bool :=
  if isNaN a ∨ isNaN b then shared ∧ a = b else a = b ∨ isZero a ∧ isZero b

mutual

/-- `=` of two values; `shared` if they are read from one parsed document. -/
def same (shared : Bool) : Yaml → Yaml → Bool
  | .null, .null => true
  | .bool a, .bool b => a = b
  | .int a, .int b => a = b
  | .double a, .double b => sameDouble shared a b
  | .str a, .str b => a = b
  | .date a, .date b => a = b
  | .seq as, .seq bs => sameItems shared as bs
  | .map as, .map bs => as.length = bs.length && sameEntries shared as bs
  | _, _ => false

def sameItems (shared : Bool) : List Yaml → List Yaml → Bool
  | [], [] => true
  | a :: as, b :: bs => same shared a b && sameItems shared as bs
  | _, _ => false

/-- Every entry of the first mapping is in the second one. -/
def sameEntries (shared : Bool) : List (Key × Yaml) → List (Key × Yaml) → Bool
  | [], _ => true
  | (key, a) :: as, bs => (get? bs key).any (same shared a) && sameEntries shared as bs

end

mutual

/-- No mapping in a value has a key twice. -/
def Distinct : Yaml → Prop
  | .seq items => DistinctItems items
  | .map entries => (entries.map (·.1)).Nodup ∧ DistinctEntries entries
  | _ => True

def DistinctItems : List Yaml → Prop
  | [] => True
  | a :: as => Distinct a ∧ DistinctItems as

def DistinctEntries : List (Key × Yaml) → Prop
  | [] => True
  | (_, a) :: as => Distinct a ∧ DistinctEntries as

end

theorem sameEntries_iff {shared : Bool} {as bs : Mapping} : sameEntries shared as bs ↔
    ∀ p ∈ as, ∃ b, get? bs p.1 = some b ∧ same shared p.2 b := by
  induction as with
  | nil => simp [sameEntries]
  | cons a as ih => simp [sameEntries, ih, Option.any_eq_true]

theorem distinctEntries_iff {as : Mapping} : DistinctEntries as ↔ ∀ p ∈ as, Distinct p.2 := by
  induction as with
  | nil => simp [DistinctEntries]
  | cons a as ih => simp [DistinctEntries, ih]

theorem sameDouble_self (a : UInt64) : sameDouble true a a := by
  simp [sameDouble]

theorem sameDouble_trans {shared : Bool} {a b c : UInt64} (hab : sameDouble false a b)
    (hbc : sameDouble false b c) : sameDouble shared a c := by
  simp only [sameDouble] at *
  grind

mutual

theorem same_self {v : Yaml} (h : Distinct v) : same true v v := by
  cases v with
  | seq items => simpa [same] using sameItems_self (by simpa [Distinct] using h)
  | map entries =>
    obtain ⟨hnodup, hentries⟩ : (entries.map (·.1)).Nodup ∧ DistinctEntries entries := by
      simpa [Distinct] using h
    have hself := sameEntries_self hentries
    simp only [same, decide_true, Bool.true_and]
    exact sameEntries_iff.mpr fun p hp ↦ ⟨p.2, get?_of_mem hnodup hp, hself p hp⟩
  | double bits => simpa [same] using sameDouble_self bits
  | _ => simp [same]

theorem sameItems_self {items : List Yaml} (h : DistinctItems items) :
    sameItems true items items := by
  cases items with
  | nil => simp [sameItems]
  | cons a as =>
    obtain ⟨ha, has⟩ : Distinct a ∧ DistinctItems as := by simpa [DistinctItems] using h
    simp [sameItems, same_self ha, sameItems_self has]

theorem sameEntries_self {entries : List (Key × Yaml)} (h : DistinctEntries entries) :
    ∀ p ∈ entries, same true p.2 p.2 := by
  cases entries with
  | nil => simp
  | cons a as =>
    obtain ⟨key, a⟩ := a
    obtain ⟨ha, has⟩ : Distinct a ∧ DistinctEntries as := by simpa [DistinctEntries] using h
    have hhead := same_self ha
    have htail := sameEntries_self has
    simpa [hhead] using htail

end

mutual

theorem same_trans {shared : Bool} (a : Yaml) : ∀ b c, same false a b →
    same false b c → same shared a c := by
  intro b c hab hbc
  cases a with
  | seq as =>
    cases b <;> simp only [same, false_eq_true] at hab
    cases c <;> simp only [same, false_eq_true] at hbc
    exact sameItems_trans as _ _ hab hbc
  | map as =>
    cases b <;> simp only [same, false_eq_true, and_eq_true, decide_eq_true_eq] at hab
    cases c <;> simp only [same, false_eq_true, and_eq_true, decide_eq_true_eq] at hbc
    have hentries := @sameEntries_trans shared as
    simp only [same, hab.1, hbc.1, decide_true, Bool.true_and]
    refine sameEntries_iff.mpr fun p hp ↦ ?_
    obtain ⟨v, hv, hpv⟩ := sameEntries_iff.mp hab.2 p hp
    obtain ⟨w, hw, hvw⟩ := sameEntries_iff.mp hbc.2 (p.1, v) (mem_of_get? hv)
    exact ⟨w, hw, hentries p hp v w hpv hvw⟩
  | double bits =>
    cases b <;> simp only [same, false_eq_true] at hab
    cases c <;> simp only [same, false_eq_true] at hbc
    exact sameDouble_trans hab hbc
  | _ =>
    cases b <;> simp only [same, false_eq_true, decide_eq_true_eq] at hab
    cases c <;> simp_all [same]

theorem sameItems_trans {shared : Bool} (as : List Yaml) : ∀ bs cs, sameItems false as bs →
    sameItems false bs cs → sameItems shared as cs := by
  intro bs cs hab hbc
  cases as with
  | nil =>
    cases bs <;> simp only [sameItems, false_eq_true] at hab
    cases cs <;> simp_all [sameItems]
  | cons a as =>
    cases bs <;> simp only [sameItems, false_eq_true, and_eq_true] at hab
    cases cs <;> simp only [sameItems, false_eq_true, and_eq_true] at hbc
    simp only [sameItems, and_eq_true]
    exact ⟨same_trans a _ _ hab.1 hbc.1, sameItems_trans as _ _ hab.2 hbc.2⟩

theorem sameEntries_trans {shared : Bool} (as : List (Key × Yaml)) : ∀ p ∈ as, ∀ b c,
    same false p.2 b → same false b c → same shared p.2 c := by
  cases as with
  | nil => simp
  | cons a as =>
    obtain ⟨key, a⟩ := a
    have hhead := @same_trans shared a
    have htail := @sameEntries_trans shared as
    intro p hp
    rcases mem_cons.mp hp with rfl | hp
    · exact hhead
    · exact htail p hp

end

/-- What the syntax tree of a document was made with. -/
structure SyntaxProfile where
  id : String
  version : ℕ
  parser : String
  features : List String
deriving DecidableEq

def syntaxProfile : SyntaxProfile :=
  ⟨"simmis/markdown-syntax", 9, "flexmark/0.64.8",
    ["footnotes", "inline-math", "reference-links", "standalone-display-math", "strikethrough",
      "tables", "tasks", "wiki-embeds", "wikilinks"]⟩

/-- A parsed document. Its frontmatter is made of mappings. -/
structure Document where
  profile : SyntaxProfile
  parsed : Parsed
  distinct : ∀ raw, parsed.properties = some raw → Distinct (.map raw)

inductive Failure
  | blocks (reason : Error)
  | classCast
deriving DecidableEq

/-- A step of the path of a diagnostic. -/
inductive Segment
  | page
  | block (id : Uuid)
  | key (key : Key)
deriving DecidableEq

inductive Kind
  | invalidPreservationInput
  | changedDocumentIdentity
  | removedExplicitBlockIdentity
  | removedBlockMetadata
  | removedTypeAssignment
  | changedPropertyBinding
  | removedPropertyValue
  | changedUnknownMetadata
  | reinterpretedUnboundProperty
deriving DecidableEq

structure Diagnostic where
  kind : Kind
  path : List Segment
deriving DecidableEq

/-- The declarations that can be compared, with the explicit blocks' ids. -/
structure Declared where
  decoded : Decoded
  explicitBlocks : List Uuid

/-- `(into {} …)` of the scopes of the blocks. -/
def Declared.blocks (d : Declared) : List (Uuid × Scope) := ofPairs d.decoded.blocks

variable (hash : Uuid → Uuid → ℕ → ℕ → Uuid)

def decoded (document : Document) : Except Failure (Option Declared) :=
  if document.profile = syntaxProfile ∧ document.parsed.diagnostics.isEmpty then
    let raw := document.parsed.properties
    match (get? (raw.getD []) (.text "simmis-id")).bind Yaml.canonicalUuid? with
    | none => .ok none
    | some id =>
      match Blocks.project hash id document.parsed with
      | .error reason => .error (.blocks reason)
      | .ok semantic =>
        let ids := (semantic.all.filter (·.status = .explicit)).map Block.id
        let result := decode raw ids
        if semantic.diagnostics.isEmpty ∧ (result.status = .plain ∨ result.status = .ready) then
          .ok (some ⟨result, ids⟩)
        else .ok none
  else .ok none

/-- `nil`, as a key. -/
def nilKey : Key := .printed ""

/-- `contains?` of the sorted map of bindings, which compares the key with its aliases. -/
def bound? (bindings : List (String × Alias)) : Key → Except Failure Bool
  | .text key => .ok (get? bindings key).isSome
  | key => if bindings.isEmpty ∨ key = nilKey then .ok false else .error .classCast

/-- What is wrong with the value under a key, `shared` as in `same`. -/
def valueDiagnostics (before after : Scope) (path : List Segment) (entry : Key × Yaml) :
    Except Failure (List Diagnostic) := do
  let bound ← bound? before.bindings entry.1
  let next := get? after.values entry.1
  return if bound then
      if next.isNone then [⟨.removedPropertyValue, path ++ [.key entry.1]⟩] else []
    else if next.any (same shared entry.2) then []
    else [⟨.changedUnknownMetadata, path ++ [.key entry.1]⟩]

def scopeDiagnostics (before after : Scope) (path : List Segment) :
    Except Failure (List Diagnostic) := do
  let types := if before.types.all (· ∈ after.types) then []
    else [⟨.removedTypeAssignment, path⟩]
  let changed := before.bindings.filter fun entry ↦ get? after.bindings entry.1 ≠ some entry.2
  let values ← before.values.mapM (valueDiagnostics shared before after path)
  -- the keys that may change are those of the older scope
  let laundered := after.bindings.filter fun entry ↦
    (get? before.bindings entry.1).isNone ∧ (get? before.values (.text entry.1)).isSome
  return types ++
    changed.map (fun entry ↦ ⟨.changedPropertyBinding, path ++ [.key (.text entry.1)]⟩) ++
    values.flatten ++
    laundered.map fun entry ↦ ⟨.reinterpretedUnboundProperty, path ++ [.key (.text entry.1)]⟩

def blockDiagnostics (new : Declared) (entry : Uuid × Scope) : Except Failure (List Diagnostic) :=
  match get? new.blocks entry.1 with
  | some next => scopeDiagnostics shared entry.2 next [.block entry.1]
  | none => .ok [⟨.removedBlockMetadata, [.block entry.1]⟩]

def compare (old new : Declared) : Except Failure (List Diagnostic) := do
  let identity := if old.decoded.documentId = new.decoded.documentId then []
    else [⟨.changedDocumentIdentity, []⟩]
  let explicit := if old.explicitBlocks.all (· ∈ new.explicitBlocks) then []
    else [⟨.removedExplicitBlockIdentity, []⟩]
  let page ← scopeDiagnostics shared old.decoded.page new.decoded.page [.page]
  let blocks ← old.blocks.mapM (blockDiagnostics shared new)
  return identity ++ explicit ++ page ++ blocks.flatten

variable {D : Type} [DecidableEq D] (parsed : D → Document)

/-- The diagnostics of a change of a document, none if it is `:valid`. -/
def check (before after : D) : Except Failure (List Diagnostic) := do
  match ← decoded hash (parsed before) with
  | none => return [⟨.invalidPreservationInput, []⟩]
  | some old =>
    match ← decoded hash (parsed after) with
    | none => return [⟨.invalidPreservationInput, []⟩]
    | some new => compare (before = after) old new

/-- A property is bound to the key. -/
def Bound (scope : Scope) (key : Key) : Prop :=
  ∃ name, key = .text name ∧ (get? scope.bindings name).isSome

/-- The key is a text or `nil`: a sorted map of texts can be asked for it. -/
def Askable (key : Key) : Prop := key = nilKey ∨ ∃ text, key = .text text

/-- Every value can be looked for among the bindings. -/
def ScopeAskable (scope : Scope) : Prop := scope.bindings = [] ∨ ∀ p ∈ scope.values, Askable p.1

structure ScopeKept (shared : Bool) (old new : Scope) : Prop where
  types : ∀ type ∈ old.types, type ∈ new.types
  bindings : ∀ p ∈ old.bindings, get? new.bindings p.1 = some p.2
  present : ∀ p ∈ old.values, (get? new.values p.1).isSome
  unknown : ∀ p ∈ old.values, ¬ Bound old p.1 →
    ∃ value, get? new.values p.1 = some value ∧ same shared p.2 value = true
  unbound : ∀ p ∈ old.values, ¬ Bound old p.1 → ¬ Bound new p.1

/-- The declarations of the new document have those of the old one. -/
structure Kept (shared : Bool) (old new : Declared) : Prop where
  documentId : old.decoded.documentId = new.decoded.documentId
  explicitBlocks : ∀ id ∈ old.explicitBlocks, id ∈ new.explicitBlocks
  page : ScopeKept shared old.decoded.page new.decoded.page
  blocks : ∀ p ∈ old.blocks, ∃ next, get? new.blocks p.1 = some next ∧ ScopeKept shared p.2 next

/-- No lookup of a comparison with the older document fails. -/
structure DeclaredAskable (d : Declared) : Prop where
  page : ScopeAskable d.decoded.page
  blocks : ∀ p ∈ d.blocks, ScopeAskable p.2

theorem bound?_eq {scope : Scope} {key : Key} {b : Bool} : bound? scope.bindings key = .ok b ↔
      (scope.bindings = [] ∨ Askable key) ∧ (b ↔ Bound scope key) := by
  cases key with
  | text s => cases b <;> simp [bound?, Bound, Askable]
  | printed s =>
    by_cases h : scope.bindings = [] ∨ Key.printed s = nilKey
    · cases b <;> simp [bound?, Bound, Askable, h, List.isEmpty_iff]
    · simp [bound?, Askable, h, List.isEmpty_iff]
  | generated id =>
    by_cases h : scope.bindings = []
    · cases b <;> simp [bound?, Bound, h, nilKey]
    · simp [bound?, Askable, h, nilKey, List.isEmpty_iff]

theorem valueDiagnostics_eq_nil {shared : Bool} {old new : Scope} {path : List Segment}
    {p : Key × Yaml} : valueDiagnostics shared old new path p = .ok [] ↔
      (old.bindings = [] ∨ Askable p.1) ∧ (get? new.values p.1).isSome ∧
        (¬ Bound old p.1 → ∃ value, get? new.values p.1 = some value ∧
          same shared p.2 value) := by
  cases h : bound? old.bindings p.1 with
  | error e =>
    have hask : ¬ (old.bindings = [] ∨ Askable p.1) := by
      classical
      intro hask
      have := (bound?_eq (b := decide (Bound old p.1))).mpr ⟨hask, by simp⟩
      simp [this] at h
    simp [valueDiagnostics, h, bind, Except.bind, hask]
  | ok b =>
    obtain ⟨hask, hb⟩ := bound?_eq.mp h
    cases b with
    | true =>
      have hbound : Bound old p.1 := hb.mp rfl
      cases hnext : get? new.values p.1 <;>
        simp [valueDiagnostics, h, bind, Except.bind, pure, Except.pure, hask, hbound, hnext]
    | false =>
      have hbound : ¬ Bound old p.1 := fun hb' ↦ by simpa using hb.mpr hb'
      cases hnext : get? new.values p.1 <;>
        simp [valueDiagnostics, h, bind, Except.bind, pure, Except.pure, hask, hbound, hnext]

theorem bound_text {scope : Scope} {name : String} :
    Bound scope (.text name) ↔ (get? scope.bindings name).isSome := by
  simp [Bound]

theorem scopeDiagnostics_eq_nil {shared : Bool} {old new : Scope} {path : List Segment} :
    scopeDiagnostics shared old new path = .ok [] ↔
      ScopeAskable old ∧ ScopeKept shared old new := by
  have hvalues := mapM_flatten_eq_nil (l := old.values) (f := valueDiagnostics shared old new path)
  simp only [valueDiagnostics_eq_nil] at hvalues
  have hrun : scopeDiagnostics shared old new path = .ok [] ↔
      (∀ type ∈ old.types, type ∈ new.types) ∧
      (∀ p ∈ old.bindings, get? new.bindings p.1 = some p.2) ∧
      (∃ bss, old.values.mapM (valueDiagnostics shared old new path) = .ok bss ∧ bss.flatten = []) ∧
      ∀ p ∈ new.bindings, (get? old.bindings p.1).isNone →
        (get? old.values (.text p.1)).isSome → False := by
    unfold scopeDiagnostics
    cases old.values.mapM (valueDiagnostics shared old new path) with
    | error e => simp [bind, Except.bind]
    | ok bss =>
      simp [bind, Except.bind, pure, Except.pure, filter_eq_nil_iff]
  rw [hrun, hvalues]
  constructor
  · rintro ⟨htypes, hbindings, hentries, hlaundered⟩
    refine ⟨?_, htypes, hbindings, fun p hp ↦ (hentries p hp).2.1,
      fun p hp ↦ (hentries p hp).2.2, ?_⟩
    · by_cases hempty : old.bindings = []
      · exact .inl hempty
      · exact .inr fun p hp ↦ (hentries p hp).1.resolve_left hempty
    · rintro p hp hold ⟨name, hname, hnew⟩
      obtain ⟨binding, hbinding⟩ := isSome_iff_exists.mp hnew
      refine hlaundered _ (mem_of_get? hbinding) ?_ ?_
      · rw [hname, bound_text] at hold
        simpa using hold
      · exact get?_isSome.mpr (mem_map.mpr ⟨p, hp, hname⟩)
  · rintro ⟨hask, hkept⟩
    refine ⟨hkept.types, hkept.bindings,
      fun p hp ↦ ⟨?_, hkept.present p hp, hkept.unknown p hp⟩, ?_⟩
    · exact hask.imp_right fun h ↦ h p hp
    · intro p hp hnone hsome
      obtain ⟨value, hvalue⟩ := isSome_iff_exists.mp hsome
      refine hkept.unbound _ (mem_of_get? hvalue) ?_ ?_
      · simpa [bound_text] using hnone
      · exact bound_text.mpr (get?_isSome.mpr (mem_map_of_mem hp))

theorem blockDiagnostics_eq_nil {shared : Bool} {new : Declared} {p : Uuid × Scope} :
    blockDiagnostics shared new p = .ok [] ↔ ScopeAskable p.2 ∧
      ∃ next, get? new.blocks p.1 = some next ∧ ScopeKept shared p.2 next := by
  unfold blockDiagnostics
  cases get? new.blocks p.1 with
  | none => simp
  | some next => simp [scopeDiagnostics_eq_nil]

/-- A change is accepted if no lookup fails and everything declared is kept. -/
theorem compare_eq_nil {shared : Bool} {old new : Declared} :
    compare shared old new = .ok [] ↔ DeclaredAskable old ∧ Kept shared old new := by
  have hblocks := mapM_flatten_eq_nil (l := old.blocks) (f := blockDiagnostics shared new)
  simp only [blockDiagnostics_eq_nil] at hblocks
  have hpage := @scopeDiagnostics_eq_nil shared old.decoded.page new.decoded.page [.page]
  have hrun : compare shared old new = .ok [] ↔ old.decoded.documentId = new.decoded.documentId ∧
      (∀ id ∈ old.explicitBlocks, id ∈ new.explicitBlocks) ∧
      scopeDiagnostics shared old.decoded.page new.decoded.page [.page] = .ok [] ∧
      ∃ bss, old.blocks.mapM (blockDiagnostics shared new) = .ok bss ∧ bss.flatten = [] := by
    unfold compare
    cases scopeDiagnostics shared old.decoded.page new.decoded.page [.page] with
    | error e => simp [bind, Except.bind]
    | ok ds =>
      cases old.blocks.mapM (blockDiagnostics shared new) with
      | error e => simp [bind, Except.bind]
      | ok bss => simp [bind, Except.bind, pure, Except.pure]
  rw [hrun, hpage, hblocks]
  constructor
  · rintro ⟨hid, hexplicit, ⟨hask, hkept⟩, hblock⟩
    exact ⟨⟨hask, fun p hp ↦ (hblock p hp).1⟩, hid, hexplicit, hkept, fun p hp ↦ (hblock p hp).2⟩
  · rintro ⟨⟨hask, hasks⟩, hid, hexplicit, hkept, hblock⟩
    exact ⟨hid, hexplicit, ⟨hask, hkept⟩, fun p hp ↦ ⟨hasks p hp, hblock p hp⟩⟩

/-- Two changes in a row keep what one change has to keep. -/
theorem ScopeKept.trans {shared : Bool} {a b c : Scope} (hab : ScopeKept false a b)
    (hbc : ScopeKept false b c) : ScopeKept shared a c := by
  -- what stands under a key of the first scope stands under it in the second one
  have hnext (p : Key × Yaml) (hp : p ∈ a.values) : ∃ v, get? b.values p.1 = some v ∧
      (p.1, v) ∈ b.values := by
    obtain ⟨v, hv⟩ := isSome_iff_exists.mp (hab.present p hp)
    exact ⟨v, hv, mem_of_get? hv⟩
  refine ⟨fun t ht ↦ hbc.types t (hab.types t ht), ?_, ?_, ?_, ?_⟩
  · intro p hp
    exact hbc.bindings p (mem_of_get? (hab.bindings p hp))
  · intro p hp
    obtain ⟨v, -, hmem⟩ := hnext p hp
    exact hbc.present (p.1, v) hmem
  · intro p hp hfree
    obtain ⟨v, hv, hpv⟩ := hab.unknown p hp hfree
    obtain ⟨w, hw, hvw⟩ := hbc.unknown (p.1, v) (mem_of_get? hv) (hab.unbound p hp hfree)
    exact ⟨w, hw, same_trans p.2 v w hpv hvw⟩
  · intro p hp hfree
    obtain ⟨v, -, hmem⟩ := hnext p hp
    exact hbc.unbound (p.1, v) hmem (hab.unbound p hp hfree)

theorem Kept.trans {shared : Bool} {a b c : Declared} (hab : Kept false a b)
    (hbc : Kept false b c) : Kept shared a c := by
  refine ⟨hab.documentId.trans hbc.documentId,
    fun id hid ↦ hbc.explicitBlocks id (hab.explicitBlocks id hid), hab.page.trans hbc.page, ?_⟩
  intro p hp
  obtain ⟨v, hv, hpv⟩ := hab.blocks p hp
  obtain ⟨w, hw, hvw⟩ := hbc.blocks (p.1, v) (mem_of_get? hv)
  exact ⟨w, hw, hpv.trans hvw⟩

/-- A scope whose aliases are declared once and whose values are mappings. -/
structure ScopeDistinct (scope : Scope) : Prop where
  bindings : (scope.bindings.map (·.1)).Nodup
  values : Distinct (.map scope.values)

theorem ScopeDistinct.kept {scope : Scope} (h : ScopeDistinct scope) :
    ScopeKept true scope scope := by
  obtain ⟨hnodup, hentries⟩ : (scope.values.map (·.1)).Nodup ∧ DistinctEntries scope.values := by
    simpa [Distinct] using h.values
  have hself := sameEntries_self hentries
  refine ⟨fun _ ht ↦ ht, fun p hp ↦ get?_of_mem h.bindings hp, ?_, ?_, fun _ _ hfree ↦ hfree⟩
  · intro p hp
    simp [get?_of_mem hnodup hp]
  · intro p hp _
    exact ⟨p.2, get?_of_mem hnodup hp, hself p hp⟩

theorem distinct_map {m : Mapping} :
    Distinct (.map m) ↔ (m.map (·.1)).Nodup ∧ ∀ p ∈ m, Distinct p.2 := by
  simp [Distinct, distinctEntries_iff]

theorem distinct_nil : Distinct (.map []) := distinct_map.mpr (by simp)

theorem distinct_of_get? {m : Mapping} {key : Key} {value : Yaml} (h : Distinct (.map m))
    (hvalue : get? m key = some value) : Distinct value :=
  (distinct_map.mp h).2 _ (mem_of_get? hvalue)

theorem distinct_entries? {m entries : Mapping} {key : String} (h : Distinct (.map m))
    (hentries : Yaml.entries? m key = some entries) : Distinct (.map entries) := by
  unfold Yaml.entries? at hentries
  split at hentries
  · cases hentries
    exact distinct_nil
  · next hvalue =>
    cases hentries
    exact distinct_of_get? h hvalue
  · cases hentries

theorem distinct_without {m : Mapping} (h : Distinct (.map m)) (keys : List String) :
    Distinct (.map (without m keys)) := by
  obtain ⟨hnodup, hentries⟩ := distinct_map.mp h
  refine distinct_map.mpr ⟨?_, fun p hp ↦ hentries p (mem_of_mem_filter hp)⟩
  exact hnodup.sublist (filter_sublist.map _)

theorem scopeDistinct_nil {values : Mapping} (h : Distinct (.map values)) :
    ScopeDistinct ⟨[], [], values⟩ := ⟨by simp, h⟩

theorem scopeDistinct_getD {s? : Option Scope} (h : ∀ s, s? = some s → ScopeDistinct s) :
    ScopeDistinct (s?.getD ⟨[], [], []⟩) := by
  cases s? with
  | none => exact scopeDistinct_nil distinct_nil
  | some s => exact h s rfl

theorem scope_distinct {raw values : Mapping} {path known : List String} {s : Scope}
    (h : Distinct (.map values)) (hs : (scope raw values path known).1 = some s) :
    ScopeDistinct s := by
  unfold scope at hs
  split at hs
  · cases hs
  · cases hs
    exact ⟨nodup_sorted .., h⟩

theorem block_distinct {explicit : List Uuid} {key : Key} {value : Yaml} {p : Uuid × Scope}
    (h : Distinct value) (hp : (block explicit key value).1 = some p) : ScopeDistinct p.2 := by
  unfold block at hp
  cases key with
  | text s =>
    dsimp only at hp
    split at hp
    · split at hp
      · next hvalues =>
        split at hvalues
        · obtain ⟨s, hs, rfl⟩ := map_eq_some_iff.mp hp
          exact scope_distinct (distinct_entries? h hvalues) hs
        · cases hvalues
      · cases hp
    · cases hp
  | _ => cases hp

/-- The scopes that a frontmatter declares. -/
theorem decode_distinct {raw : Mapping} (h : Distinct (.map raw)) (ids : List Uuid) :
    ScopeDistinct (decode (some raw) ids).page ∧
      ∀ p ∈ (decode (some raw) ids).blocks, ScopeDistinct p.2 := by
  have hrefused := scopeDistinct_nil distinct_nil
  unfold decode
  simp only [getD_some]
  split
  · exact ⟨hrefused, by simp⟩
  · split
    · exact ⟨scopeDistinct_nil (distinct_without h _), by simp⟩
    · next declared hdeclared =>
      split
      · split
        · next entries hentries =>
          split
          · exact ⟨hrefused, by simp⟩
          · have hdistinct := distinct_entries? (distinct_of_get? h hdeclared) hentries
            constructor
            · exact scopeDistinct_getD fun s hs ↦ scope_distinct (distinct_without h _) hs
            · intro p hp
              obtain ⟨result, hresult, hp⟩ := mem_filterMap.mp hp
              obtain ⟨entry, hentry, rfl⟩ := mem_map.mp hresult
              have hmem := (mem_insertionSort _).mp hentry
              exact block_distinct ((distinct_map.mp hdistinct).2 entry hmem) hp
        · exact ⟨hrefused, by simp⟩
      · exact ⟨hrefused, by simp⟩
    · exact ⟨hrefused, by simp⟩

section

variable {hash : Uuid → Uuid → ℕ → ℕ → Uuid} {document : Document} {d : Declared}

/-- What is decoded of a document are the declarations of its frontmatter. -/
theorem decoded_eq_some (h : decoded hash document = .ok (some d)) :
    ∃ raw, document.parsed.properties = some raw ∧
      d.decoded = decode (some raw) d.explicitBlocks := by
  unfold decoded at h
  dsimp only at h
  split at h
  · cases hraw : document.parsed.properties with
    | none => simp [hraw, get?] at h
    | some raw =>
      split at h
      · cases h
      · split at h
        · cases h
        · split at h
          · cases h
            exact ⟨raw, rfl, by rw [hraw]⟩
          · cases h
  · cases h

theorem decoded_self (h : decoded hash document = .ok (some d)) : Kept true d d := by
  obtain ⟨raw, hraw, hd⟩ := decoded_eq_some h
  obtain ⟨hpage, hblocks⟩ := decode_distinct (document.distinct raw hraw) d.explicitBlocks
  rw [← hd] at hpage hblocks
  refine ⟨rfl, fun _ hid ↦ hid, hpage.kept, fun p hp ↦ ⟨p.2, ?_, ?_⟩⟩
  · exact get?_of_mem (nodup_ofPairs _) hp
  · exact (hblocks p (mem_ofPairs hp)).kept

end

variable {D : Type} [DecidableEq D] (hash : Uuid → Uuid → ℕ → ℕ → Uuid) (parsed : D → Document)

/-- The change is `:valid`. -/
def Accepted (before after : D) : Prop := check hash parsed before after = .ok []

variable {hash parsed}

theorem accepted_iff {before after : D} {old new : Declared}
    (hold : decoded hash (parsed before) = .ok (some old))
    (hnew : decoded hash (parsed after) = .ok (some new)) :
    Accepted hash parsed before after ↔ DeclaredAskable old ∧ Kept (before = after) old new := by
  unfold Accepted check
  simpa [hold, hnew, bind, Except.bind] using compare_eq_nil

section

variable {declared : D → Declared}

theorem accepted_self {document : D}
    (h : decoded hash (parsed document) = .ok (some (declared document))) :
    Accepted hash parsed document document ↔ DeclaredAskable (declared document) := by
  have hself := decoded_self h
  simp [accepted_iff h h, hself]

/-- A binding that one change adds is a binding of nothing that the first document had. -/
theorem accepted_trans {a b c : D} (ha : decoded hash (parsed a) = .ok (some (declared a)))
    (hb : decoded hash (parsed b) = .ok (some (declared b)))
    (hc : decoded hash (parsed c) = .ok (some (declared c)))
    (hab : Accepted hash parsed a b) (hbc : Accepted hash parsed b c) :
    Accepted hash parsed a c := by
  by_cases heq : a = b
  · rwa [heq]
  by_cases heq' : b = c
  · rwa [← heq']
  obtain ⟨hask, hkept⟩ := (accepted_iff ha hb).mp hab
  obtain ⟨-, hkept'⟩ := (accepted_iff hb hc).mp hbc
  rw [decide_eq_false heq] at hkept
  rw [decide_eq_false heq'] at hkept'
  exact (accepted_iff ha hc).mpr ⟨hask, hkept.trans hkept'⟩

theorem accepted_chain {first : D} {rest : List D} (hdecoded : ∀ document ∈ first :: rest,
      decoded hash (parsed document) = .ok (some (declared document)))
    (hask : ∀ document ∈ first :: rest, DeclaredAskable (declared document))
    (hchain : List.IsChain (Accepted hash parsed) (first :: rest)) :
    Accepted hash parsed first ((first :: rest).getLast (by simp)) := by
  induction rest generalizing first with
  | nil =>
    exact (accepted_self (hdecoded first (by simp))).mpr (hask first (by simp))
  | cons next rest ih =>
    obtain ⟨hstep, hchain⟩ := isChain_cons_cons.mp hchain
    have hlast := ih (fun d hd ↦ hdecoded d (mem_cons_of_mem _ hd))
      (fun d hd ↦ hask d (mem_cons_of_mem _ hd)) hchain
    exact accepted_trans (hdecoded first (by simp)) (hdecoded next (by simp))
      (hdecoded _ (mem_cons_of_mem _ (getLast_mem _))) hstep hlast

/-- A chain of accepted changes is one accepted change exactly if every value can be looked for
among the bindings of its scope. -/
theorem chain_accepted_iff {first : D} {rest : List D}
    (hdecoded : ∀ document ∈ first :: rest,
      decoded hash (parsed document) = .ok (some (declared document))) :
    let last := (first :: rest).getLast (by simp)
    ((List.IsChain (Accepted hash parsed) (first :: rest) →
        Accepted hash parsed first last ∧ Kept (first = last) (declared first) (declared last)) ∧
      ∀ document ∈ first :: rest, Accepted hash parsed document document) ↔
    ∀ document ∈ first :: rest, DeclaredAskable (declared document) := by
  intro last
  have hself (document : D) (hmem : document ∈ first :: rest) :
      Accepted hash parsed document document ↔ DeclaredAskable (declared document) :=
    accepted_self (hdecoded document hmem)
  constructor
  · rintro ⟨-, hall⟩ document hmem
    exact (hself document hmem).mp (hall document hmem)
  · intro hask
    refine ⟨fun hchain ↦ ?_, fun document hmem ↦ (hself document hmem).mpr (hask document hmem)⟩
    have haccepted := accepted_chain hdecoded hask hchain
    have hkept := (accepted_iff (hdecoded first (by simp))
      (hdecoded last (getLast_mem _))).mp haccepted
    exact ⟨haccepted, hkept.2⟩

end

/-- A source without blocks and its frontmatter. -/
def note (raw : Mapping) (h : Distinct (.map raw)) : Document where
  profile := syntaxProfile
  parsed := ⟨"", 0, some raw, [], []⟩
  distinct := by
    rintro _ ⟨⟩
    exact h

/-- A note with one bound property. -/
def metric (entry : Key × Yaml) : Mapping :=
  [entry, (.text "simmis-id", .str "aaaaaaaa-aaaa-4aaa-8aaa-aaaaaaaaaaaa"),
    (.text "simmis", .map [(.text "version", .int 1), (.text "properties", .map [(.text "metric",
      .map [(.text "id", .str "dddddddd-dddd-4ddd-8ddd-dddddddddddd"),
        (.text "type", .str "cccccccc-cccc-4ccc-8ccc-cccccccccccc")])])])]

theorem metric_distinct {entry : Key × Yaml} (hkey : entry.1 ∉ [.text "simmis-id", .text "simmis"])
    (h : Distinct entry.2) : Distinct (.map (metric entry)) := by
  simpa [Distinct, DistinctEntries, metric, h] using hkey

/-- The metric of a note goes from zero to one. -/
def measured (after : Bool) : Document :=
  note (metric (.text "metric", .int after.toNat)) (metric_distinct (by simp) (by simp [Distinct]))

theorem chain_accepted_iff_measured :
    ((List.IsChain (Accepted (fun _ _ _ _ ↦ 0) measured) [false, true] →
        Accepted (fun _ _ _ _ ↦ 0) measured false true ∧
          Kept (false = true)
            ⟨decode (measured false).parsed.properties [], []⟩
            ⟨decode (measured true).parsed.properties [], []⟩) ∧
      ∀ document ∈ [false, true], Accepted (fun _ _ _ _ ↦ 0) measured document document) ↔
    ∀ document ∈ [false, true],
      DeclaredAskable ⟨decode (measured document).parsed.properties [], []⟩ :=
  have hdecoded : ∀ document ∈ [false, true], decoded (fun _ _ _ _ ↦ 0) (measured document) =
      .ok (some ⟨decode (measured document).parsed.properties [], []⟩) := by
    intro document _
    cases document <;> rfl
  chain_accepted_iff hdecoded

/-- A frontmatter line `on: friday` stands under the key `true`, which is compared with the alias
of the bound property. -/
def onFriday : Document :=
  note (metric (.printed "true", .str "friday")) (metric_distinct (by simp) (by simp [Distinct]))

theorem onFriday_not_accepted : (∃ d, decoded (fun _ _ _ _ ↦ 0) onFriday = .ok (some d)) ∧
    ¬ Accepted (fun _ _ _ _ ↦ 0) (fun _ : Unit ↦ onFriday) () () :=
  ⟨⟨⟨decode onFriday.parsed.properties [], []⟩, rfl⟩, by
    have hcheck : check (fun _ _ _ _ ↦ 0) (fun _ : Unit ↦ onFriday) () () = .error .classCast := by
      decide
    simp [Accepted, hcheck]⟩

end Simmis.Documents.Preservation
