import Mathlib.Data.List.Lex
import Simmis.Documents.Db

/-!
# Frontmatter declarations

The frontmatter of a document may carry the identity of the document, and under a reserved key the
types, the property aliases and the blocks that the document declares. Decoding them reads nothing
but the frontmatter.
-/

namespace Simmis.Text

/-- The UTF-16 code units of a string. -/
def units (s : String) : List ℕ :=
  s.toList.flatMap fun c ↦
    if c.toNat < 0x10000 then [c.toNat]
    else [0xD800 + (c.toNat - 0x10000) / 0x400, 0xDC00 + (c.toNat - 0x10000) % 0x400]

/-- `compare` of two strings is not positive. -/
def le (s t : String) : Bool := units s ≤ units t

/-- `\p{Cntrl}` -/
def isControl (c : Char) : Bool := c.toNat < 0x20 ∨ c.toNat = 0x7F

/-- `(str/split s #"/" -1)` -/
def segments (s : String) : List String := (s.toList.splitOn '/').map String.ofList

end Simmis.Text

namespace Simmis.Documents

open Maps

def hexDigit? (u : ℕ) : Option ℕ :=
  if 48 ≤ u ∧ u ≤ 57 then some (u - 48) else if 97 ≤ u ∧ u ≤ 102 then some (u - 87) else none

/-- A UUID as `str` prints it, lower-case with four dashes. -/
def canonicalUnits (raw : List ℕ) : Option Uuid :=
  let dashed := [8, 13, 18, 23]
  if raw.length = 36 ∧ ∀ i ∈ dashed, raw[i]? = some 45 then
    let digits := (raw.zipIdx.filter fun u ↦ u.2 ∉ dashed).mapM fun u ↦ hexDigit? u.1
    digits.map fun ds ↦ ds.foldl (fun n d ↦ 16 * n + d) 0
  else none

def canonicalUuid (raw : String) : Option Uuid := canonicalUnits (Text.units raw)

/-- The order of `java.util.UUID`: of its two halves as signed numbers. -/
def Uuid.le (a b : Uuid) : Bool :=
  let signed (n : ℕ) := (n + 2 ^ 63) % 2 ^ 64
  let rank (n : ℕ) := signed (n / 2 ^ 64) * 2 ^ 64 + signed (n % 2 ^ 64)
  rank a ≤ rank b

/-- A key of a mapping, perhaps no text; no source has that of a generated property. -/
inductive Key
  | text (s : String)
  | printed (s : String)
  | generated (id : Uuid)
deriving DecidableEq

def Key.str : Key → String
  | text s | printed s => s
  | generated _ => ""

inductive Yaml
  | null
  | bool (b : Bool)
  | int (n : ℤ)
  | double (bits : UInt64)
  | str (s : String)
  | date (ms : ℤ)
  | seq (items : List Yaml)
  | map (entries : List (Key × Yaml))

/-- A mapping, `nil` where there is no frontmatter or no valid one. -/
abbrev Mapping := List (Key × Yaml)

namespace Yaml

def canonicalUuid? : Yaml → Option Uuid
  | str s => canonicalUuid s
  | _ => none

/-- The entries under a key of a mapping, none if the key is missing. -/
def entries? (m : Mapping) (key : String) : Option Mapping :=
  match get? m (.text key) with
  | none => some []
  | some (map entries) => some entries
  | some _ => none

end Yaml

/-- A node of the syntax tree, with its span. -/
inductive Node
  | mk (kind : String) (start stop : ℕ) (children : List Node)

namespace Node

def kind : Node → String
  | mk kind _ _ _ => kind

def start : Node → ℕ
  | mk _ start _ _ => start

def stop : Node → ℕ
  | mk _ _ stop _ => stop

def children : Node → List Node
  | mk _ _ _ children => children

/-- `tree-seq` below and with a node. -/
def nodes : Node → List Node
  | mk kind start stop children =>
    mk kind start stop children :: (children.map nodes).flatten

end Node

/-- What is wrong with a block marker or with a block. -/
inductive Blocks.Problem
  | nestedMarker
  | invalidMarker
  | unmatchedClose
  | unclosed
  | duplicateId

inductive Metadata.Problem
  | invalidDocumentId
  | unsupportedVersion
  | invalidBlock
  | invalidScope
  | unsupportedField
  | duplicateTypeAssignment
  | ambiguousPropertyAlias
  | typedDocumentNeedsExplicitIdentity

/-- What is wrong with the value of a property, or with its absence. -/
inductive Properties.Problem
  | ownerManagedProperty
  | componentProperty
  | uniquePropertyNeedsValidation
  | propertyNeedsValidator
  | unresolvedPropertyReference
  | tooManyPropertyValues
  | invalidPropertyReference
  | invalidPropertyValue
  | missingRequiredProperty
  | requiredOwnerManagedProperty
deriving DecidableEq

/-- A diagnostic, with the span, the path, the field or the property that it names. -/
inductive Diagnostic
  | frontmatter
  | block (problem : Blocks.Problem) (start stop : ℕ)
  | invalidDocumentId (path : String)
  | metadata (problem : Metadata.Problem) (path : List String)
  | property (problem : Properties.Problem) (slot : Key)
  | requiredProperty (problem : Properties.Problem) (id : Uuid)
  | invalidCanonicalDocument (path : String) (reason : Error)
  | invalidSelectionConstraints (reason : Constraints.Reason)
  | canonical (path : String) (diagnostic : Diagnostic)
  | duplicateDocumentId (path : String)
  | duplicateSemanticId (path : String) (start : ℕ)

/-- What the parser makes of a source. -/
structure Parsed where
  source : String
  revision : Uuid
  properties : Option Mapping
  diagnostics : List Diagnostic
  nodes : List Node

inductive IdentityStatus
  | explicit
  | provisional
  | invalid
deriving DecidableEq

/-- `identity/document`; `hash` is `hasch/uuid` of the repository and the path. -/
def identityDocument (hash : Uuid → String → Uuid) (repository : Uuid) (path : String)
    (parsed : Parsed) : Option Uuid × IdentityStatus × List Diagnostic :=
  match get? (parsed.properties.getD []) (.text "simmis-id") with
  | some raw =>
    match raw.canonicalUuid? with
    | some id => (some id, .explicit, [])
    | none => (none, .invalid, [.invalidDocumentId path])
  | none => (some (hash repository path), .provisional, [])

namespace Metadata

/-- The property that an alias names, and the type that declares it. -/
structure Alias where
  id : Uuid
  declaringType : Uuid
deriving DecidableEq

structure Scope where
  types : List Uuid
  bindings : List (String × Alias)
  values : Mapping

inductive Status
  | plain
  | ready
  | invalid
deriving DecidableEq

structure Decoded where
  status : Status
  page : Scope
  blocks : List (Uuid × Scope)
  documentId : Option Uuid
  diagnostics : List Diagnostic

def reserved : List String := ["simmis", "simmis-id"]

def isAlias (s : String) : Bool :=
  1 ≤ Text.count s ∧ Text.count s ≤ 128 ∧ ¬ Text.isBlank s ∧ s ∉ reserved

/-- A property entry, its `id` and `type` two canonical UUIDs. -/
def alias? : Key × Yaml → Option (String × Alias)
  | (.text s, .map entries) => do
    guard (isAlias s)
    let id ← (get? entries (.text "id")).bind Yaml.canonicalUuid?
    let declaringType ← (get? entries (.text "type")).bind Yaml.canonicalUuid?
    return (s, ⟨id, declaringType⟩)
  | _ => none

/-- `scope-schema`, with what it admits: at most 64 types and as many aliases. -/
def admitted? (raw : Mapping) : Option (List Uuid × List (String × Alias)) := do
  let types ← match get? raw (.text "types") with
    | none => some []
    | some (.seq items) => do
      guard (items.length ≤ 64)
      items.mapM Yaml.canonicalUuid?
    | some _ => none
  let entries ← Yaml.entries? raw "properties"
  guard (entries.length ≤ 64)
  let bindings ← entries.mapM alias?
  return (types, bindings)

def unknownFields (raw : Mapping) (known path : List String) : List Diagnostic :=
  let unknown := (raw.map (·.1)).filter fun key ↦ key ∉ known.map Key.text
  (unknown.insertionSort fun a b ↦ Text.le a.str b.str).map fun key ↦
    .metadata .unsupportedField (path ++ [key.str])

def scope (raw values : Mapping) (path known : List String) : Option Scope × List Diagnostic :=
  match admitted? raw with
  | none => (none, [.metadata .invalidScope path])
  | some (types, pairs) =>
    let bindings := sorted Text.le pairs
    let ids := bindings.map (·.2.id)
    let repeated := if types.Nodup then []
      else [.metadata .duplicateTypeAssignment (path ++ ["types"])]
    let shared := (bindings.filter fun b ↦ 1 < ids.count b.2.id).map fun b ↦
      .metadata .ambiguousPropertyAlias (path ++ ["properties", b.1])
    let fields := ((Yaml.entries? raw "properties").getD []).flatMap fun entry ↦
      match entry with
      | (key, .map binding) => unknownFields binding ["id", "type"] (path ++ ["properties", key.str])
      | _ => []
    (some ⟨types, bindings, values⟩, unknownFields raw known path ++ repeated ++ shared ++ fields)

def Scope.isTyped (s : Scope) : Bool := s.types ≠ [] ∨ s.bindings ≠ []

/-- The declaration of one block, under its key in the reserved mapping. -/
def block (explicit : List Uuid) (key : Key) (value : Yaml) :
    Option (Uuid × Scope) × List Diagnostic :=
  let path := ["simmis", "blocks", key.str]
  let id? := match key with
    | .text s => canonicalUuid s
    | _ => none
  match id?, value with
  | some id, .map raw =>
    match if id ∈ explicit then Yaml.entries? raw "values" else none with
    | some values =>
      let (decoded, diagnostics) := scope raw values path ["types", "properties", "values"]
      (decoded.map fun s ↦ (id, s), diagnostics)
    | none => (none, [.metadata .invalidBlock path])
  | _, _ => (none, [.metadata .invalidBlock path])

/-- The mapping without some keys: `dissoc`. -/
def without (raw : Mapping) (keys : List String) : Mapping :=
  raw.filter fun entry ↦ entry.1 ∉ keys.map Key.text

/-- `metadata/decode`; the ids are those of the explicit blocks of the document. -/
def decode (properties : Option Mapping) (explicit : List Uuid) : Decoded :=
  let raw := properties.getD []
  let id? := (get? raw (.text "simmis-id")).bind Yaml.canonicalUuid?
  let refused (problem : Problem) : Decoded :=
    ⟨.invalid, ⟨[], [], []⟩, [], id?, [.metadata problem []]⟩
  if (get? raw (.text "simmis-id")).isSome ∧ id?.isNone then refused .invalidDocumentId
  else match get? raw (.text "simmis") with
    | none => ⟨.plain, ⟨[], [], without raw ["simmis-id"]⟩, [], id?, []⟩
    | some (.map declared) =>
      match get? declared (.text "version") with
      | some (.int 1) =>
        match Yaml.entries? declared "blocks" with
        | some entries =>
          if 20000 < entries.length then refused .invalidBlock
          else
            let (page, pageDiagnostics) := scope declared (without raw reserved) ["simmis"]
              ["version", "types", "properties", "blocks"]
            let results := (entries.insertionSort fun a b ↦ Text.le a.1.str b.1.str).map fun entry ↦
              block explicit entry.1 entry.2
            let blocks := results.filterMap (·.1)
            let typed := (page.toList ++ blocks.map (·.2)).any Scope.isTyped
            let anonymous := if typed ∧ id?.isNone
              then [.metadata .typedDocumentNeedsExplicitIdentity []] else []
            let diagnostics := pageDiagnostics ++ results.flatMap (·.2) ++ anonymous
            ⟨if diagnostics.isEmpty then .ready else .invalid, page.getD ⟨[], [], []⟩, blocks, id?,
              diagnostics⟩
        | none => refused .invalidBlock
      | _ => refused .unsupportedVersion
    | some _ => refused .unsupportedVersion

end Metadata

end Simmis.Documents
