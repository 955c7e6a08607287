import Simmis.Documents.Metadata

/-!
# Blocks of a document

Comments at the top level of a Markdown source open and close the blocks that have an identity of
their own. Everything else at the top level is a provisional block.
-/

namespace Simmis.Documents

/-- A span of a source. -/
structure Region where
  start : ℕ
  stop : ℕ

inductive Block
  | mk (id : Uuid) (status : IdentityStatus) (span : Region) (regions : List Region)
      (syntactic : List Node) (ordinal : ℕ) (children : List Block)

namespace Block

def id : Block → Uuid
  | mk id _ _ _ _ _ _ => id

def status : Block → IdentityStatus
  | mk _ status _ _ _ _ _ => status

def span : Block → Region
  | mk _ _ span _ _ _ _ => span

/-- `tree-seq` below and with a block. -/
def blocks : Block → List Block
  | mk id status span regions syntactic ordinal children =>
    mk id status span regions syntactic ordinal children :: (children.map blocks).flatten

end Block

namespace Blocks

/-- What a comment says: it opens or closes a block, or fails to. -/
inductive Marker
  | opening (id : Uuid)
  | closing
  | invalid

def commentKinds : List String := ["HtmlCommentBlock", "HtmlInlineComment"]

def isSpace (u : ℕ) : Bool := Text.isWhitespace (Char.ofNat u)

/-- `str/trim`, on code units. -/
def trim (us : List ℕ) : List ℕ := ((us.dropWhile isSpace).reverse.dropWhile isSpace).reverse

/-- The id in `<!-- simmis:block ([^ ]+) -->`, if the text is of that form. -/
def openedId? (text : List ℕ) : Option (List ℕ) := do
  let rest ← text.dropPrefix? (Text.units "<!-- simmis:block ")
  let id ← rest.reverse.dropPrefix? (Text.units " -->").reverse
  guard (id ≠ [] ∧ 32 ∉ id)
  return id.reverse

def marker (source : String) (node : Node) : Option Marker :=
  if node.kind ∈ commentKinds then
    let text := trim (((Text.units source).take node.stop).drop node.start)
    if text = Text.units "<!-- /simmis:block -->" then some .closing
    else if (Text.units "<!-- simmis:block").isPrefixOf text then
      match (openedId? text).bind canonicalUnits with
      | some id => some (.opening id)
      | none => some .invalid
    else if (Text.units "<!-- /simmis:block").isPrefixOf text then some .invalid
    else none
  else none

/-- An open block, or the top level if it has no id. -/
structure Frame where
  id? : Option Uuid
  start : ℕ
  contentStart : ℕ
  syntactic : List Node
  children : List Block

/-- The content of a block that ends at `stop`, without its children. -/
def groupRegions (position stop : ℕ) : List Block → List Region
  | [] => if position < stop then [⟨position, stop⟩] else []
  | child :: rest =>
    let own := if position < child.span.start then [⟨position, child.span.start⟩] else []
    own ++ groupRegions child.span.stop stop rest

structure State where
  stack : List Frame
  diagnostics : List Diagnostic

def maxGroupDepth : ℕ := 100

/-- `append-block`; the innermost frame stands first. -/
def appendBlock (stack : List Frame) (block : ℕ → Block) : List Frame :=
  match stack with
  | [] => []
  | frame :: below =>
    { frame with children := frame.children ++ [block frame.children.length] } :: below

variable (hash : Uuid → Uuid → ℕ → ℕ → Uuid)

/-- `plain-block`; `hash` is `hasch/uuid` of the document, the revision and the span. -/
def plainBlock (document revision : Uuid) (node : Node) (ordinal : ℕ) : Block :=
  .mk (hash document revision node.start node.stop) .provisional ⟨node.start, node.stop⟩
    [⟨node.start, node.stop⟩] [node] ordinal []

def step (document : Uuid) (parsed : Parsed) (s : State) (node : Node) : Except Error State :=
  match marker parsed.source node with
  | some (.opening id) =>
    if maxGroupDepth < s.stack.length then .error .blocks
    else .ok { s with stack := ⟨some id, node.start, node.stop, [], []⟩ :: s.stack }
  | some .closing =>
    match s.stack with
    | ⟨some id, start, contentStart, syntactic, children⟩ :: below =>
      let regions := groupRegions contentStart node.start children
      let block (ordinal : ℕ) : Block :=
        .mk id .explicit ⟨start, node.stop⟩ regions syntactic ordinal children
      .ok { s with stack := appendBlock below block }
    | _ =>
      let diagnostic := .block .unmatchedClose node.start node.stop
      .ok { s with diagnostics := s.diagnostics ++ [diagnostic] }
  | some .invalid =>
    let diagnostic := .block .invalidMarker node.start node.stop
    .ok { s with diagnostics := s.diagnostics ++ [diagnostic] }
  | none =>
    match s.stack with
    | frame :: outer :: below =>
      .ok { s with
        stack := { frame with syntactic := frame.syntactic ++ [node] } :: outer :: below }
    | stack =>
      .ok { s with stack := appendBlock stack (plainBlock hash document parsed.revision node) }

structure Semantic where
  blocks : List Block
  diagnostics : List Diagnostic

/-- All blocks of a projection. -/
def Semantic.all (s : Semantic) : List Block := s.blocks.flatMap Block.blocks

def project (document : Uuid) (parsed : Parsed) : Except Error Semantic := do
  let nested := ((parsed.nodes.flatMap Node.children).flatMap Node.nodes).filter fun node ↦
    (marker parsed.source node).isSome
  let refused := nested.map fun node ↦ .block .nestedMarker node.start node.stop
  let top : Frame := ⟨none, 0, 0, [], []⟩
  let s ← parsed.nodes.foldlM (step hash document parsed) ⟨[top], parsed.diagnostics ++ refused⟩
  let blocks := ((s.stack.getLast?.map Frame.children).getD [])
  let all := blocks.flatMap Block.blocks
  let ids := all.map Block.id
  let unclosed := s.stack.dropLast.map fun frame ↦ .block .unclosed frame.start frame.start
  let duplicates := (all.filter fun block ↦ 1 < ids.count block.id).map fun block ↦
    .block .duplicateId block.span.start block.span.stop
  return ⟨blocks, s.diagnostics ++ unclosed ++ duplicates⟩

end Blocks

end Simmis.Documents
