import Simmis.Workers.Files

/-!
# Inputs of a local worker

The worker reads a frozen input chunk by chunk and checks it with its own means before it uses any
of it. A name of its runtime configuration is never the name of an input.
-/

namespace Simmis.Workers.Inputs

open Files (Chunk Config File FileMap Frozen Limits)

/-- `unicodedata.category(c) == "Cc"` -/
def isControl (c : ℕ) : Bool := c < 0x20 || (0x7F ≤ c && c < 0xA0)

/-- `str.isspace` of a character. -/
def isSpace (c : ℕ) : Bool :=
  (0x09 ≤ c && c ≤ 0x0D) || (0x1C ≤ c && c ≤ 0x20) || c = 0x85 || c = 0xA0 || c = 0x1680 ||
    (0x2000 ≤ c && c ≤ 0x200A) || c = 0x2028 || c = 0x2029 || c = 0x202F || c = 0x205F || c = 0x3000

def points (s : String) : List ℕ := s.toList.map Char.toNat

/-- `str.casefold` of a character, as far as the names of the configuration need it. -/
def casefold (c : ℕ) : List ℕ :=
  if 65 ≤ c ∧ c ≤ 90 then [c + 32]
  else if c = 0x17F then points "s"
  else if c = 0x212A then points "k"
  else if c = 0xDF ∨ c = 0x1E9E then points "ss"
  else if c = 0xFB00 then points "ff"
  else if c = 0xFB01 then points "fi"
  else if c = 0xFB02 then points "fl"
  else if c = 0xFB03 then points "ffi"
  else if c = 0xFB04 then points "ffl"
  else if c = 0xFB05 ∨ c = 0xFB06 then points "st"
  else [c]

/-- `CONTROL_PATHS` -/
def controlPaths : List (List ℕ) :=
  [".git", ".codex", ".claude", ".agents", ".aws", ".ssh", ".mcp.json", ".claude.json"].map points

local instance lawfulPoints : LawfulBEq (List ℕ) := inferInstance

def isRefused (segment : List ℕ) : Bool :=
  segment.all isSpace || segment = points "." || segment = points ".." ||
    decide (segment.flatMap casefold ∈ controlPaths)

def pathParts (path : PyString) : Option (List (List ℕ)) :=
  if 1 ≤ path.len ∧ path.len ≤ 512 ∧ 92 ∉ path.points ∧ path.points.any isControl = false ∧
      path.encodable = true ∧ (path.points.splitOn 47).any isRefused = false then
    some (path.points.splitOn 47)
  else none

/-- The joined leading parts of a name. -/
def parents (parts : List (List ℕ)) : List PyString := (Segments.leading 47 parts).map PyString.mk

def text (s : PyString) (maximum : ℕ) : Bool := 1 ≤ s.len && s.len ≤ maximum

/-- `[0-9a-f]{64}` -/
def isDigest (s : PyString) : Bool := s.len = 64 && s.points.all Files.isHexDigit

/-- `str(uuid.UUID(value)) == value` -/
def canonicalUuid (s : PyString) : Bool :=
  s.len = 36 && s.points.zipIdx.all fun c ↦
    if c.2 ∈ [8, 13, 18, 23] then c.1 = 45 else Files.isHexDigit c.1

section Digest

variable (digest : List UInt8 → List UInt8)

/-- `hashlib.sha256(data).hexdigest()` -/
def sha256 (data : List UInt8) : PyString := ⟨Files.hex (digest data)⟩

def fileBytes (file : Option (File PyString)) : Option (List UInt8) := do
  let file ← file
  if file.base64.len ≤ 1398104 ∧ 0 ≤ file.bytes ∧ file.bytes ≤ Files.policy.maxFileBytes ∧
      (file.mode = 0o100644 ∨ file.mode = 0o100755) ∧ isDigest file.sha256 = true then do
    let data ← Base64.decode true file.base64.points
    if (data.length : ℤ) = file.bytes ∧ sha256 digest data = file.sha256 then some data else none
  else none

def checkConfig (frozen config : Config PyString) : Bool :=
  decide (frozen = config) && (config.adapter = "codex" || config.adapter = "claude-code") &&
    text config.version 200 && text config.model 200 && config.policy = "local-trusted-v1"

def checkLimits (limits : Limits PyString) : Bool :=
  1000 ≤ limits.timeoutMs && limits.timeoutMs ≤ 600000 &&
    (limits.settlement = "review" || limits.settlement = "discard")

/-- One step of the loop over the files. -/
def checkFile (files : FileMap PyString) (total : ℤ) (e : PyString × Option (File PyString)) :
    Option ℤ := do
  let parts ← pathParts e.1
  if (parents parts).any fun p ↦ decide (p ∈ files.map Prod.fst) then none
  else do
    let data ← fileBytes digest e.2
    let total := total + data.length
    if total > Files.policy.maxTotalBytes then none else some total

def validate (frozen : Frozen PyString PyString) (config : Config PyString) : Bool :=
  canonicalUuid frozen.inputId && checkConfig frozen.config config && text frozen.task 16000 &&
    frozen.policy = Files.policy && checkLimits frozen.limits &&
    (frozen.files.length : ℤ) ≤ Files.policy.maxFiles &&
    (frozen.files.foldlM (checkFile digest frozen.files) 0).isSome

structure Identity where
  inputId : PyString
  bytes : ℤ
  sha256 : PyString
deriving DecidableEq

def identity (part : Chunk PyString PyString) : Identity := ⟨part.inputId, part.bytes, part.sha256⟩

/-- The data of a chunk that follows `offset` bytes. -/
def checkChunk (descriptor : Option Identity) (offset : ℕ) (part : Chunk PyString PyString) :
    Option (List UInt8) :=
  if canonicalUuid part.inputId = true ∧ 1 ≤ part.bytes ∧
      part.bytes ≤ Files.policy.maxInputJsonBytes ∧ isDigest part.sha256 = true ∧
      part.offset = offset ∧ (∀ d ∈ descriptor, identity part = d) ∧
      part.base64.len ≤ 21848 then do
    let data ← Base64.decode true part.base64.points
    let stop : ℤ := offset + data.length
    if 1 ≤ data.length ∧ (data.length : ℤ) ≤ Files.policy.chunkBytes ∧ stop ≤ part.bytes ∧
        (stop < part.bytes → part.nextOffset = some stop) ∧
        (stop = part.bytes → part.nextOffset = none) then some data
    else none
  else none

section Fetch

variable (call : ℕ → ℕ → Option (Chunk PyString PyString))

/-- The loop of `fetch`, for at most `fuel` chunks. -/
def fetchLoop : ℕ → Option Identity → List UInt8 → ℕ → Option (Identity × List UInt8)
  | 0, _, _, _ => none
  | fuel + 1, descriptor, chunks, offset => do
    let part ← call offset Files.policy.chunkBytes.toNat
    let data ← checkChunk descriptor offset part
    let next := offset + data.length
    if (next : ℤ) = part.bytes then some (identity part, chunks ++ data)
    else fetchLoop fuel (some (identity part)) (chunks ++ data) next

/-- `fetch`, where `loads` is `json.loads` of the decoded bytes. -/
def fetch (loads : List UInt8 → Option (Frozen PyString PyString)) (fuel : ℕ) (run : PyString)
    (config : Config PyString) : Option (Frozen PyString PyString) :=
  if canonicalUuid run then do
    let (descriptor, encoded) ← fetchLoop call fuel none [] 0
    if sha256 digest encoded = descriptor.sha256 then do
      let frozen ← loads encoded
      if validate digest frozen config = true ∧ frozen.inputId = descriptor.inputId then some frozen
      else none
    else none
  else none

end Fetch

end Digest

end Simmis.Workers.Inputs
