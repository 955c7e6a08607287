import Simmis.Library.Base64
import Simmis.Library.PythonStrings
import Simmis.Library.Segments
import Simmis.Workers.Values
import Mathlib.Data.List.DropRight

/-!
# Inputs and outputs of external workers

The frozen input that the server gives to a worker in chunks, and the output that it takes back. The
worker is a program of its own, in another language; what it makes of the same data is modelled
beside this.
-/

namespace Simmis.Workers.Files

structure Policy where
  version : ℤ
  maxFiles : ℤ
  maxFileBytes : ℤ
  maxTotalBytes : ℤ
  maxInputJsonBytes : ℤ
  chunkBytes : ℤ
  leaseTtlMs : ℤ
deriving DecidableEq

/-- `worker-contract/policy` -/
def policy : Policy where
  version := 2
  maxFiles := 100
  maxFileBytes := 1048576
  maxTotalBytes := 2097152
  maxInputJsonBytes := 4194304
  chunkBytes := 16384
  leaseTtlMs := 30000

structure Config (S : Type) where
  adapter : S
  version : S
  model : S
  policy : S
deriving DecidableEq

structure Limits (S : Type) where
  timeoutMs : ℤ
  settlement : S
deriving DecidableEq

structure File (S : Type) where
  base64 : S
  bytes : ℤ
  sha256 : S
  mode : ℤ
deriving DecidableEq

/-- Files by their names, `nil` where a file is deleted. -/
abbrev FileMap (S : Type) := List (S × Option (File S))

/-- A frozen input without its identity. -/
structure Body (S : Type) where
  task : S
  config : Config S
  files : FileMap S
  limits : Limits S
  policy : Policy
deriving DecidableEq

structure Frozen (U S : Type) extends Body S where
  inputId : U
deriving DecidableEq

structure Output (S : Type) where
  files : FileMap S
  summary : S
  exitCode : ℤ
deriving DecidableEq

structure Chunk (U S : Type) where
  inputId : U
  bytes : ℤ
  sha256 : S
  offset : ℤ
  base64 : S
  nextOffset : Option ℤ
deriving DecidableEq

section Map

variable {S T U V : Type} (f : S → T) (id : U → V)

def Config.map (c : Config S) : Config T := ⟨f c.adapter, f c.version, f c.model, f c.policy⟩

def Limits.map (l : Limits S) : Limits T := ⟨l.timeoutMs, f l.settlement⟩

def File.map (file : File S) : File T := ⟨f file.base64, file.bytes, f file.sha256, file.mode⟩

def mapFiles (files : FileMap S) : FileMap T := files.map fun e ↦ (f e.1, e.2.map (File.map f))

def Body.map (b : Body S) : Body T :=
  ⟨f b.task, b.config.map f, mapFiles f b.files, b.limits.map f, b.policy⟩

def Frozen.map (frozen : Frozen U S) : Frozen V T :=
  { frozen.toBody.map f with inputId := id frozen.inputId }

def Output.map (output : Output S) : Output T :=
  ⟨mapFiles f output.files, f output.summary, output.exitCode⟩

def Chunk.map (chunk : Chunk U S) : Chunk V T :=
  ⟨id chunk.inputId, chunk.bytes, f chunk.sha256, chunk.offset, f chunk.base64, chunk.nextOffset⟩

end Map

def configSchema (c : Config JavaString) : Bool :=
  (c.adapter = "codex" || c.adapter = "claude-code") &&
    1 ≤ c.version.count && c.version.count ≤ 200 && 1 ≤ c.model.count && c.model.count ≤ 200 &&
    c.policy = "local-trusted-v1"

def limitsSchema (l : Limits JavaString) : Bool :=
  1000 ≤ l.timeoutMs && l.timeoutMs ≤ 600000 && (l.settlement = "review" || l.settlement = "discard")

/-- `[0-9a-f]` -/
def isHexDigit (c : ℕ) : Bool := (48 ≤ c && c ≤ 57) || (97 ≤ c && c ≤ 102)

/-- `$` also matches before a line terminator at the end. -/
def lineEnds : List (List ℕ) := [[], [10], [13], [13, 10], [0x85], [0x2028], [0x2029]]

/-- `^[0-9a-f]{64}$` -/
def isDigestLine (code : List ℕ) : Bool :=
  64 ≤ code.length && (code.take 64).all isHexDigit && decide (code.drop 64 ∈ lineEnds)

def fileSchema (file : File JavaString) : Bool :=
  file.base64.count ≤ 1398104 && 0 ≤ file.bytes && file.bytes ≤ 1048576 &&
    isDigestLine file.sha256.code && (file.mode = 0x81A4 || file.mode = 0x81ED)

def outputSchema (output : Output JavaString) : Bool :=
  output.files.length ≤ 100 &&
    (output.files.all fun e ↦ 1 ≤ e.1.count && e.1.count ≤ 512 && e.2.all fileSchema) &&
    output.summary.count ≤ 16000 && 0 ≤ output.exitCode && output.exitCode ≤ 255

/-- An output whose file names may be keywords. -/
structure Transported where
  files : List (Key × Option (File JavaString))
  summary : JavaString
  exitCode : ℤ
deriving DecidableEq

/-- `(keyword s)`, which has what stands before the first slash as its namespace. -/
def keyword (s : JavaString) : Key :=
  if 47 ∉ s.units ∨ s.units = [47] then .keyword none s
  else .keyword (some ⟨s.units.takeWhile (· ≠ 47)⟩) ⟨(s.units.dropWhile (· ≠ 47)).tail⟩

/-- An output as the server decodes it from the JSON of the worker. -/
def decoded (output : Output PyString) : Transported where
  files := output.files.map fun e ↦ (keyword e.1.utf16, e.2.map (File.map PyString.utf16))
  summary := output.summary.utf16
  exitCode := output.exitCode

def transportSchema (output : Transported) : Bool :=
  output.files.length ≤ 100 &&
    (output.files.all fun e ↦ (match e.1 with
      | .string s => 1 ≤ s.count && s.count ≤ 512
      | .keyword _ _ => true) && e.2.all fileSchema) &&
    output.summary.count ≤ 16000 && 0 ≤ output.exitCode && output.exitCode ≤ 255

/-- `transport-output` -/
def transportOutput (output : Transported) : Option (Output JavaString) :=
  if transportSchema output then do
    let files ← output.files.foldlM (fun (out : FileMap JavaString) e ↦
      if e.1.wire ∈ out.map Prod.fst then none else some (out ++ [(e.1.wire, e.2)])) []
    some ⟨files, output.summary, output.exitCode⟩
  else none

/-- SHA-256, the policy for paths, the identity of a frozen input, and the text of a UUID. -/
structure Host (U : Type) where
  digest : List UInt8 → List UInt8
  workspacePath : JavaString → Option JavaString
  identity : Body JavaString → U
  text : U → JavaString

def hexDigit (n : ℕ) : ℕ := if n < 10 then 48 + n else 87 + n

/-- `bytes->hex` -/
def hex (bytes : List UInt8) : List ℕ :=
  bytes.flatMap fun b ↦ [hexDigit (b.toNat / 16), hexDigit (b.toNat % 16)]

/-- A string of ASCII characters. -/
def ascii (code : List ℕ) : JavaString := ⟨code.map Nat.toUInt16⟩

/-- The bytes of a code point. -/
def utf8Point (p : ℕ) : List UInt8 :=
  if p < 0x80 then [p.toUInt8]
  else if p < 0x800 then [(0xC0 + p / 0x40).toUInt8, (0x80 + p % 0x40).toUInt8]
  else if p < 0x10000 then
    [(0xE0 + p / 0x1000).toUInt8, (0x80 + p / 0x40 % 0x40).toUInt8, (0x80 + p % 0x40).toUInt8]
  else
    [(0xF0 + p / 0x40000).toUInt8, (0x80 + p / 0x1000 % 0x40).toUInt8,
      (0x80 + p / 0x40 % 0x40).toUInt8, (0x80 + p % 0x40).toUInt8]

def upperHexDigit (n : ℕ) : ℕ := if n < 10 then 48 + n else 55 + n

def escape (p : ℕ) : List ℕ :=
  if p = 34 ∨ p = 92 then [92, p]
  else if p = 8 then [92, 98]
  else if p = 9 then [92, 116]
  else if p = 10 then [92, 110]
  else if p = 12 then [92, 102]
  else if p = 13 then [92, 114]
  else if p < 32 then [92, 117, 48, 48, upperHexDigit (p / 16), upperHexDigit (p % 16)]
  else [p]

/-- A string of JSON, in the code points that are read from its bytes. -/
def quoted (s : JavaString) : List ℕ := 34 :: (s.received.points.flatMap escape ++ [34])

def number (n : ℤ) : List ℕ := (toString n).toList.map Char.toNat

def separated (items : List (List ℕ)) : List ℕ := [44].intercalate items

def entry (key : JavaString) (value : List ℕ) : List ℕ := quoted key ++ 58 :: value

def object (entries : List (List ℕ)) : List ℕ := 123 :: (separated entries ++ [125])

def fileJson : Option (File JavaString) → List ℕ
  | none => [110, 117, 108, 108]
  | some file => object [entry "base64" (quoted file.base64), entry "bytes" (number file.bytes),
      entry "mode" (number file.mode), entry "sha256" (quoted file.sha256)]

section Host

variable {U : Type} (host : Host U)

def frozenJson (frozen : Frozen U JavaString) : List ℕ :=
  object [
    entry "config" (object [entry "adapter" (quoted frozen.config.adapter),
      entry "model" (quoted frozen.config.model), entry "policy" (quoted frozen.config.policy),
      entry "version" (quoted frozen.config.version)]),
    entry "files" (object (frozen.files.map fun e ↦ entry e.1 (fileJson e.2))),
    entry "input-id" (quoted (host.text frozen.inputId)),
    entry "limits" (object [entry "settlement" (quoted frozen.limits.settlement),
      entry "timeout-ms" (number frozen.limits.timeoutMs)]),
    entry "policy" (object [entry "chunk-bytes" (number frozen.policy.chunkBytes),
      entry "lease-ttl-ms" (number frozen.policy.leaseTtlMs),
      entry "max-file-bytes" (number frozen.policy.maxFileBytes),
      entry "max-files" (number frozen.policy.maxFiles),
      entry "max-input-json-bytes" (number frozen.policy.maxInputJsonBytes),
      entry "max-total-bytes" (number frozen.policy.maxTotalBytes),
      entry "version" (number frozen.policy.version)]),
    entry "task" (quoted frozen.task)]

/-- The bytes of the JSON text. -/
def jsonBytes (frozen : Frozen U JavaString) : List UInt8 :=
  (frozenJson host frozen).flatMap utf8Point

def sha256 (bytes : List UInt8) : JavaString := ascii (hex (host.digest bytes))

/-- `file-bytes!` -/
def fileBytes (file : File JavaString) : Option (List UInt8) :=
  if fileSchema file then do
    let bytes ← Base64.decode false file.base64.code
    if (bytes.length : ℤ) = file.bytes ∧ file.sha256 = sha256 host bytes ∧
        (bytes.length : ℤ) ≤ policy.maxFileBytes then some bytes
    else none
  else none

/-- `\p{Cntrl}` -/
def isControl (u : ℕ) : Bool := u < 0x20 || u = 0x7F

/-- `path!` -/
def path (p : JavaString) : Bool :=
  1 ≤ p.count && p.count ≤ 512 && p.code.head? ≠ some 47 && !p.code.any isControl &&
    host.workspacePath p = some ("/" ++ p)

/-- `(str/split path #"/")`, without the empty segments at the end. -/
def split (p : JavaString) : List (List UInt16) := (p.units.splitOn 47).rdropWhile List.isEmpty

/-- `(butlast (reductions #(str %1 "/" %2) segments))` -/
def parents (p : JavaString) : List JavaString :=
  ((Segments.running 47 (split p)).dropLast).map JavaString.mk

/-- The name starts with `out/`. -/
def isDeliverable (p : JavaString) : Bool := (JavaString.ofString "out/").units.isPrefixOf p.units

/-- One step of the sum over the files of an output. -/
def checkFile (selected : List JavaString) (total : ℤ) (e : JavaString × Option (File JavaString)) :
    Option ℤ :=
  if path host e.1 && (decide (e.1 ∈ selected) || (e.2.isSome && isDeliverable e.1)) then
    match e.2 with
    | none => some total
    | some file => do
      let bytes ← fileBytes host file
      let total := total + bytes.length
      if total ≤ policy.maxTotalBytes then some total else none
  else none

/-- The files that are there after an output. -/
def written (selected : List JavaString) (files : FileMap JavaString) : List JavaString :=
  (selected ++ (files.filter (·.2.isSome)).map Prod.fst).filter fun p ↦
    p ∉ (files.filter (·.2.isNone)).map Prod.fst

/-- No file stands where another one has a directory. -/
def separate (written : List JavaString) : Bool := written.all fun p ↦ (parents p).all (· ∉ written)

/-- `validate-output!` -/
def validateOutput (frozen : FileMap JavaString) (output : Output JavaString) : Bool :=
  outputSchema output && (output.files.foldlM (checkFile host (frozen.map Prod.fst)) 0).isSome &&
    separate (written (frozen.map Prod.fst) output.files)

variable [DecidableEq U]

/-- `validate-frozen!` -/
def validateFrozen (frozen : Frozen U JavaString) : Bool :=
  1 ≤ frozen.task.count && frozen.task.count ≤ 16000 && configSchema frozen.config &&
    limitsSchema frozen.limits && frozen.policy = policy &&
    validateOutput host frozen.files ⟨frozen.files, "", 0⟩ &&
    (frozen.files.all fun e ↦ e.2.isSome) && frozen.inputId = host.identity frozen.toBody

/-- `input-chunk` -/
def inputChunk (frozen : Frozen U JavaString) (offset length : ℕ) : Option (Chunk U JavaString) :=
  let bytes := jsonBytes host frozen
  let size := bytes.length
  let stop := min size (offset + length)
  if frozen.inputId = host.identity frozen.toBody ∧ (offset : ℤ) ≤ policy.maxInputJsonBytes ∧
      1 ≤ length ∧ (length : ℤ) ≤ policy.chunkBytes ∧ (size : ℤ) ≤ policy.maxInputJsonBytes ∧
      offset ≤ size then
    some {
      inputId := frozen.inputId
      bytes := size
      sha256 := sha256 host bytes
      offset := offset
      base64 := ascii (Base64.encode ((bytes.take stop).drop offset))
      nextOffset := if stop < size then some stop else none }
  else none

end Host

end Simmis.Workers.Files
