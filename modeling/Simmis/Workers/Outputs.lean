import Simmis.Workers.Inputs

/-!
# Outputs of a local worker

After its process has stopped, the worker collects what has changed among its selected inputs and
what stands under `out/`, and checks this as the server will.
-/

namespace Simmis.Workers.Outputs

open Files (Config File FileMap Frozen Output)

def maxEntries : ℕ := 2048

/-- The name starts with `out/`. -/
def isDeliverable (p : PyString) : Bool := (PyString.ofString "out/").points.isPrefixOf p.points

section Digest

variable (digest : List UInt8 → List UInt8)

/-- The sum of the sizes, and the files that are there, after one more file. -/
def writeFile (s : ℤ × List PyString) (e : PyString × Option (File PyString)) :
    Option (ℤ × List PyString) :=
  match e.2 with
  | none => some (s.1, s.2.filter (· ≠ e.1))
  | some file => do
    let data ← Inputs.fileBytes digest (some file)
    some (s.1 + (data.length : ℤ), s.2.insert e.1)

/-- One step of the loop over the files. -/
def checkFile (selected : List PyString) (s : ℤ × List PyString)
    (e : PyString × Option (File PyString)) : Option (ℤ × List PyString) := do
  let _ ← Inputs.pathParts e.1
  if e.1 ∉ selected ∧ ¬ (e.2.isSome = true ∧ isDeliverable e.1 = true) then none
  else do
    let s ← writeFile digest s e
    if s.1 > Files.policy.maxTotalBytes then none else some s

/-- No file stands where another one has a directory. -/
def separate (written : List PyString) : Bool :=
  written.all fun p ↦ (Inputs.pathParts p).any fun parts ↦
    (Inputs.parents parts).all (· ∉ written)

def validate (frozen : Frozen PyString PyString) (config : Config PyString)
    (output : Output PyString) : Bool :=
  Inputs.validate digest frozen config && output.summary.len ≤ 16000 && 0 ≤ output.exitCode &&
    output.exitCode ≤ 255 && (output.files.length : ℤ) ≤ Files.policy.maxFiles &&
    output.summary.encodable &&
    (output.files.foldlM (checkFile digest (frozen.files.map Prod.fst))
      (0, frozen.files.map Prod.fst)).any fun s ↦ separate s.2

/-- An entry of the workspace; `refused` also changes while it is read. -/
inductive Node where
  | file (data : List UInt8) (executable : Bool)
  | refused
  | directory (children : List (PyString × Node))

/-- What has been collected. -/
structure Collected where
  files : FileMap PyString := []
  total : ℤ := 0
  entries : ℕ := 0

def add (c : Collected) (path : PyString) (file : Option (File PyString)) : Option Collected :=
  if path ∈ c.files.map Prod.fst then some c
  else if (c.files.length : ℤ) ≥ Files.policy.maxFiles then none
  else
    let total := c.total + (file.map File.bytes).getD 0
    if total > Files.policy.maxTotalBytes then none
    else some { c with files := c.files ++ [(path, file)], total }

/-- `_read_file` -/
def readFile : Node → Option (File PyString)
  | .file data executable =>
    if (data.length : ℤ) ≤ Files.policy.maxFileBytes then
      some ⟨⟨Base64.encode data⟩, data.length, Inputs.sha256 digest data,
        if executable then 0o100755 else 0o100644⟩
    else none
  | .refused | .directory _ => none

/-- `_selected`, which is `None` where the file is missing. -/
def selected : Node → List (List ℕ) → Option (Option (File PyString))
  | node, [] => (readFile digest node).map some
  | .directory children, part :: parts =>
    match children.find? (·.1 = ⟨part⟩) with
    | none => some none
    | some child => selected child.2 parts
  | .file _ _, _ :: _ | .refused, _ :: _ => none

section Visit

variable (frozen : FileMap PyString)

mutual

/-- `visit` of a directory, or an entry of one. -/
def visit (node : Node) (path : PyString) (c : Collected) : Option Collected :=
  match node with
  | .directory children => visitAll children path c
  | .file data executable => do
    let file ← readFile digest (.file data executable)
    if frozen.find? (·.1 = path) = some (path, some file) then some c else add c path (some file)
  | .refused => none

def visitAll (children : List (PyString × Node)) (path : PyString) (c : Collected) :
    Option Collected :=
  match children with
  | [] => some c
  | (name, node) :: children => do
    let c := { c with entries := c.entries + 1 }
    if c.entries > maxEntries then none
    else do
      let child : PyString := ⟨path.points ++ 47 :: name.points⟩
      let _ ← Inputs.pathParts child
      let c ← visit node child c
      visitAll children path c

end

end Visit

/-- The inputs that have changed or are missing. -/
def collectSelected (root : Node) (frozen : FileMap PyString) : Option Collected :=
  frozen.foldlM (fun c e ↦ do
    let parts ← Inputs.pathParts e.1
    let current ← selected digest root parts
    if current ≠ e.2 then add c e.1 current else some c) {}

/-- What is under `out/`, which may also be an input that is a file. -/
def collectOut (root : Node) (frozen : FileMap PyString) (c : Collected) : Option Collected :=
  match root with
  | .file _ _ | .refused => none
  | .directory children =>
    match (children.find? (·.1 = PyString.ofString "out")).map Prod.snd with
    | none => some c
    | some (.directory entries) => visitAll digest frozen entries "out" c
    | some (.file _ _) | some .refused =>
      if PyString.ofString "out" ∈ frozen.map Prod.fst then some c else none

def collect (root : Node) (frozen : Frozen PyString PyString) (config : Config PyString)
    (summary : PyString) (exitCode : ℤ) : Option (Output PyString) :=
  if Inputs.validate digest frozen config = true ∧ summary.len ≤ 16000 ∧ 0 ≤ exitCode ∧
      exitCode ≤ 255 ∧ summary.encodable = true then do
    let chosen ← collectSelected digest root frozen.files
    let c ← collectOut digest root frozen.files chosen
    some (Output.mk c.files summary exitCode) |>.filter (validate digest frozen config)
  else none

end Digest

end Simmis.Workers.Outputs
