import Simmis.Library.Checks
import Simmis.Library.JavaStrings
import Simmis.Library.Text

/-!
# Questions to a workbook

A sandbox asks questions of a workbook that it does not hold. Every answer is bounded, and a failure
is data as well. The interpreter that computes the cells is a parameter.
-/

namespace Simmis.Sheets

/-- What a sandbox passes; a number by its printed form. -/
inductive Arg
  | nil
  | boolean (b : Bool)
  | number (printed : String)
  | string (s : String)
  | keyword (name : String)
  | map (entries : List (Arg × Arg))
  | other (printed : String)

/-- What a cell takes. -/
inductive Scalar
  | nil
  | boolean (b : Bool)
  | number (printed : String)
  | string (s : String)
deriving DecidableEq

/-- A tagged value of the interpreter. -/
inductive Tagged
  | err (code : String)
  | blank
  | plain (t : String) (v : Scalar)
deriving DecidableEq

inductive Rendered
  | err (code text : String)
  | blank
  | plain (t : String) (v : Scalar)
deriving DecidableEq

/-- The `:v` of a tagged value. -/
inductive Shown
  | code (code : String)
  | value (v : Scalar)
deriving DecidableEq

/-- A range of the dependency graph. -/
structure Shape where
  sheet : ℤ
  r0 : ℤ
  c0 : ℤ
  r1 : ℤ
  c1 : ℤ
deriving DecidableEq

structure Column where
  blocks : List (String × ℤ)
  maxRow : Option ℤ
deriving DecidableEq

/-- An exception from elsewhere: the `:error` in its data, and its message. -/
structure Thrown where
  kind : Option String
  message : String
deriving DecidableEq

/-- The interpreter and the Excel library. Loading and calculating depend on the time and on random
numbers, and a parser may throw. -/
structure Engine (W A : Type) where
  load : ℕ → List UInt8 → Except String W
  sheetNames : W → List (String × ℤ)
  sheets : W → List (List Column)
  formulas : W → List (ℤ × A)
  reads : W → List (ℤ × List Shape)
  dirty : W → List ℤ
  volatile : W → List ℤ
  getCell : W → ℤ → Option Tagged
  cellValue : W → ℤ → Option Tagged
  setCell : W → ℤ → Scalar → Except (String ⊕ Thrown) W
  recalc : ℕ → W → W
  pack : ℤ → ℤ → ℤ → ℤ
  sheet : ℤ → ℤ
  row : ℤ → ℤ
  col : ℤ → ℤ
  toA1 : ℤ → String
  parseSheetPrefix : String → Option String × String
  parseA1 : String → Option (ℤ × ℤ)
  formatA1 : ℤ → ℤ → String
  columnLetters : ℤ → String
  unparseAt : A → ℤ → ℤ → String
  patch : List UInt8 → List (ℤ × Scalar) → Except Thrown (List UInt8)
  sha256 : List UInt8 → String
  equalsIgnoreCase : String → String → Bool
  lowerCase : String → String
  prStr : Arg → String
  castMessage : Arg → String

def maxOpenBytes : ℤ := 20 * 1024 * 1024
def maxRangeCells : ℤ := 2000
def maxChanged : ℕ := 200
def maxListed : ℕ := 200

/-- A failure, except that a workbook is unknown, with its data. -/
inductive Problem
  | tooLarge (size : ℤ) (hinted : Bool)
  | noSuchFile (path : Arg)
  | originalGone (path : Arg)
  | unreadable (message : String)
  | unknownSheet (name : Arg) (sheets : List String)
  | notAString (isRange : Bool) (ref : Arg)
  | notACell (ref : String)
  | notARange (ref : String)
  | rangeTooLarge (cells : ℤ)
  | badFormula (message : String)
  | badCell (v : Arg)
  | notAMap (m : Arg)
  | readOnly
  | badDestination (dest : Arg)
  | overwrite (path : Arg)
  | exists (dest : String)
  | noEdits
  | fileChanged (path : Arg)
  | thrown (exception : Thrown)

/-- The `:error` of a failure. -/
def Problem.kind : Problem → String
  | tooLarge .. => "too-large"
  | noSuchFile _ => "no-such-file"
  | originalGone _ => "no-such-file"
  | unreadable _ => "unreadable"
  | unknownSheet .. => "unknown-sheet"
  | notAString .. => "bad-ref"
  | notACell _ => "bad-ref"
  | notARange _ => "bad-ref"
  | rangeTooLarge _ => "range-too-large"
  | badFormula _ => "bad-formula"
  | badCell _ => "bad-value"
  | notAMap _ => "bad-value"
  | readOnly => "read-only"
  | badDestination _ => "bad-path"
  | overwrite _ => "bad-path"
  | .exists _ => "exists"
  | noEdits => "no-edits"
  | fileChanged _ => "file-changed"
  | thrown exception => exception.kind.getD "internal"

variable {W A : Type} (engine : Engine W A)

/-- `(str value)` -/
def Engine.str : Arg → String
  | .nil => ""
  | .string s => s
  | value => engine.prStr value

/-- The `:message` of a failure. -/
def Problem.message : Problem → String
  | tooLarge size _ =>
    s!"spreadsheet is {size} bytes; the in-process model tops out at {maxOpenBytes}"
  | noSuchFile path => "no such file: " ++ engine.str path
  | originalGone path => "original is gone: " ++ engine.str path
  | unreadable message => "not a readable spreadsheet (.xlsx/.xls): " ++ message
  | unknownSheet name _ => "no such sheet: " ++ engine.str name
  | notAString false ref =>
    "cell ref must be a string like \"Model!C7\", got: " ++ engine.prStr ref
  | notAString true ref =>
    "range ref must be a string like \"A1:D20\", got: " ++ engine.prStr ref
  | notACell ref => "not a cell reference: " ++ ref
  | notARange ref => "not a range: " ++ ref
  | rangeTooLarge cells => s!"that range is {cells} cells; reads are capped at {maxRangeCells}"
  | badFormula message => "that formula does not parse: " ++ message
  | badCell v =>
    "a cell takes a number, string, boolean, nil, or a \"=FORMULA\" string; got: " ++ engine.prStr v
  | notAMap m => "set-many! takes a map of ref → value; got: " ++ engine.prStr m
  | readOnly => "this sandbox has no writable drive"
  | badDestination dest =>
    "destination must be an .xlsx path, e.g. \"/drive/model-v2.xlsx\"; got: " ++ engine.prStr dest
  | overwrite path => "refusing to overwrite the original " ++ engine.str path ++
      " — save to a new path; the original blob stays immutable"
  | .exists dest => dest ++ " already exists — pick a new name"
  | noEdits => "nothing to save — no cells were changed"
  | fileChanged path =>
    engine.str path ++ " changed since it was opened — reopen it and redo the edits"
  | thrown exception => exception.message

def errText (code : String) : String :=
  match code with
  | "null" => "#NULL!"
  | "div0" => "#DIV/0!"
  | "value" => "#VALUE!"
  | "ref" => "#REF!"
  | "name" => "#NAME?"
  | "num" => "#NUM!"
  | "na" => "#N/A"
  | "getting-data" => "#GETTING_DATA"
  | "spill" => "#SPILL!"
  | "calc" => "#CALC!"
  | "circular" => "#REF!"
  | _ => "#ERROR!"

def render : Option Tagged → Rendered
  | some (.err code) => .err code (errText code)
  | some .blank => .blank
  | some (.plain t v) => .plain t v
  | none => .blank

variable (wb : W)

/-- `idx->name` -/
def sheetName (index : ℤ) : Option String :=
  ((engine.sheetNames wb).reverse.find? fun entry ↦ entry.2 = index).map Prod.fst

def sheetIndex : Arg → Except Problem ℤ
  | .nil => .ok 0
  | .string name =>
    let names := engine.sheetNames wb
    match names.find? (fun entry ↦ entry.1 = name) with
    | some entry => .ok entry.2
    | none =>
      match names.find? (fun entry ↦ engine.equalsIgnoreCase entry.1 name) with
      | some entry => .ok entry.2
      | none => .error (.unknownSheet (.string name)
          ((names.insertionSort fun a b ↦ a.2 ≤ b.2).map Prod.fst))
  | name =>
    match engine.sheetNames wb with
    | [] => .error (.unknownSheet name [])
    | _ => .error (.thrown ⟨none, engine.castMessage name⟩)

def trim (s : String) : String :=
  String.ofList (((s.toList.dropWhile Text.isWhitespace).reverse.dropWhile Text.isWhitespace).reverse)

/-- `(str/replace s "$" "")` -/
def dropDollars (s : String) : String := String.ofList (s.toList.filter (· ≠ '$'))

/-- `(str/split s #":")`: empty parts at the end are dropped, but not the only one. -/
def splitColon (s : String) : List String :=
  if s = "" then [""]
  else (((s.toList.splitOn ':').map String.ofList).reverse.dropWhile (· = "")).reverse

def optional : Option String → Arg
  | none => .nil
  | some s => .string s

def parseCellRef : Arg → Except Problem ℤ
  | .string ref => do
    let (sheet, tail) := engine.parseSheetPrefix (trim ref)
    let index ← sheetIndex engine wb (optional sheet)
    let (row, col) ← demand (engine.parseA1 (dropDollars tail)) (.notACell ref)
    return engine.pack index row col
  | ref => .error (.notAString false ref)

def parseRangeRef : Arg → Except Problem Shape
  | .string ref => do
    let (sheet, tail) := engine.parseSheetPrefix (trim ref)
    let index ← sheetIndex engine wb (optional sheet)
    let cells := (splitColon tail).map fun part ↦ engine.parseA1 (dropDollars part)
    match cells with
    | [some a] => .ok ⟨index, a.1, a.2, a.1, a.2⟩
    | [some a, some b] => .ok ⟨index, min a.1 b.1, min a.2 b.2, max a.1 b.1, max a.2 b.2⟩
    | _ => .error (.notARange ref)
  | ref => .error (.notAString true ref)

def cellRefStr (id : ℤ) : String :=
  (sheetName engine wb (engine.sheet id)).getD "?" ++ "!" ++ engine.toA1 id

def maxExcelRow : ℤ := 1048575
def maxExcelCol : ℤ := 16383

variable (shape : Shape)

def rangeRefStr : String :=
  let name := (sheetName engine wb shape.sheet).getD "?"
  if shape.r0 = 0 ∧ shape.r1 = maxExcelRow then
    name ++ "!" ++ engine.columnLetters shape.c0 ++ ":" ++ engine.columnLetters shape.c1
  else if shape.c0 = 0 ∧ shape.c1 = maxExcelCol then
    name ++ s!"!{shape.r0 + 1}:{shape.r1 + 1}"
  else if shape.r0 = shape.r1 ∧ shape.c0 = shape.c1 then
    name ++ "!" ++ engine.formatA1 shape.r0 shape.c0
  else name ++ "!" ++ engine.formatA1 shape.r0 shape.c0 ++ ":" ++ engine.formatA1 shape.r1 shape.c1

/-- `(range from (inc to))` -/
def span (low high : ℤ) : List ℤ := (List.range (high + 1 - low).toNat).map fun i ↦ low + i

def rangeCells : List ℤ :=
  (span shape.r0 shape.r1).flatMap fun r ↦
    (span shape.c0 shape.c1).map fun c ↦ engine.pack shape.sheet r c

def rangeSize : ℤ := (shape.r1 - shape.r0 + 1) * (shape.c1 - shape.c0 + 1)

def containsCell (id : ℤ) : Bool :=
  shape.sheet = engine.sheet id ∧ (shape.r0 ≤ engine.row id ∧ engine.row id ≤ shape.r1) ∧
    (shape.c0 ≤ engine.col id ∧ engine.col id ≤ shape.c1)

def formulaStr (id : ℤ) : Option String :=
  ((engine.formulas wb).lookup id).map fun ast ↦
    "=" ++ engine.unparseAt ast (engine.row id) (engine.col id)

structure SheetSummary where
  name : Option String
  rows : ℤ
  cols : ℕ
  cells : ℤ
  firstRow : Option (List Shown)
deriving DecidableEq

structure Summary where
  sheets : List SheetSummary
  cells : ℤ
  formulas : ℕ
deriving DecidableEq

def sheetRows (sheet : List Column) : ℤ :=
  sheet.foldl (fun m col ↦ max m (col.maxRow.getD (-1))) (-1) + 1

def sheetCells (sheet : List Column) : ℤ :=
  (sheet.map fun col ↦
    ((col.blocks.filter fun block ↦ block.1 ≠ "empty").map fun block ↦ block.2).sum).sum

def shown : Option Tagged → Shown
  | some (.err code) => .code code
  | some (.plain _ v) => .value v
  | _ => .value .nil

def headerPreview (index : ℤ) (sheet : List Column) : List Shown :=
  (span 0 (min 12 sheet.length - 1)).map fun c ↦ shown (engine.getCell wb (engine.pack index 0 c))

def summarize : Summary :=
  let sheets := (engine.sheets wb).mapIdx fun index sheet ↦
    { name := sheetName engine wb index
      rows := sheetRows sheet
      cols := sheet.length
      cells := sheetCells sheet
      firstRow := if 0 < sheetRows sheet then some (headerPreview engine wb index sheet) else none }
  ⟨sheets, (sheets.map SheetSummary.cells).sum, (engine.formulas wb).length⟩

structure Explained where
  ref : String
  value : Rendered
  f : Option String
deriving DecidableEq

/-- What feeds a cell: a range that is too wide, or its cells. -/
inductive Input
  | wide (range : String) (cells : ℤ)
  | cells (range : String) (cells : List Explained)
deriving DecidableEq

structure Change where
  ref : String
  before : Rendered
  after : Rendered
deriving DecidableEq

/-- What is answered about an open workbook. -/
inductive Answer
  | sheets (names : List (Option String))
  | cell (value : Rendered) (ref : String) (f : Option String)
  | range (ref : String) (rows : List (List Rendered))
  | literal (ref : String)
  | deps (ref : String) (f : Option String) (deps : List String)
  | dependents (ref : String) (count : ℕ) (dependents : List (String × Option String))
      (truncated : Bool)
  | formulas (sheet : Option String) (count : ℕ)
      (formulas : List (String × Option String × Rendered)) (truncated : Bool)
  | explained (cell : Explained) (inputs : List Input)
  | changed (changed : List Change) (count : ℕ) (truncated : Bool)
  | saved (path : String) (bytes edits : ℕ) (node blob : String)
deriving DecidableEq

def doSheets : Answer :=
  .sheets ((List.range (engine.sheets wb).length).map fun index ↦ sheetName engine wb index)

def doGet (ref : Arg) : Except Problem Answer := do
  let id ← parseCellRef engine wb ref
  return .cell (render (engine.getCell wb id)) (cellRefStr engine wb id) (formulaStr engine wb id)

def doRange (ref : Arg) : Except Problem Answer := do
  let shape ← parseRangeRef engine wb ref
  require (rangeSize shape ≤ maxRangeCells) (.rangeTooLarge (rangeSize shape))
  return .range (rangeRefStr engine wb shape) <| (span shape.r0 shape.r1).map fun r ↦
    (span shape.c0 shape.c1).map fun c ↦ render (engine.getCell wb (engine.pack shape.sheet r c))

/-- The code units of a string, by which strings are sorted. -/
def units (s : String) : List ℕ := (JavaString.ofString s).code

def doDeps (ref : Arg) : Except Problem Answer := do
  let id ← parseCellRef engine wb ref
  match (engine.formulas wb).lookup id with
  | none => return .literal (cellRefStr engine wb id)
  | some _ =>
    let deps := (((engine.reads wb).lookup id).getD []).map (rangeRefStr engine wb)
    return .deps (cellRefStr engine wb id) (formulaStr engine wb id)
      (deps.insertionSort fun a b ↦ units a ≤ units b)

def doDependents (ref : Arg) : Except Problem Answer := do
  let id ← parseCellRef engine wb ref
  let hits := (((engine.reads wb).filter fun entry ↦
    entry.2.any fun shape ↦ containsCell engine shape id).map Prod.fst).insertionSort (· ≤ ·)
  return .dependents (cellRefStr engine wb id) hits.length
    ((hits.take maxListed).map fun fid ↦ (cellRefStr engine wb fid, formulaStr engine wb fid))
    (maxListed < hits.length)

def doFormulas (name : Arg) : Except Problem Answer := do
  let index ← sheetIndex engine wb name
  let ids := (((engine.formulas wb).map Prod.fst).filter fun id ↦
    index = engine.sheet id).insertionSort (· ≤ ·)
  return .formulas (sheetName engine wb index) ids.length
    ((ids.take maxListed).map fun id ↦
      (engine.toA1 id, formulaStr engine wb id, render (engine.getCell wb id)))
    (maxListed < ids.length)

def explainCell (id : ℤ) : Explained :=
  ⟨cellRefStr engine wb id, render (engine.getCell wb id), formulaStr engine wb id⟩

/-- `(juxt :sheet :r0 :c0)` -/
def shapeKey : List ℤ := [shape.sheet, shape.r0, shape.c0]

def doExplain (ref : Arg) : Except Problem Answer := do
  let id ← parseCellRef engine wb ref
  let shapes := (((engine.reads wb).lookup id).getD []).insertionSort fun a b ↦
    shapeKey a ≤ shapeKey b
  return .explained (explainCell engine wb id) <| shapes.map fun shape ↦
    if 20 < rangeSize shape then .wide (rangeRefStr engine wb shape) (rangeSize shape)
    else .cells (rangeRefStr engine wb shape) ((rangeCells engine shape).map (explainCell engine wb))

def changedCells (before after : W) (candidates : List ℤ) : List Change :=
  (candidates.dedup.insertionSort (· ≤ ·)).filterMap fun id ↦
    let old := engine.cellValue before id
    let new := engine.cellValue after id
    if old = new then none else some ⟨cellRefStr engine after id, render old, render new⟩

def reportChanged (changed : List Change) : Answer :=
  .changed (changed.take maxChanged) changed.length (maxChanged < changed.length)

def setCells (wb : W) : List (ℤ × Scalar) → Except Problem W
  | [] => .ok wb
  | (id, input) :: pairs =>
    match engine.setCell wb id input with
    | .ok wb => setCells wb pairs
    | .error (.inl message) => .error (.badFormula message)
    | .error (.inr exception) => .error (.thrown exception)

/-- The workbook after edits, and what has changed. -/
def applyEdits (seed : ℕ) (wb : W) (pairs : List (ℤ × Scalar)) : Except Problem (W × Answer) := do
  let staged ← setCells engine wb pairs
  let after := engine.recalc seed staged
  let candidates := pairs.map Prod.fst ++ engine.dirty staged
  return (after, reportChanged (changedCells engine wb after candidates))

def coerceInput : Arg → Except Problem Scalar
  | .nil => .ok .nil
  | .boolean b => .ok (.boolean b)
  | .number printed => .ok (.number printed)
  | .string s => .ok (.string s)
  | v => .error (.badCell v)

def parsePair (pair : Arg × Arg) : Except Problem (ℤ × Scalar) := do
  let id ← parseCellRef engine wb pair.1
  let input ← coerceInput pair.2
  return (id, input)

def recalculate (seed : ℕ) (wb : W) : W × Answer :=
  let after := engine.recalc seed wb
  let candidates := (engine.formulas after).map Prod.fst ++ engine.volatile after
  (after, reportChanged (changedCells engine wb after candidates))

end Simmis.Sheets
