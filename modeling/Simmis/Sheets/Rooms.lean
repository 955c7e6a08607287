import Simmis.Sheets.Scopes

/-!
# Two rooms and a spreadsheet

Two rooms that keep to their own handles, and a room that guesses the handle of another one: it reads
the workbook of the other room, edits and closes it.
-/

namespace Simmis.Sheets

open Runs

variable {W A S F : Type} {s : State S W F} {scope : S} {now : ℤ} {call : Call}

/-- A call that looks up a workbook of its scope keeps to the scope. -/
theorem keeps_lookup {h : Arg} {entry : Entry S W} (hcall : call.looksUp = some h)
    (hentry : entryAt s.handles (handleId h) = some entry) (hscope : entry.scope = scope) :
    Keeps s scope now call where
  owned h' hcall' := by
    obtain rfl := Option.some.inj (hcall.symm.trans hcall')
    exact .inl ⟨entry, hentry, hscope⟩
  closes h' hclose := by
    subst hclose
    cases hcall
  spares path hopen := by
    subst hopen
    cases hcall

/-- So does a call that opens a workbook while there is room. -/
theorem keeps_open {path : Arg} (hroom : s.handles.length < maxHandles)
    (hlive : ∀ entry ∈ s.handles, isLive now entry) : Keeps s scope now (.open path) where
  owned _ hcall := by cases hcall
  closes _ hclose := by cases hclose
  spares _ _ entry htouched old hold _ := by
    rw [evictStale_append hroom hlive htouched]
    exact List.mem_append_left _ hold

/-- Workbooks of one column; every byte of a file is a cell. -/
def exampleEngine : Engine (List (ℤ × Scalar)) Unit where
  load _ bytes := .ok (bytes.mapIdx fun i b ↦ (i, .number (toString b.toNat)))
  sheetNames _ := [("Sheet1", 0)]
  sheets wb := [[⟨[("number", wb.length)], some (wb.length - 1)⟩]]
  formulas _ := []
  reads _ := []
  dirty _ := []
  volatile _ := []
  getCell wb id := (wb.lookup id).map (.plain "n")
  cellValue wb id := (wb.lookup id).map (.plain "n")
  setCell wb id v := .ok ((id, v) :: wb)
  recalc _ wb := wb
  pack _ row _ := row
  sheet _ := 0
  row id := id
  col _ := 0
  toA1 id := s!"A{id + 1}"
  parseSheetPrefix ref := (none, ref)
  parseA1 ref := if ref = "A1" then some (0, 0) else none
  formatA1 row _ := s!"A{row + 1}"
  columnLetters _ := "A"
  unparseAt _ _ _ := ""
  patch bytes _ := .ok bytes
  sha256 bytes := toString bytes.length
  equalsIgnoreCase a b := a = b
  lowerCase s := s
  prStr _ := ""
  castMessage _ := ""

/-- A drive with one file under every path. -/
def exampleDrive : ℕ → Fs (List UInt8) := fun _ ↦
  { readBytes := fun bytes _ ↦ .ok (some bytes), stat := none, writeFile := none }

/-- The file of a room has its number in the first cell. -/
def exampleFiles (room : ℕ) : List UInt8 := [room.toUInt8]

def path : Arg := .string "/drive/a.xlsx"

/-- Two rooms open a workbook each; one edits its own, the other one reads its own. -/
def twoRooms : List (Event ℕ (List UInt8)) :=
  [.call 42 0 0 (.open path), .call 7 1 0 (.open path),
    .call 42 2 0 (.set (.string "sheet-1") (.string "A1") (.number "5")),
    .call 7 3 0 (.get (.string "sheet-2") (.string "A1"))]

theorem scopes_isolated_example : ∃ name : String → String, Function.Injective name ∧
      replies exampleEngine exampleDrive 7 (.init exampleFiles)
          ((twoRooms.filter fun event ↦ event.owner = 7).map (Event.rename name)) =
        (replies exampleEngine exampleDrive 7 (.init exampleFiles) twoRooms).map
          (Option.map (Reply.rename name)) := by
  have hkept : Along (step exampleEngine exampleDrive) State.Kept (.init exampleFiles) twoRooms := by
    refine ⟨keeps_open (by decide) (by decide), keeps_open (by decide) (by decide),
      keeps_lookup rfl rfl rfl, keeps_lookup rfl rfl rfl, trivial⟩
  have hroomy : Along (step exampleEngine exampleDrive) State.Roomy (.init exampleFiles)
      twoRooms := by
    refine ⟨⟨by decide, by decide⟩, ⟨by decide, by decide⟩, trivial, trivial, trivial⟩
  obtain ⟨name, hname, halone⟩ :=
    (scopes_isolated exampleEngine exampleDrive exampleFiles twoRooms hkept).2 hroomy 7
  exact ⟨name, hname, halone exampleFiles rfl⟩

/-- The process after room 42 has opened a workbook. -/
def opened : State ℕ (List (ℤ × Scalar)) (List UInt8) :=
  run (step exampleEngine exampleDrive) (.init exampleFiles) [.call 42 0 0 (.open path)]

/-- Another room guesses the handle, edits the workbook and closes it. -/
theorem guessed_handle : reply exampleEngine exampleDrive opened
        (.call 7 1 0 (.get (.string "sheet-1") (.string "A1"))) =
      some (.answered (.cell (.plain "n" (.number "42")) "Sheet1!A1" none)) ∧
    reply exampleEngine exampleDrive opened
        (.call 7 1 0 (.get (.string "sheet-9") (.string "A1"))) =
      some (.unknownHandle (.string "sheet-9") {"sheet-1"}) ∧
    ((step exampleEngine exampleDrive opened
        (.call 7 1 0 (.set (.string "sheet-1") (.string "A1") (.number "5")))).handles.map
      fun entry ↦ (entry.scope, entry.edits)) = [(42, [(0, .number "5")])] ∧
    (step exampleEngine exampleDrive opened (.call 7 1 0 (.close (.string "sheet-1")))).handles = [] ∧
    ¬ Isolated exampleEngine exampleDrive opened 7 1 0 (.get (.string "sheet-1") (.string "A1")) := by
  refine ⟨rfl, rfl, rfl, rfl, fun h ↦ ?_⟩
  have hreply := h.reply
  cases hreply

end Simmis.Sheets
