import Simmis.Schedules.Occurrences

/-!
# Occurrences bound to knowledge batches

An admitted occurrence may be bound to the evidence batch that it processes. The binding is kept on
both rows; the batch side is the `forward` link here. Every later use compares the complete retained
value again.
-/

namespace Simmis.Schedules

variable {U : Type} [DecidableEq U]

/-- The value of a binding with its content identity. -/
structure BindingValue (U : Type) extends BindingFacts U where
  id : U
deriving DecidableEq

variable (h : Hasch U)

/-- `binding-value` -/
def bindingValue (facts : BindingFacts U) : BindingValue U :=
  { facts with id := h.binding facts }

/-- `validate!` -/
def validate (value : BindingValue U) : Except Refusal Unit :=
  require (value.id = h.binding value.toBindingFacts) (.held "invalid-binding")

/-- A retained value and the reference of its artifact. -/
structure Retained (U : Type) where
  value : BindingValue U
  reference : U
deriving DecidableEq

variable (db : Db U)

/-- `bound-occurrence`: a link on one side only is held. -/
def boundOccurrence (batch : U) (forward : Option U) : Except Refusal (Option (Occurrence U)) :=
  match db.occurrences.rows.find? (·.knowledgeBatch = some batch) with
  | some reverse =>
    if forward = some reverse.id then .ok (some reverse) else .error (.held "partial-binding")
  | none => if forward = none then .ok none else .error (.held "partial-binding")

/-- `claimed!` of a binding value. -/
def claimed (value : BindingValue U) : Except Refusal (Occurrence U) :=
  match db.occurrences.get value.occurrence, db.activations.get value.activation with
  | some o, some a =>
    if value.activation = o.activation ∧ value.revision = o.revision ∧
        some value.claim = o.claim ∧ o.state = .admitting ∧
        a.activeOccurrence = some value.occurrence ∧ value.by_ = a.by_ ∧ value.room = a.room ∧
        value.revision = a.revision ∧ value.targetRef = a.targetRef then .ok o
    else .error (.held "occurrence-changed")
  | _, _ => .error (.held "occurrence-changed")

variable (forward : Option U)

/-- First install only; `ready` is the state check of the batch journal. -/
def retentionTx (ready : Except Refusal Unit) (value : BindingValue U) (ref : U) :
    Except Refusal (Tx U) := do
  validate h value
  let o ← claimed db value
  let prior ← boundOccurrence db value.batch forward
  ready
  require (o.knowledgeBatch = none ∧ o.batchRef = none ∧ o.batchRevision = none ∧
    o.inputId = none ∧ o.inputRef = none ∧ o.inputRevision = none ∧ prior.isNone)
    (.held "already-retained")
  pure [.occurrence o.id fun o ↦
    { o with
      knowledgeBatch := some value.batch, batchRef := some ref, batchRevision := some value.id }]

/-- `matches!` -/
def Occurrence.matches (o : Occurrence U) (retained : Retained U) : Bool :=
  retained.value.occurrence = o.id ∧ retained.value.activation = o.activation ∧
    retained.value.revision = o.revision ∧ some retained.value.claim = o.claim ∧
    some retained.value.batch = o.knowledgeBatch ∧ some retained.reference = o.batchRef ∧
    some retained.value.id = o.batchRevision

variable (retained : Retained U)

/-- `anchored!`: the occurrence that still holds the retained value. -/
def anchored : Except Refusal (Occurrence U) := do
  validate h retained.value
  match db.occurrences.get retained.value.occurrence with
  | none => throw (.held "retained-binding-mismatch")
  | some o =>
    require (o.matches retained) (.held "retained-binding-mismatch")
    require (o.inputId = none ∧ o.inputRef = none ∧ o.inputRevision = none)
      (.held "mixed-input-binding")
    pure o

/-- The occurrence side of `request-tx`; `ready` stands for the other checks. -/
def requestTx (ready : Except Refusal Unit) (retained : Retained U) (request : U) :
    Except Refusal (Tx U) := do
  let reverse ← boundOccurrence db retained.value.batch forward
  let o ← anchored h db retained
  require (reverse.map (·.id) = some o.id) (.held "foreign-binding")
  let _ ← claimed db retained.value
  ready
  require (o.request = none) (.held "partial-request-link")
  pure [.occurrence o.id fun o ↦ { o with request := some request }]

/-- Resolve only the unlinked original slot of an abandoned batch. -/
def withdrawUnlinkedTx : Except Refusal (Tx U) := do
  let o ← anchored h db retained
  let reverse ← boundOccurrence db retained.value.batch forward
  match db.activations.get retained.value.activation with
  | none => throw (.held "linked-or-changed-occurrence")
  | some a =>
    require (reverse.map (·.id) = some o.id ∧ (o.state = .admitting ∨ o.state = .interrupted) ∧
      o.request = none ∧ o.announced = false ∧ retained.value.by_ = a.by_ ∧
      retained.value.room = a.room ∧ retained.value.revision = a.revision ∧
      retained.value.targetRef = a.targetRef) (.held "linked-or-changed-occurrence")
    let skipped : Write U := .occurrence o.id fun o ↦
      { o with state := .skipped, reason := some .batchAbandoned }
    if a.activeOccurrence = some retained.value.occurrence then
      pure [skipped, .activation a.id fun a ↦ { a with activeOccurrence := none }]
    else pure [skipped]

/-- `withdrawn!`: the historical observation of a completed withdrawal. -/
def withdrawn : Except Refusal Unit := do
  let o ← anchored h db retained
  let reverse ← boundOccurrence db retained.value.batch forward
  match db.activations.get retained.value.activation with
  | none => throw (.held "partial-withdrawal")
  | some a =>
    require (reverse.map (·.id) = some o.id ∧ o.state = .skipped ∧
      o.reason = some .batchAbandoned ∧ o.request = none ∧ o.announced = false ∧
      retained.value.room = a.room ∧ a.activeOccurrence ≠ some retained.value.occurrence)
      (.held "partial-withdrawal")

end Simmis.Schedules
