import Simmis.Knowledge.Rows
import Simmis.Library.Codes
import Simmis.Schedules.Counter

/-!
# A collision-free hash

Identities that are sequences of numbers: the hash of a value is the code of its parts.
-/

namespace Simmis.Knowledge

open Codes

def uuid : Code (List ℤ) := int.list

def versionCode : Code (Version (List ℤ)) :=
  (uuid.pair (nat.pair nat)).via (fun v ↦ (v.content, v.size, v.mode))
    (fun p ↦ ⟨p.1, p.2.1, p.2.2⟩) fun _ ↦ rfl

def portableCode : Code (Portable (List ℤ) ℕ) :=
  (uuid.pair (nat.pair (nat.pair versionCode))).via
    (fun i ↦ (i.id, i.order, i.path, i.version))
    (fun p ↦ ⟨p.1, p.2.1, p.2.2.1, p.2.2.2⟩) fun _ ↦ rfl

def sourceCode : Code (SourceFacts (List ℤ)) :=
  (uuid.pair (uuid.pair (string.pair (string.pair (string.pair uuid))))).via
    (fun s ↦ (s.repository, s.store, s.backend, s.branch, s.ref, s.configuration))
    (fun p ↦ ⟨p.1, p.2.1, p.2.2.1, p.2.2.2.1, p.2.2.2.2.1, p.2.2.2.2.2⟩) fun _ ↦ rfl

def basisCode : Code (Basis (List ℤ)) :=
  (sourceCode.pair (uuid.pair (nat.pair nat))).via
    (fun b ↦ (b.toSourceFacts, b.commit, b.maxTx, b.datoms))
    (fun p ↦ ⟨p.1, p.2.1, p.2.2.1, p.2.2.2⟩) fun _ ↦ rfl

def descriptorCode : Code (DescriptorFacts (List ℤ)) :=
  (uuid.pair (uuid.pair (uuid.pair (uuid.pair (uuid.pair uuid))))).via
    (fun d ↦ (d.by_, d.room, d.target, d.policy, d.program, d.epoch))
    (fun p ↦ ⟨p.1, p.2.1, p.2.2.1, p.2.2.2.1, p.2.2.2.2.1, p.2.2.2.2.2⟩) fun _ ↦ rfl

def boundCode : Code (Descriptor (List ℤ)) :=
  (descriptorCode.pair uuid).via (fun d ↦ (d.toDescriptorFacts, d.id))
    (fun p ↦ ⟨p.1, p.2⟩) fun _ ↦ rfl

def stateCode : Code StreamState :=
  nat.via
    (fun
      | .active => 0
      | .retiring => 1
      | .retired => 2)
    (fun
      | 0 => .active
      | 1 => .retiring
      | _ => .retired)
    fun state ↦ by cases state <;> rfl

def streamCode : Code (Stream (List ℤ)) :=
  (boundCode.pair (uuid.pair (nat.pair (nat.pair (nat.pair (stateCode.pair (uuid.pair
    (uuid.pair (nat.pair (uuid.pair uuid.option)))))))))).via
    (fun s ↦ (s.toDescriptor, s.source, s.revision, s.nextOrder, s.batchGeneration, s.state,
      s.cursorCommit, s.cursorRoot, s.cursorTx, s.lastDiscovery, s.activeBatch))
    (fun p ↦ ⟨p.1, p.2.1, p.2.2.1, p.2.2.2.1, p.2.2.2.2.1, p.2.2.2.2.2.1, p.2.2.2.2.2.2.1,
      p.2.2.2.2.2.2.2.1, p.2.2.2.2.2.2.2.2.1, p.2.2.2.2.2.2.2.2.2.1, p.2.2.2.2.2.2.2.2.2.2⟩)
    fun _ ↦ rfl

def selectionCode : Code (SelectionFacts (List ℤ) ℕ) :=
  (nat.pair (boundCode.pair (streamCode.pair (basisCode.pair (uuid.pair (uuid.pair
    (portableCode.list.pair (nat.pair uuid)))))))).via
    (fun s ↦ (s.version, s.stream, s.expected, s.basis, s.batchPolicy, s.reserved, s.items,
      s.remaining, s.evidence))
    (fun p ↦ ⟨p.1, p.2.1, p.2.2.1, p.2.2.2.1, p.2.2.2.2.1, p.2.2.2.2.2.1, p.2.2.2.2.2.2.1,
      p.2.2.2.2.2.2.2.1, p.2.2.2.2.2.2.2.2⟩) fun _ ↦ rfl

def roleCode : Code Role :=
  nat.via
    (fun
      | .trigger => 0
      | .context => 1)
    (fun
      | 0 => .trigger
      | _ => .context)
    fun role ↦ by cases role <;> rfl

def fileCode : Code (File (List ℤ)) :=
  (versionCode.pair roleCode).via (fun f ↦ (f.toVersion, f.role)) (fun p ↦ ⟨p.1, p.2⟩) fun _ ↦ rfl

def kindCode : Code Kind :=
  nat.via
    (fun
      | .added => 0
      | .removed => 1
      | .modified => 2)
    (fun
      | 0 => .added
      | 1 => .removed
      | _ => .modified)
    fun kind ↦ by cases kind <;> rfl

def changeCode : Code (PathChange (List ℤ) ℕ) :=
  (nat.pair (kindCode.pair (fileCode.option.pair fileCode.option))).via
    (fun c ↦ (c.path, c.kind, c.before, c.after))
    (fun p ↦ ⟨p.1, p.2.1, p.2.2.1, p.2.2.2⟩) fun _ ↦ rfl

def planCode : Code (Plan (List ℤ) ℕ) :=
  (basisCode.option.pair (basisCode.pair changeCode.list)).via
    (fun plan ↦ (plan.before, plan.after, plan.changes))
    (fun p ↦ ⟨p.1, p.2.1, p.2.2⟩) fun _ ↦ rfl

def targetCode : Code (Target (List ℤ)) :=
  (uuid.pair (uuid.pair (string.pair (string.pair (string.pair (uuid.option.pair
    string.option)))))).via
    (fun t ↦ (t.repository, t.store, t.backend, t.branch, t.ref, t.registrySystem, t.runtimeSystem))
    (fun p ↦ ⟨p.1, p.2.1, p.2.2.1, p.2.2.2.1, p.2.2.2.2.1, p.2.2.2.2.2.1, p.2.2.2.2.2.2⟩)
    fun _ ↦ rfl

def originCode : Code (Origin (List ℤ)) :=
  (targetCode.pair (uuid.pair (string.pair uuid))).via
    (fun o ↦ (o.target, o.targetStamp, o.workflow, o.sourceRevision))
    (fun p ↦ ⟨p.1, p.2.1, p.2.2.1, p.2.2.2⟩) fun _ ↦ rfl

def payloadCode : Code (Payload (List ℤ)) :=
  (boundCode.pair (streamCode.option.pair (basisCode.pair originCode))).via
    (fun payload ↦ (payload.stream, payload.expected, payload.basis, payload.origin))
    (fun p ↦ ⟨p.1, p.2.1, p.2.2.1, p.2.2.2⟩) fun _ ↦ rfl

def pinFieldsCode : Code (PinFields (List ℤ)) :=
  (uuid.pair (uuid.pair (uuid.pair (uuid.pair (uuid.pair (uuid.pair (uuid.pair (uuid.pair
    uuid.option)))))))).via
    (fun f ↦ (f.id, f.stream, f.claim, f.by_, f.room, f.target, f.payload, f.payloadId, f.discovery))
    (fun p ↦ ⟨p.1, p.2.1, p.2.2.1, p.2.2.2.1, p.2.2.2.2.1, p.2.2.2.2.2.1, p.2.2.2.2.2.2.1,
      p.2.2.2.2.2.2.2.1, p.2.2.2.2.2.2.2.2⟩) fun _ ↦ rfl

/-- The code of a value, as an identity. -/
def hashed {α : Type} (c : Code α) (a : α) : List ℤ := (c.write a).map Int.ofNat

theorem hashed_injective {α : Type} (c : Code α) : Function.Injective (hashed c) :=
  (List.map_injective_iff.mpr fun _ _ ↦ Int.ofNat.inj).comp c.write_injective

/-- A hash without collisions into sequences. -/
def Hasch.sequences : Hasch (List ℤ) ℕ where
  toHasch := .sequences
  descriptor := hashed descriptorCode
  item stream path version := hashed (uuid.pair (nat.pair versionCode)) (stream, path, version)
  item_injective h := by
    obtain ⟨hstream, hrest⟩ := Prod.mk.inj (hashed_injective _ h)
    obtain ⟨hpath, hversion⟩ := Prod.mk.inj hrest
    exact ⟨hstream, hpath, hversion⟩
  source := hashed sourceCode
  plan := hashed planCode
  planBytes plan := (planCode.write plan).length
  discovery stream expected plan root :=
    hashed (uuid.pair (streamCode.option.pair (uuid.pair uuid))) (stream, expected, plan, root)
  selection := hashed selectionCode
  selection_injective h := hashed_injective _ h
  batchRecovery batch room party client :=
    hashed (uuid.pair (uuid.pair (uuid.pair uuid))) (batch, room, party, client)
  submittedRecovery batch request room party client :=
    hashed (uuid.pair (uuid.pair (uuid.pair (uuid.pair uuid)))) (batch, request, room, party, client)
  payload := hashed payloadCode
  target := hashed targetCode
  retirement stream root party client :=
    hashed (uuid.pair (uuid.pair (uuid.pair uuid))) (stream, root, party, client)
  streamBinding := hashed streamCode
  pinBinding := hashed pinFieldsCode
  coreAck := hashed (nat.pair uuid) ∘ (0, ·)
  adapterAck := hashed (nat.pair uuid) ∘ (1, ·)
  familyAck := hashed (nat.pair uuid) ∘ (2, ·)

end Simmis.Knowledge
