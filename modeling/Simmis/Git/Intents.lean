import Simmis.Git.Journal

/-!
# One intent for a room, one attempt for an intent

Over every run of the journal a room has at most one row that is not closed, and it holds the slot.
What a row records is written once, and an attempt to apply, to file or to send is never begun
again.
-/

namespace Simmis.Git

open List Option Runs State Table Row Function

variable {U : Type} [DecidableEq U]

/-- What holds of every stored row. -/
structure Row.Lawful (row : Row U) : Prop where
  slot : row.activeRoom = if row.state = .closed then none else some row.room
  held : row.heldFrom.isSome ↔ row.state = .held
  incoming : row.kindOf = .incoming → row.state.applies = false
  fastForward : row.kindOf = .fastForward → row.state ≠ .retaining ∧ row.state.files = false
  applies : row.kindOf = .incomingPolicy → row.state.applies → row.disposition = some .fastForward
  files : row.kindOf = .incomingPolicy → row.state.files → row.disposition = some .proposal
  retained : row.isIncoming → row.state = .ready → (row.receipts .retention).isSome
  reviewed : row.disposition = none → row.reviewRevision = none

/-- States that no attempt follows. -/
def State.late : State → Bool
  | .creating | .allocated | .retaining | .ready | .held => false
  | _ => true

/-- An attempt was begun or given up. -/
def Row.Spent (row : Row U) : Prop :=
  row.state.late ∨ row.state = .held ∧ row.heldFrom.any State.late

/-- The states that begin an attempt. -/
def State.begins (state : State) : Bool := state = .applying || state = .filing || state = .sending

/-- What is written once, and that a spent row stays spent. -/
structure Row.Keeps (old new : Row U) : Prop where
  id : new.id = old.id
  by_ : new.by_ = old.by_
  room : new.room = old.room
  clientId : new.clientId = old.clientId
  claim : new.claim = old.claim
  preparation : new.preparation = old.preparation
  preparationId : new.preparationId = old.preparationId
  kind : new.kind = old.kind
  disposition : Kept old.disposition new.disposition
  reviewRevision : Kept old.reviewRevision new.reviewRevision
  receipts : ∀ slot, slot ≠ .incident → Kept (old.receipts slot) (new.receipts slot)
  pack : Kept old.pack new.pack
  closed : old.state = .closed → new = old
  spent : old.Spent → new.Spent

omit [DecidableEq U] in
theorem Row.Keeps.refl (row : Row U) : row.Keeps row :=
  ⟨rfl, rfl, rfl, rfl, rfl, rfl, rfl, rfl, .refl _, .refl _, fun _ _ ↦ .refl _, .refl _,
    fun _ ↦ rfl, fun h ↦ h⟩

omit [DecidableEq U] in
theorem Row.Keeps.trans {a b c : Row U} (h₁ : a.Keeps b) (h₂ : b.Keeps c) : a.Keeps c where
  id := h₂.id.trans h₁.id
  by_ := h₂.by_.trans h₁.by_
  room := h₂.room.trans h₁.room
  clientId := h₂.clientId.trans h₁.clientId
  claim := h₂.claim.trans h₁.claim
  preparation := h₂.preparation.trans h₁.preparation
  preparationId := h₂.preparationId.trans h₁.preparationId
  kind := h₂.kind.trans h₁.kind
  disposition := h₁.disposition.trans h₂.disposition
  reviewRevision := h₁.reviewRevision.trans h₂.reviewRevision
  receipts slot hslot := (h₁.receipts slot hslot).trans (h₂.receipts slot hslot)
  pack := h₁.pack.trans h₂.pack
  closed hclosed := by
    obtain rfl := h₁.closed hclosed
    exact h₂.closed hclosed
  spent hspent := h₂.spent (h₁.spent hspent)

/-- The checks of `transition-tx` on the way to a write. -/
structure Row.Moves (row : Row U) (toState : State) (receipt : Option (Slot × Receipt U))
    (policy : Option (Policy U)) : Prop where
  kind : row.kindOf ≠ .push
  policy : row.acceptsPolicy toState policy
  disposition : row.kindOf = .incomingPolicy →
    (toState.applies → row.disposition = some .fastForward) ∧
      (toState.files → row.disposition = some .proposal)
  incoming : ¬ (row.kindOf = .incoming ∧ toState.applies)
  outgoing : ¬ (¬ row.isIncoming ∧ (toState = .retaining ∨ toState.files))
  places : receipt.map Prod.fst = receiptSlot toState
  next : row.state = toState ∨ toState ∈ nextStates row.state
  retained : row.isIncoming ∧ toState = .ready → (row.receipts .retention).isSome
  certain : row.state = .held ∧ toState = .ready → row.heldIn [.allocated, .ready, .retaining]
  fits : receiptSlot toState = some .incident ∨ row.fitsReceipt receipt
  active : row.activeRoom = some row.room

/-- The checks of `github-push/transition-tx` on the way to a write. -/
structure Row.Pushes (row : Row U) (state : State) (slot : Slot) (receipt : Receipt U)
    (pack : Option (Pack U)) : Prop where
  kind : row.kindOf = .push
  places : pushSlot state = some slot
  next : state ∈ pushNextStates row.state
  active : row.activeRoom = some row.room
  fits : row.receipts slot = none ∨ row.receipts slot = some receipt
  pack : row.acceptsPack state pack

/-- The row that a call writes. -/
inductive Change (db : Db U) : Row U → Prop
  | prepared (binding : Binding U) (preparation preparationId : U) (kind : Kind)
    (hnew : db.get binding.id = none) (hfree : activeIn db binding.room = none) :
    Change db (binding.row preparation preparationId kind)
  | moved (row : Row U) (hrow : db.get row.id = some row) {toState : State}
    {receipt : Option (Slot × Receipt U)} {policy : Option (Policy U)}
    (hmoves : row.Moves toState receipt policy) : Change db (row.moved toState receipt policy)
  | pushed (row : Row U) (hrow : db.get row.id = some row) {state : State} {slot : Slot}
    {receipt : Receipt U} {pack : Option (Pack U)} (hpushes : row.Pushes state slot receipt pack) :
    Change db (row.pushMoved state slot receipt pack)

variable {requestId : U → U → U → U} {db : Db U} {row written : Row U}

theorem prepareTx_change {binding : Binding U} {preparation preparationId : U} {kind : Kind}
    (h : prepareTx requestId db binding preparation preparationId kind = .ok (some written)) :
    Change db written := by
  obtain ⟨-, h⟩ := require_bind_eq_ok.mp h
  split at h
  · obtain ⟨-, h⟩ := require_bind_eq_ok.mp h
    exact nomatch h
  · next hnew =>
    obtain ⟨hfree, h⟩ := require_bind_eq_ok.mp h
    cases h
    exact .prepared binding preparation preparationId kind hnew hfree

omit [DecidableEq U] in
theorem receiptOf_slot {slot : Option Slot} {ref receiptId : Option U}
    {receipt : Option (Slot × Receipt U)} (h : receiptOf slot ref receiptId = .ok receipt) :
    receipt.map Prod.fst = slot := by
  unfold receiptOf at h
  split at h
  · cases h
    rfl
  · cases h
    rfl
  · exact nomatch h

omit [DecidableEq U] in
theorem heldIn_mono {states others : List State} (h : row.heldIn states)
    (hstates : ∀ s ∈ states, s ∈ others) : row.heldIn others := by
  simp only [heldIn, Bool.and_eq_true, Option.any_eq_true, decide_eq_true_eq] at h ⊢
  obtain ⟨hheld, s, hs, hmem⟩ := h
  exact ⟨hheld, s, hs, hstates s hmem⟩

theorem transitionTx_change {expected : Row U} {toState : State} {ref receiptId : Option U}
    {policy : Option (Policy U)}
    (h : transitionTx db expected toState ref receiptId policy = .ok (some written)) :
    Change db written := by
  unfold transitionTx at h
  split at h
  · exact nomatch h
  next row hrow =>
  obtain ⟨rfl, h⟩ := require_bind_eq_ok.mp h
  obtain ⟨hkind, h⟩ := require_bind_eq_ok.mp h
  obtain ⟨hpolicy, h⟩ := require_bind_eq_ok.mp h
  obtain ⟨hdisposition, h⟩ := require_bind_eq_ok.mp h
  obtain ⟨⟨hincoming, houtgoing⟩, h⟩ := require_bind_eq_ok.mp h
  obtain ⟨receipt, hreceipt, h⟩ := bind_eq_ok.mp h
  obtain ⟨hnext, h⟩ := require_bind_eq_ok.mp h
  obtain ⟨hretained, h⟩ := require_bind_eq_ok.mp h
  obtain ⟨hcertain, h⟩ := require_bind_eq_ok.mp h
  obtain ⟨hfits, h⟩ := require_bind_eq_ok.mp h
  split at h
  · exact nomatch h
  · obtain ⟨hactive, h⟩ := require_bind_eq_ok.mp h
    cases h
    refine .moved _ hrow ⟨hkind, hpolicy, hdisposition, hincoming, houtgoing,
      receiptOf_slot hreceipt, hnext, fun hready ↦ (hretained hready).1, fun hready ↦ ?_, hfits,
      hactive⟩
    rcases hcertain hready with hheld | ⟨-, hheld⟩
    · exact heldIn_mono hheld (by simp)
    · exact heldIn_mono hheld (by simp)

theorem pushTransitionTx_change {expected : Row U} {state : State} {ref bodyId : Option U}
    {pack : Option (Pack U)}
    (h : pushTransitionTx db expected state ref bodyId pack = .ok (some written)) :
    Change db written := by
  unfold pushTransitionTx at h
  split at h
  · exact nomatch h
  next row hrow =>
  obtain ⟨⟨-, hkind⟩, h⟩ := require_bind_eq_ok.mp h
  have hrow : db.get row.id = some row := by rwa [key_of_get hrow]
  split at h
  · next slot ref id hslot _ =>
    obtain ⟨hnext, h⟩ := require_bind_eq_ok.mp h
    obtain ⟨hactive, h⟩ := require_bind_eq_ok.mp h
    obtain ⟨hfits, h⟩ := require_bind_eq_ok.mp h
    obtain ⟨hpack, h⟩ := require_bind_eq_ok.mp h
    split at h
    · exact nomatch h
    · next hstate =>
      cases h
      have hactive := hactive.resolve_right fun hclosed ↦ hstate (hclosed.2.trans hclosed.1.symm)
      exact .pushed row hrow ⟨hkind, hslot, hnext.resolve_left hstate, hactive, hfits, hpack⟩
  · exact nomatch h

/-- Every write of the journal is one of the three. -/
theorem tx_change {call : Call U} (h : call.tx requestId db = .ok (some written)) :
    Change db written := by
  cases call with
  | prepare => exact prepareTx_change h
  | transition => exact transitionTx_change h
  | pushPrepare => exact prepareTx_change h
  | pushTransition => exact pushTransitionTx_change h

omit [DecidableEq U] in
theorem Binding.row_lawful (binding : Binding U) (preparation preparationId : U) (kind : Kind) :
    (binding.row preparation preparationId kind).Lawful := by
  constructor <;> simp [Binding.row, applies, files]

section Moves

variable {toState : State} {receipt : Option (Slot × Receipt U)} {policy : Option (Policy U)}

omit [DecidableEq U] in
theorem moved_receipts (slot : Slot) : (row.moved toState receipt policy).receipts slot =
    (receipt.bind fun r ↦ if r.1 = slot then some r.2 else none).or (row.receipts slot) := by
  cases receipt with
  | none => rfl
  | some receipt =>
    simp only [moved, elim_some, update_apply, bind_some]
    by_cases hslot : receipt.1 = slot
    · rw [if_pos hslot.symm, if_pos hslot]
      rfl
    · rw [if_neg (Ne.symm hslot), if_neg hslot]
      rfl

theorem Row.Moves.revision_kept (hlawful : row.Lawful) (h : row.Moves toState receipt policy) :
    Kept row.reviewRevision (row.moved toState receipt policy).reviewRevision := by
  intro revision hrevision
  cases policy with
  | none => exact hrevision
  | some policy =>
    have hpolicy := h.policy
    unfold acceptsPolicy at hpolicy
    split at hpolicy
    · simp only [any_some, Bool.or_eq_true, decide_eq_true_eq, Bool.and_eq_true] at hpolicy
      rcases hpolicy with hnone | ⟨-, hsame⟩
      · exact nomatch (hlawful.reviewed hnone).symm.trans hrevision
      · exact hsame.symm.trans hrevision
    · simp at hpolicy

theorem late_next : ∀ s t, late s → t ∈ nextStates s → t.late ∨ t = .held := by
  intro s t hs ht
  cases s <;> simp [nextStates, late] at hs ht ⊢ <;> rcases ht with rfl | rfl | rfl <;> simp

theorem held_next : ∀ t, t ∈ nextStates .held → t = .ready ∨ t.late := by
  intro t ht
  simp only [nextStates, mem_cons, not_mem_nil, or_false] at ht
  rcases ht with rfl | rfl | rfl
  · exact .inl rfl
  · exact .inr rfl
  · exact .inr rfl

theorem begins_next : ∀ s t, begins t → t ∈ nextStates s → s = .ready := by
  intro s t ht hs
  cases t <;> simp [begins] at ht <;> cases s <;> simp [nextStates] at hs ⊢

section

variable (h : row.Moves toState receipt policy)
include h

/-- Only the way to `:ready` carries a policy. -/
theorem Row.Moves.policy_none (hto : toState ≠ .ready) : policy = none := by
  have hpolicy := h.policy
  unfold acceptsPolicy at hpolicy
  rw [if_neg fun hready ↦ hto hready.2] at hpolicy
  simpa using hpolicy

theorem Row.Moves.receipts {slot : Slot} (hslot : slot ≠ .incident) :
    Kept (row.receipts slot) ((row.moved toState receipt policy).receipts slot) := by
  intro r hr
  rw [moved_receipts]
  cases receipt with
  | none => exact hr
  | some receipt =>
    rw [bind_some]
    by_cases hsame : receipt.1 = slot
    · rcases h.fits with hincident | hfits
      · have hfst := h.places
        rw [hincident, map_some] at hfst
        exact absurd (hsame.symm.trans (some.inj hfst)) hslot
      · simp only [fitsReceipt, all_some, Bool.or_eq_true, decide_eq_true_eq, hsame, hr,
          reduceCtorEq, false_or] at hfits
        rw [if_pos hsame]
        exact hfits.symm
    · rw [if_neg hsame]
      exact hr

theorem Row.Moves.disposition_kept :
    Kept row.disposition (row.moved toState receipt policy).disposition := by
  intro disposition hdisposition
  cases policy with
  | none => exact hdisposition
  | some policy =>
    have hpolicy := h.policy
    unfold acceptsPolicy at hpolicy
    split at hpolicy
    · simp only [any_some, hdisposition, reduceCtorEq, decide_false, Bool.false_or,
        Bool.and_eq_true, decide_eq_true_eq] at hpolicy
      exact hpolicy.1.symm
    · simp at hpolicy

/-- The held state is carried from one hold to the next, so a spent row is not resumed. -/
theorem Row.Moves.spent (hspent : row.Spent) : (row.moved toState receipt policy).Spent := by
  rcases hspent with hlate | ⟨hheld, hfrom⟩
  · have hto : toState.late ∨ toState = .held := by
      rcases h.next with rfl | hnext
      · exact .inl hlate
      · exact late_next _ _ hlate hnext
    rcases hto with hto | rfl
    · exact .inl hto
    · refine .inr ⟨rfl, ?_⟩
      have hstate : row.state ≠ .held := fun hstate ↦ by simp [hstate, late] at hlate
      simpa [moved, hstate] using hlate
  · rcases h.next with hsame | hnext
    · refine .inr ⟨hsame.symm.trans hheld, ?_⟩
      have hto : toState = .held := hsame.symm.trans hheld
      simpa [moved, hto, hheld] using hfrom
    · rw [hheld] at hnext
      rcases held_next toState hnext with rfl | hlate
      · have hresumed := h.certain ⟨hheld, rfl⟩
        simp only [heldIn, Bool.and_eq_true, Option.any_eq_true, decide_eq_true_eq] at hresumed
        obtain ⟨-, from', hsome, hmem⟩ := hresumed
        rw [hsome] at hfrom
        simp only [mem_cons, not_mem_nil, or_false] at hmem
        rcases hmem with rfl | rfl | rfl <;> exact nomatch hfrom
      · exact .inl hlate

end

theorem Row.Moves.lawful (hlawful : row.Lawful) (h : row.Moves toState receipt policy) :
    (row.moved toState receipt policy).Lawful where
  slot := by
    simp only [moved, h.active]
  held := by
    change isSome (if toState = .held then _ else _) ↔ toState = .held
    by_cases hto : toState = .held
    · rw [if_pos hto]
      split
      · next hstate => exact iff_of_true (hlawful.held.mpr hstate) hto
      · exact iff_of_true rfl hto
    · rw [if_neg hto]
      exact iff_of_false Bool.false_ne_true hto
  incoming hkind := by
    rw [← Bool.not_eq_true]
    exact fun happlies ↦ h.incoming ⟨hkind, happlies⟩
  fastForward hkind := by
    have hkind : row.kindOf = .fastForward := hkind
    have houtgoing : ¬ row.isIncoming := by simp [isIncoming, hkind]
    rw [← Bool.not_eq_true]
    exact ⟨fun hto ↦ h.outgoing ⟨houtgoing, .inl hto⟩, fun hfiles ↦ h.outgoing ⟨houtgoing, .inr hfiles⟩⟩
  applies hkind happlies := by
    have hready : toState ≠ .ready := by
      rintro rfl
      exact nomatch happlies
    have hdisposition := (h.disposition hkind).1 happlies
    obtain rfl := h.policy_none hready
    exact hdisposition
  files hkind hfiles := by
    have hready : toState ≠ .ready := by
      rintro rfl
      exact nomatch hfiles
    have hdisposition := (h.disposition hkind).2 hfiles
    obtain rfl := h.policy_none hready
    exact hdisposition
  retained hincoming hready := by
    exact (h.receipts (by decide)).isSome (h.retained ⟨hincoming, hready⟩)
  reviewed hnone := by
    cases policy with
    | none => exact hlawful.reviewed hnone
    | some policy => exact nomatch hnone

theorem Row.Moves.keeps (hlawful : row.Lawful) (h : row.Moves toState receipt policy) :
    row.Keeps (row.moved toState receipt policy) where
  id := rfl
  by_ := rfl
  room := rfl
  clientId := rfl
  claim := rfl
  preparation := rfl
  preparationId := rfl
  kind := rfl
  disposition := h.disposition_kept
  reviewRevision := h.revision_kept hlawful
  receipts _ hslot := h.receipts hslot
  pack := .refl _
  closed hclosed := by
    have hslot := hlawful.slot
    rw [if_pos hclosed, h.active] at hslot
    exact nomatch hslot
  spent hspent := h.spent hspent

end Moves

section Pushes

variable {state : State} {slot : Slot} {receipt : Receipt U} {pack : Option (Pack U)}

theorem Row.Pushes.not_held (h : row.Pushes state slot receipt pack) : row.state ≠ .held := by
  intro hheld
  have hnext := h.next
  rw [hheld] at hnext
  exact nomatch hnext

theorem push_next : ∀ s t, t ∈ pushNextStates s → t ≠ .held ∧ (late s → t.late) := by
  intro s t hnext
  cases s <;> simp [pushNextStates, late] at hnext ⊢ <;>
    rcases hnext with rfl | rfl | rfl <;> simp

theorem Row.Pushes.lawful (hlawful : row.Lawful) (h : row.Pushes state slot receipt pack) :
    (row.pushMoved state slot receipt pack).Lawful := by
  have hkind : (row.pushMoved state slot receipt pack).kindOf = .push := h.kind
  constructor
  · simp only [pushMoved, h.active]
  · have hnone : row.heldFrom.isSome = false := by
      rw [← Bool.not_eq_true, hlawful.held]
      exact h.not_held
    change row.heldFrom.isSome ↔ state = .held
    rw [hnone]
    exact iff_of_false Bool.false_ne_true (push_next _ _ h.next).1
  · exact fun hother ↦ nomatch hkind.symm.trans hother
  · exact fun hother ↦ nomatch hkind.symm.trans hother
  · exact fun hother ↦ nomatch hkind.symm.trans hother
  · exact fun hother ↦ nomatch hkind.symm.trans hother
  · intro hincoming
    simp [isIncoming, hkind] at hincoming
  · exact hlawful.reviewed

theorem Row.Pushes.keeps (h : row.Pushes state slot receipt pack) :
    row.Keeps (row.pushMoved state slot receipt pack) where
  id := rfl
  by_ := rfl
  room := rfl
  clientId := rfl
  claim := rfl
  preparation := rfl
  preparationId := rfl
  kind := rfl
  disposition := .refl _
  reviewRevision := .refl _
  receipts other _ := by
    intro r hr
    change update row.receipts slot (some receipt) other = some r
    rw [update_apply]
    split
    · next hsame =>
      subst hsame
      have hfits := h.fits
      rw [hr] at hfits
      exact (hfits.resolve_left (by simp)).symm
    · exact hr
  pack := by
    intro old hold
    have hpack := h.pack
    unfold acceptsPack at hpack
    change pack.or row.pack = some old
    cases pack with
    | none => exact hold
    | some pack =>
      split at hpack
      · simp only [any_some, hold, Bool.and_eq_true, Bool.or_eq_true, decide_eq_true_eq,
          reduceCtorEq, false_or] at hpack
        rw [some_or, hpack.2]
      · simp at hpack
  closed hclosed := by
    have hnext := h.next
    rw [hclosed] at hnext
    exact nomatch hnext
  spent hspent := by
    rcases hspent with hlate | ⟨hheld, -⟩
    · exact .inl ((push_next _ _ h.next).2 hlate)
    · exact absurd hheld h.not_held

theorem begins_push : ∀ s t, begins t → t ∈ pushNextStates s → s = .ready := by
  intro s t ht hs
  cases t <;> simp [begins] at ht <;> cases s <;> simp [pushNextStates] at hs ⊢

end Pushes

/-- Stored rows are lawful, and at most one of them holds the slot of a room. -/
structure Db.Sound (db : Db U) : Prop where
  lawful : ∀ id row, db.get id = some row → row.Lawful
  alone : ∀ i j row other room, db.get i = some row → db.get j = some other →
    row.activeRoom = some room → other.activeRoom = some room → i = j

theorem sound_init : Db.Sound (empty : Db U) where
  lawful _ _ h := nomatch h
  alone _ _ _ _ _ h := nomatch h

theorem activeIn_eq_none {room : U} :
    activeIn db room = none ↔ ∀ id row, db.get id = some row → row.activeRoom ≠ some room := by
  simp only [activeIn, find?_eq_none, decide_eq_true_eq]
  constructor
  · intro h id row hrow
    exact h row (get_eq_some_iff.mp hrow).1
  · intro h row hrow
    exact h row.id row (get_eq_some_iff.mpr ⟨hrow, rfl⟩)

omit [DecidableEq U] in
theorem Row.Lawful.active_iff (h : row.Lawful) {room : U} :
    row.activeRoom = some room ↔ row.room = room ∧ row.state ≠ .closed := by
  rw [h.slot]
  by_cases hclosed : row.state = .closed
  · simp [hclosed]
  · simp [hclosed]

/-- `active-in` returns the one row of a room that is not closed. -/
theorem Db.Sound.activeIn_iff (h : db.Sound) {room : U} : activeIn db room = some row ↔
    db.get row.id = some row ∧ row.room = room ∧ row.state ≠ .closed := by
  constructor
  · intro hactive
    have hmem := mem_of_find?_eq_some hactive
    have hroom : row.activeRoom = some room := by simpa using find?_some hactive
    have hrow : db.get row.id = some row := get_eq_some_iff.mpr ⟨hmem, rfl⟩
    exact ⟨hrow, (h.lawful _ _ hrow).active_iff.mp hroom⟩
  · rintro ⟨hrow, hopen⟩
    have hroom := (h.lawful _ _ hrow).active_iff.mpr hopen
    cases hfound : activeIn db room with
    | none => exact absurd hroom (activeIn_eq_none.mp hfound _ _ hrow)
    | some found =>
      have hmem := mem_of_find?_eq_some hfound
      have hfoundRoom : found.activeRoom = some room := by simpa using find?_some hfound
      have hstored : db.get found.id = some found := get_eq_some_iff.mpr ⟨hmem, rfl⟩
      have hid := h.alone _ _ _ _ _ hstored hrow hfoundRoom hroom
      rw [hid, hrow] at hstored
      exact hstored.symm

/-- What a write does to the row under its identity. -/
theorem Change.spec (hchange : Change db written) (h : db.Sound) :
    written.Lawful ∧ (∀ row, db.get written.id = some row → row.Keeps written ∧
      (written.state.begins → row.Spent → row.state = written.state) ∧
      ∀ room, written.activeRoom = some room → row.activeRoom = some room) ∧
    (db.get written.id = none → ∀ room, written.activeRoom = some room →
      activeIn db room = none) := by
  cases hchange with
  | prepared binding preparation preparationId kind hnew hfree =>
    refine ⟨binding.row_lawful _ _ _, fun row hrow ↦ ?_, fun _ room hroom ↦ ?_⟩
    · exact nomatch hnew.symm.trans hrow
    · cases hroom
      exact hfree
  | moved row hrow hmoves =>
    have hlawful := h.lawful _ _ hrow
    refine ⟨hmoves.lawful hlawful, fun old hold ↦ ?_, fun hnone ↦ nomatch hnone.symm.trans hrow⟩
    obtain rfl := some.inj (hrow.symm.trans hold)
    refine ⟨hmoves.keeps hlawful, fun hbegins hspent ↦ ?_, fun room hroom ↦ ?_⟩
    · rcases hmoves.next with hsame | hnext
      · exact hsame
      · have hready := begins_next _ _ hbegins hnext
        rcases hspent with hlate | ⟨hheld, -⟩
        · rw [hready] at hlate
          exact nomatch hlate
        · exact nomatch hready.symm.trans hheld
    · simp only [Row.moved] at hroom
      split at hroom
      · exact nomatch hroom
      · exact hroom
  | pushed row hrow hpushes =>
    have hlawful := h.lawful _ _ hrow
    refine ⟨hpushes.lawful hlawful, fun old hold ↦ ?_, fun hnone ↦ nomatch hnone.symm.trans hrow⟩
    obtain rfl := some.inj (hrow.symm.trans hold)
    refine ⟨hpushes.keeps, fun hbegins hspent ↦ ?_, fun room hroom ↦ ?_⟩
    · have hready := begins_push _ _ hbegins hpushes.next
      rcases hspent with hlate | ⟨hheld, -⟩
      · rw [hready] at hlate
        exact nomatch hlate
      · exact absurd hheld hpushes.not_held
    · simp only [pushMoved] at hroom
      split at hroom
      · exact nomatch hroom
      · exact hroom

theorem Change.sound (hchange : Change db written) (h : db.Sound) : Db.Sound (db.put written) := by
  obtain ⟨hlawful, hold, hnew⟩ := hchange.spec h
  -- whoever holds the slot of the written row's room has held it, and under this identity
  have hholder {i : U} {row : Row U} {room : U} (hi : db.get i = some row)
      (hroom : row.activeRoom = some room) (hwritten : written.activeRoom = some room) :
      i = written.id := by
    cases hprior : db.get written.id with
    | none => exact absurd hroom (activeIn_eq_none.mp (hnew hprior room hwritten) i row hi)
    | some prior =>
      exact h.alone _ _ _ _ _ hi hprior hroom ((hold prior hprior).2.2 room hwritten)
  constructor
  · intro id row hrow
    rw [get_put] at hrow
    split at hrow
    · exact some.inj hrow ▸ hlawful
    · exact h.lawful id row hrow
  · intro i j row other room hi hj hroom hother
    rw [get_put] at hi hj
    split at hi <;> split at hj
    · next hiw hjw => exact hiw.trans hjw.symm
    · next hiw _ =>
      rw [← some.inj hi] at hroom
      exact hiw.trans (hholder hj hother hroom).symm
    · next _ hjw =>
      rw [← some.inj hj] at hother
      exact (hholder hi hroom hother).trans hjw.symm
    · exact h.alone i j row other room hi hj hroom hother

/-- What one step does to the row under an identity. -/
def Db.Moved (db after : Db U) : Prop :=
  ∀ id row, db.get id = some row → ∃ row', after.get id = some row' ∧ row.Keeps row' ∧
    (row'.state.begins → row.Spent → row.state = row'.state)

theorem step_spec (h : db.Sound) (call : Call U) :
    (db.step requestId call).Sound ∧ db.Moved (db.step requestId call) := by
  have hsame : db.Moved db := fun id row hrow ↦ ⟨row, hrow, .refl row, fun _ _ ↦ rfl⟩
  unfold Db.step
  split
  · next written htx =>
    have hchange := tx_change htx
    refine ⟨hchange.sound h, fun id row hrow ↦ ?_⟩
    rw [get_put]
    split
    · next hid =>
      subst hid
      obtain ⟨hkeeps, hbegins, -⟩ := (hchange.spec h).2.1 row hrow
      exact ⟨written, rfl, hkeeps, hbegins⟩
    · exact ⟨row, hrow, .refl row, fun _ _ ↦ rfl⟩
  · exact ⟨h, hsame⟩
  · exact ⟨h, hsame⟩

theorem run_sound (h : db.Sound) (calls : List (Call U)) :
    (run (Db.step requestId) db calls).Sound :=
  run_preserves Db.Sound (fun _ call hdb ↦ (step_spec hdb call).1) h calls

def Db.Extends (db later : Db U) : Prop :=
  ∀ id row, db.get id = some row → ∃ row', later.get id = some row' ∧ row.Keeps row'

theorem run_extends (h : db.Sound) (calls : List (Call U)) :
    db.Extends (run (Db.step requestId) db calls) := by
  refine run_climbs Db.Extends Db.Sound (fun _ id row hrow ↦ ⟨row, hrow, .refl row⟩) ?_
    (fun _ call hdb ↦ (step_spec hdb call).1) ?_ h calls
  · intro a b c hab hbc id row hrow
    obtain ⟨row', hrow', hkeeps⟩ := hab id row hrow
    obtain ⟨row'', hrow'', hkeeps'⟩ := hbc id row' hrow'
    exact ⟨row'', hrow'', hkeeps.trans hkeeps'⟩
  · intro a call ha id row hrow
    obtain ⟨row', hrow', hkeeps, -⟩ := (step_spec ha call).2 id row hrow
    exact ⟨row', hrow', hkeeps⟩

/-- The row has been in a state that attempts or records the effect of an intent. -/
def State.attempted (state : State) : Bool := state.applies || state.files || state = .sending

omit [DecidableEq U] in
theorem spent_of_attempted (h : row.state.attempted) : row.Spent := by
  refine .inl ?_
  cases hstate : row.state <;>
    simp [hstate, attempted, applies, files, late] at h ⊢

/-- A room has at most one row that is not closed, a slot is freed by closing its row only, and an
intent that was attempted never begins another attempt. -/
theorem one_intent_one_attempt (requestId : U → U → U → U) (calls : List (Call U)) :
    let db := reached requestId calls
    (∀ room row, activeIn db room = some row ↔
      db.get row.id = some row ∧ row.room = room ∧ row.state ≠ .closed) ∧
    (∀ id row, db.get id = some row → row.Lawful) ∧
    ∀ further, let later := run (Db.step requestId) db further
      ∀ id row, db.get id = some row → ∃ row', later.get id = some row' ∧ row.Keeps row' ∧
        (activeIn db row.room = some row →
          row'.state = .closed ∨ activeIn later row.room = some row') ∧
        (row.state.attempted → row'.state ≠ .ready ∧ ∀ call,
          ∃ row'', (later.step requestId call).get id = some row'' ∧
            (row''.state.begins → row''.state = row'.state)) := by
  intro db
  have hdb : db.Sound := run_sound sound_init calls
  refine ⟨fun room row ↦ hdb.activeIn_iff, hdb.lawful, fun further ↦ ?_⟩
  intro later id row hrow
  have hlater : later.Sound := run_sound hdb further
  obtain ⟨row', hrow', hkeeps⟩ := run_extends hdb further id row hrow
  refine ⟨row', hrow', hkeeps, fun _ ↦ ?_, fun hattempted ↦ ?_⟩
  · by_cases hclosed : row'.state = .closed
    · exact .inl hclosed
    · refine .inr (hlater.activeIn_iff.mpr ⟨?_, hkeeps.room, hclosed⟩)
      rwa [key_of_get hrow']
  · have hspent := hkeeps.spent (spent_of_attempted hattempted)
    refine ⟨fun hready ↦ ?_, fun call ↦ ?_⟩
    · rcases hspent with hlate | ⟨hheld, -⟩
      · rw [hready] at hlate
        exact nomatch hlate
      · exact nomatch hready.symm.trans hheld
    · obtain ⟨row'', hrow'', -, hbegins⟩ := (step_spec hlater call).2 id row' hrow'
      exact ⟨row'', hrow'', fun h ↦ (hbegins h hspent).symm⟩

end Simmis.Git
