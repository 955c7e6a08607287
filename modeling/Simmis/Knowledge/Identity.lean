import Simmis.Knowledge.Exclusive

/-!
# Identities of batches

The identity of a batch is the hash of its selection, with the stream row and the items. No later
selection has the identity of a closed batch.
-/

namespace Simmis.Knowledge

open Runs

variable {U P : Type} [DecidableEq U] [LinearOrder P] {h : Hasch U P}

omit [LinearOrder P] in
theorem validateSelection_eq_ok {selection : Selection U P} {u : Unit}
    (hok : validateSelection h selection = .ok u) :
    selection.items ≠ [] ∧ selection.id = h.selection selection.toSelectionFacts := by
  unfold validateSelection at hok
  rw [require_bind_eq_ok] at hok
  have hsealed := hok.1.1
  simp only [Selection.sealed, decide_eq_true_eq] at hsealed
  refine ⟨fun hnil ↦ ?_, hsealed.2.2.2⟩
  simp [hnil] at hsealed

/-- A claimable selection names the current row of its stream and pending items. -/
theorem claimable_eq_ok {j : Journal U P} {selection : Selection U P} {selected : List (Item U P)}
    (hok : claimable h j selection = .ok selected) :
    j.streams.get selection.expected.id = some selection.expected ∧
      selection.items = selected.map (·.portable) ∧
      ∀ i ∈ selected, j.items.get i.id = some i ∧ i.state = .pending := by
  unfold claimable at hok
  simp only [bind_eq_ok, admissible_eq_ok, exists_const] at hok
  obtain ⟨pending, hpending, -, hok⟩ := hok
  split at hok
  · cases hok
  · next s hs =>
    simp only [bind_eq_ok, require_eq_ok, exists_const] at hok
    obtain ⟨⟨hexpected, -⟩, ⟨hlisted, -⟩, hok⟩ := hok
    injection hok with hselected
    subst hselected
    have hkey := Table.key_of_get hs
    refine ⟨?_, hlisted, fun i hi ↦ ?_⟩
    · rw [hexpected, hkey]
      exact hs
    · obtain ⟨hget, -, hstate⟩ := pendingItems_eq_ok hpending (List.mem_of_mem_take hi)
      exact ⟨hget, hstate⟩

/-- No batch has the identity of a claimable selection. -/
theorem Ledger.Sound.fresh {j : Journal U P} (hj : j.ledger.Sound h) {selection : Selection U P}
    {selected : List (Item U P)} {u : Unit} (hvalid : validateSelection h selection = .ok u)
    (hclaimable : claimable h j selection = .ok selected) : j.batches.get selection.id = none := by
  obtain ⟨hnonempty, hidentity⟩ := validateSelection_eq_ok hvalid
  obtain ⟨hexpected, hlisted, hpending⟩ := claimable_eq_ok hclaimable
  by_contra hsome
  obtain ⟨b, hb⟩ := Option.ne_none_iff_exists'.mp hsome
  obtain ⟨-, facts, hhash, -, hopen, hclosed⟩ := hj.batches selection.id b hb
  rw [Table.key_of_get hb, hidentity] at hhash
  have hfacts := h.selection_injective hhash
  subst hfacts
  obtain ⟨i, hi⟩ : ∃ i, i ∈ selected := by
    refine List.exists_mem_of_ne_nil _ fun hnil ↦ hnonempty ?_
    rw [hlisted, hnil]
    rfl
  obtain ⟨hget, hstate⟩ := hpending i hi
  have hq : i.portable ∈ selection.items := by
    rw [hlisted]
    exact List.mem_map.mpr ⟨i, hi, rfl⟩
  by_cases hbatch : b.state = .closed
  · obtain ⟨s, hs, hlt⟩ | hitems := hclosed hbatch
    -- the generation of the stream has passed the selected one
    · rw [show j.ledger.streams.get selection.expected.id = some selection.expected from hexpected]
        at hs
      injection hs with hs
      subst hs
      exact absurd hlt (lt_irrefl _)
    -- the items of the batch are done
    · obtain ⟨k, hk, hdone⟩ := hitems i.portable hq
      rw [show j.ledger.items.get i.portable.id = some i from hget] at hk
      injection hk with hk
      subst hk
      simp [hstate] at hdone
  · obtain ⟨k, hk, -, howner⟩ := (hopen hbatch).stored i.portable hq
    rw [show j.ledger.items.get i.portable.id = some i from hget] at hk
    injection hk with hk
    subst hk
    have hunowned := (hj.items i.id i hget).unowned
    simp [hstate, howner] at hunowned

/-- A claimable selection has an identity that no batch has, and generations never decrease. -/
theorem batch_identities_fresh (h : Hasch U P) (schedules : Schedules.Db U) (world : World U)
    (events : List (Step U P)) :
    let db := run (Db.step h) (Db.init schedules world) events
    (∀ selection selected ref token, validateSelection h selection = .ok () →
      claimable h db.toJournal selection = .ok selected →
      (∀ b, db.batches.get b.id = some b → b.id ≠ selection.id) ∧
        claimTx h db.toJournal selection ref token =
          .ok [.batch (capture selection ref token),
            .patchStream selection.stream.id (Stream.activate selection.id),
            .patchItems (selected.map (·.id)) (Item.claim selection.id)] ∧
        (db.step h (.claim selection ref token)).batches.get selection.id =
          some (capture selection ref token)) ∧
      ∀ further id s, db.streams.get id = some s →
        ∃ s', (run (Db.step h) db further).streams.get id = some s' ∧
          s.batchGeneration ≤ s'.batchGeneration := by
  intro db
  have hdb : db.ledger.Sound h := run_sound h schedules world events
  refine ⟨fun selection selected ref token hvalid hclaimable ↦ ?_, fun further id s hs ↦ ?_⟩
  · have hfresh : db.batches.get selection.id = none := hdb.fresh hvalid hclaimable
    have htx : claimTx h db.toJournal selection ref token =
        .ok [.batch (capture selection ref token),
          .patchStream selection.stream.id (Stream.activate selection.id),
          .patchItems (selected.map (·.id)) (Item.claim selection.id)] := by
      unfold claimTx
      rw [hvalid, bind_eq_ok]
      refine ⟨(), rfl, ?_⟩
      rw [hfresh, hclaimable]
      rfl
    refine ⟨fun b hb hid ↦ ?_, htx, ?_⟩
    · rw [hid, hfresh] at hb
      cases hb
    · rw [show (db.step h (.claim selection ref token)).batches = _ from
        congrArg Journal.batches (step_eq_apply htx)]
      change (db.batches.put (capture selection ref token)).get selection.id = _
      rw [Table.get_put]
      exact if_pos rfl
  · obtain ⟨s', hs', hadvances⟩ := (run_advances h db further).streams id s hs
    exact ⟨s', hs', hadvances.generation⟩

end Simmis.Knowledge
