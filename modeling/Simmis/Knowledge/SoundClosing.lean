import Simmis.Knowledge.Sound

/-!
# Closing keeps ownership

A closing step moves all items of the batch, frees the stream and spends the selection.
-/

namespace Simmis.Knowledge

open Option Table Outcome

variable {U P : Type} [DecidableEq U] [LinearOrder P] {h : Hasch U P}

variable {j : Journal U P} {b : Batch U} {fields : Batch U → Batch U} {s : Stream U}
  {selection : SelectionFacts U P} {items : List (Item U P)} {outcome : Outcome}
  {generation : Option ℕ}

section

omit [LinearOrder P]

section

variable (hclosing : Closing h j b fields s selection items outcome generation)
include hclosing

/-- An item after its batch was closed. -/
theorem Closing.get_item (id : U) : (j.closed b fields s items outcome generation).items.get id =
      (j.items.get id).map fun i ↦ if i.batch = some b.id then outcome.settle s.id i else i := by
  change (j.items.mapRows _).get id = _
  rw [get_mapRows (among_id (settle_id s.id outcome))]
  cases hi : j.items.get id with
  | none => rfl
  | some i =>
    have hmem : i.id ∈ items.map (·.id) ↔ i.batch = some b.id :=
      (mem_map_key_iff hclosing.stored hi).trans (hclosing.members id i hi)
    simp [among, hmem]

theorem Closing.get_stream (id : U) :
    (j.closed b fields s items outcome generation).streams.get id =
      if id = s.id then some (Stream.close generation s) else j.streams.get id := by
  change (j.streams.modify s.id (Stream.close generation)).get id = _
  rw [get_modify (Stream.close_id generation), hclosing.stream]
  rfl

theorem Closing.get_batch (id : U) : (j.closed b fields s items outcome generation).batches.get id =
      if id = b.id then some (fields b) else j.batches.get id := by
  change (j.batches.modify b.id fields).get id = _
  rw [get_modify hclosing.id, hclosing.batch]
  rfl

/-- The items of the batch are claimed items of the stream. -/
theorem Closing.owned {id : U} {i : Item U P} (hi : j.items.get id = some i)
    (hbatch : i.batch = some b.id) : i.state = .claimed ∧ i.stream = s.id := by
  have hmem : i ∈ items := (hclosing.members id i hi).mpr hbatch
  exact ⟨hclosing.claimed i hmem, hclosing.streamed i hmem⟩

/-- A claimed item of the stream belongs to the batch. -/
theorem Closing.claimed_batch (hj : j.ledger.Sound h) {id : U} {i : Item U P} (hi : j.items.get id = some i)
    (hstate : i.state = .claimed) (hstream : i.stream = s.id) : i.batch = some b.id := by
  obtain ⟨r, bid, hr, hactive, hbatch⟩ := (hj.items id i hi).claimed hstate
  rw [hstream, show j.ledger.streams.get s.id = some s from hclosing.stream] at hr
  injection hr with hr
  subst hr
  rw [hclosing.running] at hactive
  rw [hbatch, ← hactive]

end

section

omit [DecidableEq U]

section

variable (generation : Option ℕ) (s : Stream U)

theorem Stream.close_activeBatch : (Stream.close generation s).activeBatch = none := by
  cases generation <;> rfl

theorem Stream.close_nextOrder : (Stream.close generation s).nextOrder = s.nextOrder := by
  cases generation <;> rfl

theorem Stream.close_state : (Stream.close generation s).state = s.state := by
  cases generation <;> rfl

end

end

theorem Outcome.settle_sound {l : Ledger U P} {i : Item U P} {stream : U}
    (hidentity : i.id = itemId h i.stream i.path i.version) (hindex : i.pendingStream = none)
    (hstream : i.stream = stream) (hhome : ∃ s, l.streams.get i.stream = some s ∧
      i.order < s.nextOrder)
    (howned : ∀ id, i.batch = some id → ∃ b, l.batches.get id = some b ∧ b.stream = i.stream ∧
      b.state = .closed) : (outcome.settle stream i).Sound h l := by
  have hsettle (state : ItemState) (hstate : state = .processed ∨ state = .skipped) :
      (i.settle state).Sound h l := by
    refine ⟨hidentity, ?_, hhome, ?_, ?_, ?_⟩
    · rw [if_neg]
      · exact hindex
      · intro hpending
        have : state = .pending := hpending
        obtain rfl | rfl := hstate <;> cases this
    · intro hclaimed
      have : state = .claimed := hclaimed
      obtain rfl | rfl := hstate <;> cases this
    · intro _ hprocessed hskipped
      exact absurd hstate (not_or.mpr ⟨hprocessed, hskipped⟩)
    · intro id hid
      obtain ⟨b, hb, hbstream, hclosed⟩ := howned id hid
      exact ⟨b, hb, hbstream, fun hopen ↦ absurd hclosed hopen⟩
  have hrequeue : (i.requeue stream).Sound h l := by
    refine ⟨hidentity, ?_, hhome, fun hclaimed ↦ (nomatch hclaimed), fun _ _ _ ↦ rfl,
      fun _ hid ↦ (nomatch hid)⟩
    rw [if_pos (by rfl)]
    exact congrArg some hstream.symm
  cases outcome with
  | noOp | accepted => exact hsettle .processed (.inl rfl)
  | dismissed | abandonedSkip => exact hsettle .skipped (.inr rfl)
  | abandonedRequeue | failedRequeued => exact hrequeue

omit [DecidableEq U] [LinearOrder P] in
theorem Outcome.settle_done {outcome : Outcome} (houtcome : ¬ outcome.requeues) (stream : U)
    (i : Item U P) :
    (outcome.settle stream i).state = .processed ∨ (outcome.settle stream i).state = .skipped := by
  cases outcome with
  | noOp => exact .inl rfl
  | accepted => exact .inl rfl
  | dismissed => exact .inr rfl
  | abandonedSkip => exact .inr rfl
  | abandonedRequeue => exact absurd rfl houtcome
  | failedRequeued => exact absurd rfl houtcome

section

variable (hclosing : Closing h j b fields s selection items outcome generation)
include hclosing

/-- The selection of a closed batch is spent: by its generation, or its items. -/
theorem Closing.spends : selection.Spent (j.closed b fields s items outcome generation).ledger := by
  have hgenerates := hclosing.generates
  unfold Outcome.Generates at hgenerates
  split at hgenerates
  · obtain ⟨hunchanged, hgeneration⟩ := hgenerates
    have hid : selection.expected.id = s.id := by
      rw [← hunchanged]
      rfl
    refine .inl ⟨Stream.close generation s, ?_, ?_⟩
    · change (j.closed b fields s items outcome generation).streams.get selection.expected.id = _
      rw [hclosing.get_stream, if_pos hid]
    · rw [hgeneration]
      exact Nat.lt_succ_self _
  · next hrequeues =>
    refine .inr fun q hq ↦ ?_
    rw [hclosing.listed, List.mem_map] at hq
    obtain ⟨i, hi, rfl⟩ := hq
    have hget := hclosing.stored i hi
    have hbatch : i.batch = some b.id := (hclosing.members i.id i hget).mp hi
    refine ⟨outcome.settle s.id i, ?_, settle_done hrequeues s.id i⟩
    change (j.closed b fields s items outcome generation).items.get i.id = _
    rw [hclosing.get_item, hget, map_some, if_pos hbatch]

theorem closed_moves (hj : j.ledger.Sound h) :
    j.ledger.Moves h (j.closed b fields s items outcome generation).ledger s
      (Stream.close generation s) (fields b)
      fun i ↦ if i.batch = some b.id then outcome.settle s.id i else i where
  item := hclosing.get_item
  stream := hclosing.get_stream
  batch id := by
    rw [hclosing.id]
    exact hclosing.get_batch id
  here := hclosing.stream
  order := Stream.close_nextOrder generation s
  generation := hclosing.advances_stream.generation
  elsewhere id hne := by
    rw [hclosing.id] at hne
    rw [hclosing.running, Stream.close_activeBatch]
    exact ⟨fun heq ↦ hne (some.inj heq).symm, nofun⟩
  old r hr := by
    rw [hclosing.id, show j.ledger.batches.get b.id = some b from hclosing.batch] at hr
    exact some.inj hr ▸ hclosing.home
  keeps i := by
    split
    · cases outcome <;> exact ⟨rfl, rfl⟩
    · exact ⟨rfl, rfl⟩
  moved id i hi := by
    have hsound := hj.items id i hi
    rw [hclosing.id]
    by_cases hbatch : i.batch = some b.id
    · obtain ⟨hclaimed, hstream⟩ := hclosing.owned hi hbatch
      obtain ⟨r, hr, horder⟩ := hsound.home
      rw [hstream, show j.ledger.streams.get s.id = some s from hclosing.stream] at hr
      injection hr with hr
      subst hr
      rw [if_pos hbatch]
      refine .inr ⟨hstream, by simp [hclaimed], fun bid hne ↦ ⟨?_, ?_⟩,
        settle_sound hsound.identity (by rw [hsound.index, hclaimed]; rfl) hstream
          ⟨Stream.close generation s, ?_, by rwa [Stream.close_nextOrder]⟩ fun bid hbid ↦
          ⟨fields b, ?_, ?_, hclosing.after⟩⟩
      · rw [hbatch]
        exact fun heq ↦ hne (some.inj heq).symm
      · -- a settled item belongs to the closed batch, or to none
        cases outcome <;> simp [settle, Item.settle, Item.requeue, hbatch, hne.symm]
      · change (j.closed b fields s items outcome generation).streams.get i.stream = _
        rw [hclosing.get_stream, if_pos hstream]
      · rw [hbatch] at hbid
        change (j.closed b fields s items outcome generation).batches.get bid = _
        rw [hclosing.get_batch, if_pos (some.inj hbid).symm]
      · rw [hclosing.keeps.stream, hclosing.home, hstream]
    · exact .inl ⟨if_neg hbatch, fun hstate hstream ↦
        hbatch (hclosing.claimed_batch hj hi hstate hstream), hbatch⟩

theorem closed_sound (hj : j.ledger.Sound h) :
    (j.closed b fields s items outcome generation).ledger.Sound h := by
  have hmoves := closed_moves hclosing hj
  refine hmoves.sound hj ⟨fun bid hbid ↦ ?_, fun hstate ↦ ?_⟩ ?_
  · rw [Stream.close_activeBatch] at hbid
    cases hbid
  · rw [Stream.close_state] at hstate
    have hnone := ((hj.streams s.id s hclosing.stream).clean hstate).1
    rw [hclosing.running] at hnone
    cases hnone
  · obtain ⟨-, facts, hhash, hnonempty, -⟩ := hj.batches b.id b hclosing.batch
    have hfacts : facts = selection := h.selection_injective (hhash.trans hclosing.identity.symm)
    subst hfacts
    have hstream : (fields b).stream = s.id := hclosing.keeps.stream.trans hclosing.home
    refine ⟨⟨Stream.close generation s, (hmoves.stream _).trans (if_pos hstream), ?_⟩, facts, ?_,
      hnonempty, fun hopen ↦ absurd hclosing.after hopen, fun _ ↦ hclosing.spends⟩
    · rw [hclosing.after, Stream.close_activeBatch]
      simp
    · rw [hclosing.id]
      exact hhash

end

end

end Simmis.Knowledge
