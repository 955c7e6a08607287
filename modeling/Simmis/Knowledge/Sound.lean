import Simmis.Knowledge.Replay

/-!
# Ownership of the evidence

In every reachable state the open batch of a stream is the one that the stream names, its items are
the claimed ones, and the derived key of the pending index agrees with the state of an item.
-/

namespace Simmis.Knowledge

open List Option Table

variable {U P : Type} [DecidableEq U] [LinearOrder P] {h : Hasch U P}

/-- The rows that share the evidence of a stream. -/
structure Ledger (U P : Type) [DecidableEq U] where
  streams : Table (fun s : Stream U ↦ s.id)
  items : Table (Item.id (U := U) (P := P))
  batches : Table (Batch.id (U := U))

def Journal.ledger (j : Journal U P) : Ledger U P := ⟨j.streams, j.items, j.batches⟩

structure Item.Sound (h : Hasch U P) (l : Ledger U P) (i : Item U P) : Prop where
  identity : i.id = itemId h i.stream i.path i.version
  index : i.pendingStream = if i.state = .pending then some i.stream else none
  home : ∃ s, l.streams.get i.stream = some s ∧ i.order < s.nextOrder
  claimed : i.state = .claimed →
    ∃ s b, l.streams.get i.stream = some s ∧ s.activeBatch = some b ∧ i.batch = some b
  unowned : i.state ≠ .claimed → i.state ≠ .processed → i.state ≠ .skipped → i.batch = none
  owned : ∀ id, i.batch = some id → ∃ b, l.batches.get id = some b ∧ b.stream = i.stream ∧
    (b.state ≠ .closed → i.state = .claimed)

/-- The items of an open batch are the selected ones. -/
structure SelectionFacts.Owned (l : Ledger U P) (batch : U) (facts : SelectionFacts U P) :
    Prop where
  stored : ∀ q ∈ facts.items, ∃ i, l.items.get q.id = some i ∧ i.portable = q ∧ i.batch = some batch
  listed : ∀ id i, l.items.get id = some i → i.batch = some batch → i.portable ∈ facts.items

/-- A selection that no stream row and no pending prefix will show again. -/
def SelectionFacts.Spent (l : Ledger U P) (facts : SelectionFacts U P) : Prop :=
  (∃ s, l.streams.get facts.expected.id = some s ∧
      facts.expected.batchGeneration < s.batchGeneration) ∨
    ∀ q ∈ facts.items, ∃ i, l.items.get q.id = some i ∧ (i.state = .processed ∨ i.state = .skipped)

structure Batch.Sound (h : Hasch U P) (l : Ledger U P) (b : Batch U) : Prop where
  home : ∃ s, l.streams.get b.stream = some s ∧ (b.state ≠ .closed ↔ s.activeBatch = some b.id)
  selection : ∃ facts, h.selection facts = b.id ∧ facts.items ≠ [] ∧
    (b.state ≠ .closed → facts.Owned l b.id) ∧ (b.state = .closed → facts.Spent l)

structure Stream.Sound (l : Ledger U P) (s : Stream U) : Prop where
  running : ∀ id, s.activeBatch = some id →
    ∃ b, l.batches.get id = some b ∧ b.stream = s.id ∧ b.state ≠ .closed
  clean : s.state ≠ .active → s.activeBatch = none ∧
    ∀ id i, l.items.get id = some i → i.stream = s.id → i.state ≠ .pending ∧ i.state ≠ .claimed

structure Ledger.Sound (h : Hasch U P) (l : Ledger U P) : Prop where
  items : ∀ id i, l.items.get id = some i → i.Sound h l
  streams : ∀ id s, l.streams.get id = some s → s.Sound l
  batches : ∀ id b, l.batches.get id = some b → b.Sound h l
  orders : ∀ id i id' i', l.items.get id = some i → l.items.get id' = some i' →
    i.stream = i'.stream → i.order = i'.order → id = id'

omit [LinearOrder P] in
theorem Ledger.sound_init : (Journal.init : Journal U P).ledger.Sound h where
  items := fun _ _ hi ↦ nomatch hi
  streams := fun _ _ hs ↦ nomatch hs
  batches := fun _ _ hb ↦ nomatch hb
  orders := fun _ _ _ _ hi ↦ nomatch hi

omit [LinearOrder P] in
theorem among_id {ids : List U} {fields : Item U P → Item U P} (hid : ∀ i, (fields i).id = i.id)
    (i : Item U P) : (among ids fields i).id = i.id := by
  unfold among
  split
  · exact hid i
  · rfl

omit [DecidableEq U] [LinearOrder P] in
theorem Item.claim_id (batch : U) (i : Item U P) : (i.claim batch).id = i.id := rfl
omit [DecidableEq U] in
theorem Stream.activate_id (batch : U) (s : Stream U) : (s.activate batch).id = s.id := rfl

omit [DecidableEq U] [LinearOrder P] in
theorem Outcome.settle_id (stream : U) (outcome : Outcome) (i : Item U P) :
    (outcome.settle stream i).id = i.id := by
  cases outcome <;> rfl

omit [DecidableEq U] in
theorem displace_id (plan : Plan U P) (did : U) (i : Item U P) : (displace plan did i).id = i.id :=
  rfl

/-- The stream and one batch change, and only items that leave or enter that batch. -/
structure Ledger.Moves (h : Hasch U P) (l l' : Ledger U P) (s s' : Stream U) (b' : Batch U)
    (f : Item U P → Item U P) : Prop where
  item : ∀ id, l'.items.get id = (l.items.get id).map f
  stream : ∀ id, l'.streams.get id = if id = s.id then some s' else l.streams.get id
  batch : ∀ id, l'.batches.get id = if id = b'.id then some b' else l.batches.get id
  here : l.streams.get s.id = some s
  order : s'.nextOrder = s.nextOrder
  generation : s.batchGeneration ≤ s'.batchGeneration
  elsewhere : ∀ id ≠ b'.id, s.activeBatch ≠ some id ∧ s'.activeBatch ≠ some id
  old : ∀ b, l.batches.get b'.id = some b → b.stream = s.id
  keeps : ∀ i, (f i).stream = i.stream ∧ (f i).order = i.order
  moved : ∀ id i, l.items.get id = some i →
    f i = i ∧ (i.state = .claimed → i.stream ≠ s.id) ∧ i.batch ≠ some b'.id ∨
    i.stream = s.id ∧ (i.state ≠ .processed ∧ i.state ≠ .skipped) ∧
      (∀ id ≠ b'.id, i.batch ≠ some id ∧ (f i).batch ≠ some id) ∧ (f i).Sound h l'

section Moves

omit [LinearOrder P]

variable {l l' : Ledger U P} {s s' : Stream U} {b' : Batch U} {f : Item U P → Item U P}
  (hmoves : l.Moves h l' s s' b' f)
include hmoves

theorem Ledger.Moves.home {id : U} {r : Stream U} (hr : l.streams.get id = some r) :
    ∃ r', l'.streams.get id = some r' ∧ r'.nextOrder = r.nextOrder ∧
      r.batchGeneration ≤ r'.batchGeneration ∧ (id ≠ s.id → r' = r) := by
  rw [hmoves.stream]
  split
  · next heq =>
    rw [heq, hmoves.here] at hr
    injection hr with hr
    subst hr
    exact ⟨s', rfl, hmoves.order, hmoves.generation, fun hne ↦ absurd heq hne⟩
  · exact ⟨r, hr, rfl, le_refl _, fun _ ↦ rfl⟩

theorem Ledger.Moves.other {id : U} (hne : id ≠ b'.id) : l'.batches.get id = l.batches.get id := by
  rw [hmoves.batch, if_neg hne]

theorem Ledger.Moves.item_sound (hl : l.Sound h) {id : U} {i : Item U P}
    (hi : l.items.get id = some i) : (f i).Sound h l' := by
  obtain ⟨hsame, hclaimed, hbatch⟩ | ⟨-, -, -, hsound⟩ := hmoves.moved id i hi
  · rw [hsame]
    have hsound := hl.items id i hi
    obtain ⟨r, hr, horder⟩ := hsound.home
    obtain ⟨r', hr', hnext, -, hother⟩ := hmoves.home hr
    refine { hsound with
      home := ⟨r', hr', by rwa [hnext]⟩
      claimed := fun hstate ↦ ?_
      owned := fun bid hbid ↦ ?_ }
    · have := hsound.claimed hstate
      rwa [hmoves.stream, if_neg (hclaimed hstate)]
    · rw [hmoves.other (by rintro rfl; exact hbatch hbid)]
      exact hsound.owned bid hbid
  · exact hsound

/-- A spent selection stays spent. -/
theorem Ledger.Moves.spent {facts : SelectionFacts U P} (hspent : facts.Spent l) :
    facts.Spent l' := by
  obtain ⟨r, hr, hgeneration⟩ | hitems := hspent
  · obtain ⟨r', hr', -, hle, -⟩ := hmoves.home hr
    exact .inl ⟨r', hr', hgeneration.trans_le hle⟩
  · refine .inr fun q hq ↦ ?_
    obtain ⟨i, hi, hstate⟩ := hitems q hq
    obtain ⟨hsame, -⟩ | ⟨-, ⟨hprocessed, hskipped⟩, -⟩ := hmoves.moved q.id i hi
    · exact ⟨i, by rw [hmoves.item, hi, map_some, hsame], hstate⟩
    · exact absurd hstate (not_or.mpr ⟨hprocessed, hskipped⟩)

theorem Ledger.Moves.batch_sound (hl : l.Sound h) {id : U} {b : Batch U}
    (hb : l.batches.get id = some b) (hne : id ≠ b'.id) : b.Sound h l' := by
  have hkey : b.id = id := key_of_get hb
  obtain ⟨⟨r, hr, hactive⟩, facts, hhash, hnonempty, hopen, hclosed⟩ := hl.batches id b hb
  refine ⟨?_, facts, hhash, hnonempty, fun hstate ↦ ?_, fun hstate ↦
    hmoves.spent (hclosed hstate)⟩
  · rw [hmoves.stream]
    split
    · next heq =>
      rw [heq, hmoves.here] at hr
      injection hr with hr
      subst hr
      obtain ⟨hold, hnew⟩ := hmoves.elsewhere id hne
      rw [hkey] at hactive ⊢
      exact ⟨s', rfl, hactive.trans (iff_of_false hold hnew)⟩
    · exact ⟨r, hr, hactive⟩
  · obtain ⟨hstored, hlisted⟩ := hopen hstate
    have hsame {k : U} {i : Item U P} (hi : l.items.get k = some i)
        (hbatch : i.batch = some b.id ∨ (f i).batch = some b.id) : f i = i := by
      obtain ⟨hsame, -⟩ | ⟨-, -, hother, -⟩ := hmoves.moved k i hi
      · exact hsame
      · exact absurd hbatch (not_or.mpr (hother b.id (hkey ▸ hne)))
    constructor
    · intro q hq
      obtain ⟨i, hi, hportable, hbatch⟩ := hstored q hq
      exact ⟨i, by rw [hmoves.item, hi, map_some, hsame hi (.inl hbatch)], hportable, hbatch⟩
    · intro id' i' hi' hbatch
      rw [hmoves.item, map_eq_some_iff] at hi'
      obtain ⟨i, hi, rfl⟩ := hi'
      have heq := hsame hi (.inr hbatch)
      rw [heq] at hbatch ⊢
      exact hlisted id' i hi hbatch

theorem Ledger.Moves.stream_sound (hl : l.Sound h) {id : U} {r : Stream U}
    (hr : l.streams.get id = some r) (hne : id ≠ s.id) : r.Sound l' := by
  have hkey := key_of_get hr
  obtain ⟨hrunning, hclean⟩ := hl.streams id r hr
  constructor
  · intro bid hbid
    obtain ⟨b, hb, hstream, hstate⟩ := hrunning bid hbid
    refine ⟨b, ?_, hstream, hstate⟩
    rw [hmoves.other]
    · exact hb
    · rintro rfl
      exact hne (hkey.symm.trans (hstream.symm.trans (hmoves.old b hb)))
  · intro hstate
    refine ⟨(hclean hstate).1, fun id' i' hi' hstream ↦ ?_⟩
    rw [hmoves.item, map_eq_some_iff] at hi'
    obtain ⟨i, hi, rfl⟩ := hi'
    rw [(hmoves.keeps i).1] at hstream
    obtain ⟨hsame, -⟩ | ⟨hhome, -⟩ := hmoves.moved id' i hi
    · rw [hsame]
      exact (hclean hstate).2 id' i hi hstream
    · exact absurd (hkey.symm.trans (hstream.symm.trans hhome)) hne

theorem Ledger.Moves.sound (hl : l.Sound h) (hs : s'.Sound l') (hb : b'.Sound h l') :
    l'.Sound h where
  items := by
    intro id i' hi'
    rw [hmoves.item, map_eq_some_iff] at hi'
    obtain ⟨i, hi, rfl⟩ := hi'
    exact hmoves.item_sound hl hi
  streams := by
    intro id r hr
    rw [hmoves.stream] at hr
    split at hr
    · exact some.inj hr ▸ hs
    · next hne => exact hmoves.stream_sound hl hr hne
  batches := by
    intro id b hr
    rw [hmoves.batch] at hr
    split at hr
    · exact some.inj hr ▸ hb
    · next hne => exact hmoves.batch_sound hl hr hne
  orders := by
    intro id a' id' c' ha' hc' hstream horder
    rw [hmoves.item, map_eq_some_iff] at ha' hc'
    obtain ⟨a, ha, rfl⟩ := ha'
    obtain ⟨c, hc, rfl⟩ := hc'
    rw [(hmoves.keeps a).1, (hmoves.keeps c).1] at hstream
    rw [(hmoves.keeps a).2, (hmoves.keeps c).2] at horder
    exact hl.orders id a id' c ha hc hstream horder

end Moves

section Claim

variable {j : Journal U P} {selection : Selection U P} {ref token : U} {s : Stream U}
  {selected : List (Item U P)}

/-- An item after a claim. -/
theorem Claiming.get_item (hclaiming : Claiming h j selection s selected) (id : U) :
    (j.claimed selection ref token selected).items.get id =
      (j.items.get id).map fun i ↦ if i ∈ selected then i.claim selection.id else i := by
  change (j.items.mapRows _).get id = _
  rw [get_mapRows (among_id (Item.claim_id selection.id))]
  cases hi : j.items.get id with
  | none => rfl
  | some i =>
    have hmem : i.id ∈ selected.map (·.id) ↔ i ∈ selected :=
      mem_map_key_iff (fun q hq ↦ (hclaiming.pending q hq).1) hi
    simp [among, hmem]

section

omit [LinearOrder P]

theorem Claiming.get_stream (hclaiming : Claiming h j selection s selected) (id : U) :
    (j.claimed selection ref token selected).streams.get id =
      if id = s.id then some (s.activate selection.id) else j.streams.get id := by
  change (j.streams.modify selection.stream.id (Stream.activate selection.id)).get id = _
  rw [hclaiming.home, get_modify (Stream.activate_id selection.id), hclaiming.stream]
  rfl

theorem get_batch_claimed (id : U) : (j.claimed selection ref token selected).batches.get id =
      if id = selection.id then some (capture selection ref token) else j.batches.get id :=
  get_put _ _ _

/-- No item belongs to a batch that does not exist yet. -/
theorem Claiming.unowned (hclaiming : Claiming h j selection s selected) (hj : j.ledger.Sound h)
    {id : U} {i : Item U P} (hi : j.items.get id = some i) : i.batch ≠ some selection.id := by
  intro hbatch
  obtain ⟨b, hb, -⟩ := (hj.items id i hi).owned selection.id hbatch
  have hfresh := hclaiming.fresh
  rw [show j.batches.get selection.id = some b from hb] at hfresh
  cases hfresh

end

section

variable (hclaiming : Claiming h j selection s selected) (hj : j.ledger.Sound h)
include hclaiming hj

variable (ref token) in
theorem claimed_moves :
    j.ledger.Moves h (j.claimed selection ref token selected).ledger s (s.activate selection.id)
      (capture selection ref token) fun i ↦ if i ∈ selected then i.claim selection.id else i where
  item := @Claiming.get_item U P _ _ h j selection ref token s selected hclaiming
  stream := @Claiming.get_stream U P _ h j selection ref token s selected hclaiming
  batch := get_put j.batches (capture selection ref token)
  here := hclaiming.stream
  order := rfl
  generation := le_refl _
  elsewhere id hne := ⟨by simp [hclaiming.free], fun heq ↦ hne (some.inj heq).symm⟩
  old b hb := by
    cases (show j.ledger.batches.get selection.id = none from hclaiming.fresh).symm.trans hb
  keeps i := by split <;> exact ⟨rfl, rfl⟩
  moved id i hi := by
    have hsound := hj.items id i hi
    by_cases hmem : i ∈ selected
    · obtain ⟨-, hstream, hstate⟩ := hclaiming.pending i hmem
      have hnone := hsound.unowned (by simp [hstate]) (by simp [hstate]) (by simp [hstate])
      obtain ⟨r, hr, horder⟩ := hsound.home
      rw [hstream, show j.ledger.streams.get s.id = some s from hclaiming.stream] at hr
      injection hr with hr
      subst hr
      have hhome : (j.claimed selection ref token selected).ledger.streams.get i.stream =
          some (s.activate selection.id) := by
        change (j.claimed selection ref token selected).streams.get i.stream = _
        rw [hclaiming.get_stream, if_pos hstream]
      rw [if_pos hmem]
      refine .inr ⟨hstream, by simp [hstate], fun bid hne ↦ ⟨by simp [hnone], fun heq ↦
        hne (some.inj heq).symm⟩, hsound.identity, rfl, ⟨_, hhome, horder⟩,
        fun _ ↦ ⟨_, _, hhome, rfl, rfl⟩, fun hne ↦ absurd rfl hne, fun bid hbid ↦ ?_⟩
      obtain rfl : selection.id = bid := some.inj hbid
      have hnew : (j.claimed selection ref token selected).ledger.batches.get selection.id =
          some (capture selection ref token) := (get_put _ _ _).trans (if_pos rfl)
      exact ⟨_, hnew, hclaiming.home.trans hstream.symm, fun _ ↦ rfl⟩
    · refine .inl ⟨if_neg hmem, fun hstate hstream ↦ ?_, hclaiming.unowned hj hi⟩
      obtain ⟨r, bid, hr, hactive, -⟩ := hsound.claimed hstate
      rw [hstream, show j.ledger.streams.get s.id = some s from hclaiming.stream] at hr
      injection hr with hr
      subst hr
      rw [hclaiming.free] at hactive
      cases hactive

theorem captured_sound :
    (capture selection ref token).Sound h (j.claimed selection ref token selected).ledger := by
  have hmoves := claimed_moves ref token hclaiming hj
  refine ⟨⟨s.activate selection.id, (hmoves.stream _).trans (if_pos hclaiming.home),
      iff_of_true (by simp [capture]) rfl⟩,
    selection.toSelectionFacts, hclaiming.identity.symm, hclaiming.nonempty, fun _ ↦ ⟨?_, ?_⟩,
    fun hclosed ↦ nomatch hclosed⟩
  · intro q hq
    rw [hclaiming.listed, List.mem_map] at hq
    obtain ⟨i, hi, rfl⟩ := hq
    refine ⟨i.claim selection.id, ?_, rfl, rfl⟩
    rw [hmoves.item, show i.portable.id = i.id from rfl,
      show j.ledger.items.get i.id = some i from (hclaiming.pending i hi).1, map_some, if_pos hi]
  · intro id' i' hi' hbatch
    rw [hmoves.item, map_eq_some_iff] at hi'
    obtain ⟨i, hi, rfl⟩ := hi'
    split at hbatch
    · next hmem =>
      rw [if_pos hmem, hclaiming.listed]
      exact mem_map.mpr ⟨i, hmem, rfl⟩
    · exact absurd hbatch (hclaiming.unowned hj hi)

theorem claimed_sound : (j.claimed selection ref token selected).ledger.Sound h := by
  have hmoves := claimed_moves ref token hclaiming hj
  refine hmoves.sound hj ⟨fun bid hbid ↦ ?_, fun hstate ↦ absurd hclaiming.admitted hstate⟩
    (captured_sound hclaiming hj)
  obtain rfl : selection.id = bid := some.inj hbid
  exact ⟨_, (hmoves.batch _).trans (if_pos rfl), hclaiming.home, by simp [capture]⟩

end

end Claim

end Simmis.Knowledge
