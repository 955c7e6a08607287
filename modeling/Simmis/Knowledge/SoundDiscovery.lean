import Simmis.Knowledge.Sound

/-!
# Discovery keeps ownership

A discovery touches only pending items and versions that were superseded or removed, and gives the
queued ones the next orders of the stream.
-/

namespace Simmis.Knowledge

open List Option Table

variable {U P : Type} [DecidableEq U] [LinearOrder P] {h : Hasch U P}

variable {j : Journal U P} {value : Descriptor U} {plan : Plan U P} {root payloadRef did : U}

omit [DecidableEq U] [LinearOrder P] in
theorem triggers_paths_sublist (changes : List (PathChange U P)) :
    List.Sublist ((changes.filterMap fun c ↦ c.trigger.map fun file ↦
      (c.path, file.toVersion)).map Prod.fst) (changes.map (·.path)) := by
  induction changes with
  | nil => exact .slnil
  | cons c changes ih =>
    rw [filterMap_cons, map_cons]
    cases c.trigger with
    | none => exact ih.cons _
    | some file => exact ih.cons_cons _

/-- The paths of the triggers are distinct, as those of the plan. -/
theorem Discovering.nodup_triggers (hdiscovering : Discovering h j value plan root did) :
    (plan.triggers.map Prod.fst).Nodup :=
  (hdiscovering.ordered.imp ne_of_lt).sublist (triggers_paths_sublist plan.changes)

omit [LinearOrder P] in
theorem queueAll_ids (id : U) (start : ℕ) (versions : List (P × Version U)) :
    (queueAll h j id did start versions).map (·.id) = versions.map fun v ↦ itemId h id v.1 v.2 := by
  refine ext_getElem (by simp [queueAll]) fun n hn hn' ↦ ?_
  simp [queueAll, queue]

theorem Discovering.nodup_queue (hdiscovering : Discovering h j value plan root did) (start : ℕ) :
    ((queueAll h j value.id did start (freshVersions h j value.id plan)).map (·.id)).Nodup := by
  rw [queueAll_ids]
  have hfresh : ((freshVersions h j value.id plan).map Prod.fst).Nodup :=
    hdiscovering.nodup_triggers.sublist (filter_sublist.map Prod.fst)
  refine List.Pairwise.map _ (fun a b hne heq ↦ ?_) (pairwise_map.mp hfresh)
  exact hne (h.item_injective heq).2.1

variable {id : U}

theorem mem_displacedIds {i : Item U P} (hi : j.items.get id = some i) (stream : U) :
    i.id ∈ displacedIds h j stream plan ↔ displaces h stream plan i := by
  unfold displacedIds
  rw [mem_map_key_iff (fun q hq ↦ (mem_select.mp hq).1) hi, mem_select, key_of_get hi, hi]
  simp

theorem get_displaced (id stream : U) :
    (j.items.mapRows (among (displacedIds h j stream plan) (displace plan did))).get id =
      (j.items.get id).map fun i ↦
        if displaces h stream plan i then displace plan did i else i := by
  rw [get_mapRows (among_id (displace_id plan did))]
  cases hi : j.items.get id with
  | none => rfl
  | some i => simp [among, mem_displacedIds hi]

theorem get_stream_discovered (id : U) :
    (j.discovered h value plan root payloadRef did).streams.get id =
      if id = value.id then some (moveCursor h value (j.streams.get value.id) plan root did
        (freshVersions h j value.id plan).length) else j.streams.get id :=
  get_put _ _ _

omit [LinearOrder P] in
/-- The item that a queued version replaces, if any, was displaced before. -/
theorem eligible_old {v : P × Version U} (hv : v ∈ freshVersions h j id plan) {i : Item U P}
    (hi : j.items.get (itemId h id v.1 v.2) = some i) :
    i.state = .superseded ∨ i.state = .removed := by
  have heligible := (mem_filter.mp hv).2
  simp only [eligible, decide_eq_true_eq] at heligible
  exact heligible i.state (by simp [stateOf, hi])

/-- Every stream row stays, with a counter that covers its old orders. -/
theorem stream_discovered (h : Hasch U P) (value : Descriptor U) (plan : Plan U P)
    (root payloadRef did : U) {s : Stream U} (hs : j.streams.get id = some s) :
    ∃ s', (j.discovered h value plan root payloadRef did).streams.get id = some s' ∧
      s.nextOrder ≤ s'.nextOrder ∧ s'.batchGeneration = s.batchGeneration ∧
      s'.activeBatch = s.activeBatch := by
  rw [get_stream_discovered]
  split
  · next heq =>
    subst heq
    refine ⟨_, rfl, ?_, ?_, ?_⟩ <;> simp [moveCursor, hs]
  · exact ⟨s, hs, le_refl _, rfl, rfl⟩

/-- Items that are neither pending nor eligible again stay through a discovery. -/
theorem Discovering.untouched (_ : Discovering h j value plan root did) {i : Item U P}
    (hi : j.items.get id = some i) (hpending : i.state ≠ .pending)
    (hsuperseded : i.state ≠ .superseded) (hremoved : i.state ≠ .removed) :
    (j.discovered h value plan root payloadRef did).items.get id = some i := by
  change (putAll _ (queueAll h j value.id did ((j.streams.get value.id).elim 0 (·.nextOrder))
    (freshVersions h j value.id plan))).get id = some i
  rw [get_putAll_of_not_mem, get_displaced, hi, map_some, if_neg]
  · simp [displaces, hpending]
  · intro r hr hid
    obtain ⟨n, hn, rfl⟩ := mem_mapIdx.mp hr
    have hv := getElem_mem hn
    obtain hstate | hstate := eligible_old hv (show j.items.get _ = some i by rw [← hi, ← hid]; rfl)
    · exact hsuperseded hstate
    · exact hremoved hstate

section

variable (hdiscovering : Discovering h j value plan root did)
include hdiscovering

/-- An item after a discovery is queued, displaced or untouched. -/
theorem Discovering.get_item {i' : Item U P}
    (hi' : (j.discovered h value plan root payloadRef did).items.get id = some i') :
    (∃ n v, (freshVersions h j value.id plan)[n]? = some v ∧ id = itemId h value.id v.1 v.2 ∧
        i' = queue h j value.id did
          ((j.streams.get value.id).elim 0 (·.nextOrder) + n) v) ∨ ∃ i, j.items.get id = some i ∧
        i' = (if displaces h value.id plan i then displace plan did i else i) ∧
        ∀ v ∈ freshVersions h j value.id plan, itemId h value.id v.1 v.2 ≠ id := by
  change (putAll _ (queueAll h j value.id did ((j.streams.get value.id).elim 0 (·.nextOrder))
    (freshVersions h j value.id plan))).get id = some i' at hi'
  by_cases hqueued : ∃ r ∈ queueAll h j value.id did
      ((j.streams.get value.id).elim 0 (·.nextOrder)) (freshVersions h j value.id plan), r.id = id
  · obtain ⟨r, hr, rfl⟩ := hqueued
    rw [get_putAll_of_mem (hdiscovering.nodup_queue _) hr] at hi'
    injection hi' with hi'
    subst hi'
    obtain ⟨n, hn, rfl⟩ := mem_mapIdx.mp hr
    exact .inl ⟨n, _, getElem?_eq_getElem hn, rfl, rfl⟩
  · rw [get_putAll_of_not_mem fun r hr hid ↦ hqueued ⟨r, hr, hid⟩, get_displaced,
      map_eq_some_iff] at hi'
    obtain ⟨i, hi, rfl⟩ := hi'
    refine .inr ⟨i, hi, rfl, fun v hv hid ↦ hqueued ?_⟩
    have hmem : id ∈ (queueAll h j value.id did ((j.streams.get value.id).elim 0 (·.nextOrder))
        (freshVersions h j value.id plan)).map (·.id) := by
      rw [queueAll_ids, ← hid]
      exact mem_map.mpr ⟨v, hv, rfl⟩
    obtain ⟨r, hr, hrid⟩ := mem_map.mp hmem
    exact ⟨r, hr, hrid⟩

theorem discovered_item_sound (hj : j.ledger.Sound h) {i' : Item U P}
    (hi' : (j.discovered h value plan root payloadRef did).items.get id = some i') :
    i'.Sound h (j.discovered h value plan root payloadRef did).ledger := by
  obtain ⟨n, v, hn, rfl, rfl⟩ | ⟨i, hi, rfl, -⟩ := hdiscovering.get_item hi'
  · have hv := mem_of_getElem? hn
    have hnone : (queue h j value.id did
        ((j.streams.get value.id).elim 0 (·.nextOrder) + n) v).batch = none := by
      change (j.items.get (itemId h value.id v.1 v.2)).bind (·.batch) = none
      cases hold : j.items.get (itemId h value.id v.1 v.2) with
      | none => rfl
      | some i =>
        have hunowned := (hj.items _ i hold).unowned
        obtain hstate | hstate := eligible_old hv hold <;> simpa [hstate] using hunowned
    refine ⟨rfl, rfl, ⟨moveCursor h value (j.streams.get value.id) plan root did
        (freshVersions h j value.id plan).length, ?_, ?_⟩,
      by rintro ⟨⟩, fun _ _ _ ↦ hnone, fun bid hbid ↦ ?_⟩
    · change (j.discovered h value plan root payloadRef did).streams.get value.id = _
      rw [get_stream_discovered, if_pos rfl]
    · have hlt : n < (freshVersions h j value.id plan).length := by
        by_contra hge
        rw [getElem?_eq_none (not_lt.mp hge)] at hn
        cases hn
      exact Nat.add_lt_add_left hlt _
    · rw [hnone] at hbid
      cases hbid
  · have hsound := hj.items id i hi
    obtain ⟨r, hr, horder⟩ := hsound.home
    obtain ⟨r', hr', hnext, -, hactive⟩ := stream_discovered h value plan root payloadRef did hr
    split
    · next hdisplaces =>
      have hpending : i.state = .pending := by
        simp only [displaces, decide_eq_true_eq] at hdisplaces
        exact hdisplaces.2.1
      have hstate : (displace plan did i).state = .superseded ∨
          (displace plan did i).state = .removed := by
        simp only [displace]
        split
        · exact .inl rfl
        · exact .inr rfl
      refine ⟨hsound.identity, ?_, ⟨r', hr', horder.trans_le hnext⟩, ?_, fun _ _ _ ↦ ?_, ?_⟩
      · obtain hstate | hstate := hstate <;> rw [hstate] <;> rfl
      · obtain hstate | hstate := hstate <;> rw [hstate] <;> rintro ⟨⟩
      · exact hsound.unowned (by simp [hpending]) (by simp [hpending]) (by simp [hpending])
      · intro bid hbid
        have hnone := hsound.unowned
        simp [hpending, show i.batch = some bid from hbid] at hnone
    · refine { hsound with home := ⟨r', hr', horder.trans_le hnext⟩, claimed := ?_ }
      intro hstate
      obtain ⟨q, bid, hq, hrunning, hbid⟩ := hsound.claimed hstate
      rw [hr] at hq
      injection hq with hq
      subst hq
      exact ⟨r', bid, hr', hactive.trans hrunning, hbid⟩

theorem discovered_batch_sound (hj : j.ledger.Sound h) {b : Batch U}
    (hb : j.batches.get id = some b) :
    b.Sound h (j.discovered h value plan root payloadRef did).ledger := by
  obtain ⟨⟨s, hs, hactive⟩, facts, hhash, hnonempty, hopen, hclosed⟩ := hj.batches id b hb
  obtain ⟨s', hs', -, hgeneration, hactive'⟩ :=
    stream_discovered h value plan root payloadRef did hs
  refine ⟨⟨s', hs', by rw [hactive']; exact hactive⟩, facts, hhash, hnonempty, fun hstate ↦ ?_,
    fun hstate ↦ ?_⟩
  · obtain ⟨hstored, hlisted⟩ := hopen hstate
    have hkey := key_of_get hb
    constructor
    · intro q hq
      obtain ⟨i, hi, hportable, hbatch⟩ := hstored q hq
      obtain ⟨c, hc, -, hclaimed⟩ := (hj.items q.id i hi).owned b.id hbatch
      rw [hkey, show j.ledger.batches.get id = some b from hb] at hc
      injection hc with hc
      subst hc
      have hstate := hclaimed hstate
      refine ⟨i, ?_, hportable, hbatch⟩
      change (j.discovered h value plan root payloadRef did).items.get q.id = _
      exact hdiscovering.untouched hi (by simp [hstate]) (by simp [hstate]) (by simp [hstate])
    · intro id' i' hi' hbatch
      replace hi' : (j.discovered h value plan root payloadRef did).items.get id' = some i' := hi'
      have hsound := discovered_item_sound hdiscovering hj hi'
      obtain ⟨n, v, hn, -, rfl⟩ | ⟨i, hi, rfl, -⟩ := hdiscovering.get_item hi'
      · have hunowned := hsound.unowned (by simp [queue]) (by simp [queue]) (by simp [queue])
        rw [hunowned] at hbatch
        cases hbatch
      · split at hbatch
        · next hdisplaces =>
          rw [if_pos hdisplaces]
          exact hlisted id' i hi hbatch
        · next hdisplaces =>
          rw [if_neg hdisplaces]
          exact hlisted id' i hi hbatch
  · obtain ⟨r, hr, hlt⟩ | hitems := hclosed hstate
    · obtain ⟨r', hr', -, hgeneration, -⟩ := stream_discovered h value plan root payloadRef did hr
      exact .inl ⟨r', hr', by rw [hgeneration]; exact hlt⟩
    · refine .inr fun q hq ↦ ?_
      obtain ⟨i, hi, hstate⟩ := hitems q hq
      refine ⟨i, ?_, hstate⟩
      change (j.discovered h value plan root payloadRef did).items.get q.id = _
      obtain hstate | hstate := hstate <;>
        exact hdiscovering.untouched hi (by simp [hstate]) (by simp [hstate]) (by simp [hstate])

theorem discovered_stream_sound (hj : j.ledger.Sound h) {r : Stream U}
    (hr : (j.discovered h value plan root payloadRef did).streams.get id = some r) :
    r.Sound (j.discovered h value plan root payloadRef did).ledger := by
  rw [get_stream_discovered] at hr
  split at hr
  · injection hr with hr
    subst hr
    constructor
    · intro bid hbid
      cases hs : j.streams.get value.id with
      | none => simp [moveCursor, hs] at hbid
      | some s =>
        have hnone := (hdiscovering.ready s hs).2.1
        simp [moveCursor, hs, hnone] at hbid
    · exact fun hstate ↦ absurd rfl hstate
  · next hne =>
    have hkey := key_of_get hr
    obtain ⟨hrunning, hclean⟩ := hj.streams id r hr
    refine ⟨hrunning, fun hstate ↦ ⟨(hclean hstate).1, fun id' i' hi' hstream ↦ ?_⟩⟩
    replace hi' : (j.discovered h value plan root payloadRef did).items.get id' = some i' := hi'
    obtain ⟨n, v, hn, -, rfl⟩ | ⟨i, hi, rfl, -⟩ := hdiscovering.get_item hi'
    · exact absurd (hkey.symm.trans hstream.symm) hne
    · split at hstream
      · next hdisplaces =>
        simp only [displaces, decide_eq_true_eq] at hdisplaces
        have hhome : i.stream = r.id := hstream
        rw [hdisplaces.1] at hhome
        exact absurd (hkey.symm.trans hhome.symm) hne
      · next hdisplaces =>
        rw [if_neg hdisplaces]
        exact (hclean hstate).2 id' i hi hstream

end

variable (payloadRef) in
/-- The orders of a stream stay distinct: queued versions take the next ones. -/
theorem discovered_orders (hdiscovering : Discovering h j value plan root did)
    (hj : j.ledger.Sound h) {id' : U} {a b : Item U P}
    (ha : (j.discovered h value plan root payloadRef did).items.get id = some a)
    (hb : (j.discovered h value plan root payloadRef did).items.get id' = some b)
    (hstream : a.stream = b.stream) (horder : a.order = b.order) : id = id' := by
  have hold (i : Item U P) : (if displaces h value.id plan i then displace plan did i else i).stream =
      i.stream ∧ (if displaces h value.id plan i then displace plan did i else i).order = i.order := by
    split <;> exact ⟨rfl, rfl⟩
  have hbelow {k : U} {i : Item U P} (hi : j.items.get k = some i) (hhome : i.stream = value.id) :
      i.order < (j.streams.get value.id).elim 0 (·.nextOrder) := by
    obtain ⟨s, hs, hlt⟩ := (hj.items k i hi).home
    rw [hhome] at hs
    rw [show j.streams.get value.id = some s from hs]
    exact hlt
  obtain ⟨n, v, hn, rfl, rfl⟩ | ⟨i, hi, rfl, -⟩ := hdiscovering.get_item ha <;>
    obtain ⟨m, w, hm, rfl, rfl⟩ | ⟨k, hk, rfl, -⟩ := hdiscovering.get_item hb
  · have hnm : n = m := Nat.add_left_cancel horder
    subst hnm
    rw [hn] at hm
    injection hm with hvw
    rw [hvw]
  · rw [(hold k).1] at hstream
    rw [(hold k).2] at horder
    have hlt := hbelow hk hstream.symm
    rw [← horder] at hlt
    exact absurd hlt (not_lt.mpr (Nat.le_add_right _ _))
  · rw [(hold i).1] at hstream
    rw [(hold i).2] at horder
    have hlt := hbelow hi hstream
    rw [horder] at hlt
    exact absurd hlt (not_lt.mpr (Nat.le_add_right _ _))
  · rw [(hold i).1, (hold k).1] at hstream
    rw [(hold i).2, (hold k).2] at horder
    exact hj.orders id i id' k hi hk hstream horder

variable (payloadRef) in
theorem discovered_sound (hdiscovering : Discovering h j value plan root did)
    (hj : j.ledger.Sound h) : (j.discovered h value plan root payloadRef did).ledger.Sound h where
  items _ _ hi := discovered_item_sound hdiscovering hj hi
  streams _ _ hs := discovered_stream_sound hdiscovering hj hs
  batches _ _ hb := discovered_batch_sound hdiscovering hj hb
  orders _ _ _ _ ha hb := discovered_orders payloadRef hdiscovering hj ha hb

end Simmis.Knowledge
