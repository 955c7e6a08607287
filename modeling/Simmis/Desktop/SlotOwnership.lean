import Simmis.Desktop.ResourceSlot
import Mathlib.Data.List.Nodup

/-!
# Ownership in the native resource slot

The invariant has two parts. Every result channel has one value, or none yet while a drain or the
desired request still waits for it. And the one worker of the slot, wherever it is, leaves the
slot's resource the only live one.
-/

namespace Simmis.Desktop.ResourceSlot

open List Option World

/-! ## Channels -/

section

variable {G V E : Type} {w : World G V E}

def World.keys (w : World G V E) : List ℕ := w.puts.map Prod.fst

/-- Every channel has one value, or none and is a drain or that of the desired request. -/
structure World.Settles (w : World G V E) (drains : List ℕ) (desired : Option (Op G)) : Prop where
  made : ∀ ch ∈ w.keys, ch < w.chans.length
  once : w.keys.Nodup
  drainsOnce : drains.Nodup
  open_drains : ∀ ch ∈ drains, ch ∉ w.keys
  purposes : ∀ ch ∈ drains, w.chans[ch]? = some .retire ∨ w.chans[ch]? = some .retry
  settled : ∀ ch ∈ w.settled, ch ∈ w.keys
  settled_of_put : ∀ ch ∈ w.keys, w.chans[ch]? = some .op → ch ∈ w.settled
  requested : ∀ op, desired = some op → w.chans[op.id]? = some .op
  pending : ∀ ch < w.chans.length, ch ∈ w.keys ∨ ch ∈ drains ∨ ∃ op, desired = some op ∧ op.id = ch

variable {drains : List ℕ} {desired : Option (Op G)}

theorem settles_init : World.Settles ({} : World G V E) [] none where
  made _ hch := nomatch hch
  once := nodup_nil
  drainsOnce := nodup_nil
  open_drains _ hch := nomatch hch
  purposes _ hch := nomatch hch
  settled _ hch := nomatch hch
  settled_of_put _ hch := nomatch hch
  requested _ hdesired := nomatch hdesired
  pending _ hch := nomatch hch

theorem put_settles {ch : ℕ} (hw : w.Settles (ch :: drains) desired) (value : Result G V E) :
    (w.put ch value).Settles drains desired := by
  have hfresh : ch ∉ w.keys := hw.open_drains ch mem_cons_self
  have hpurpose := hw.purposes ch mem_cons_self
  have hkeys : (w.put ch value).keys = ch :: w.keys := rfl
  obtain ⟨hnot, hdrains⟩ := nodup_cons.mp hw.drainsOnce
  have hlt : ch < w.chans.length := by
    rcases hpurpose with h | h <;> exact (List.getElem?_eq_some_iff.mp h).1
  refine
    { made := fun j hj ↦ ?_
      once := hkeys ▸ nodup_cons.mpr ⟨hfresh, hw.once⟩
      drainsOnce := hdrains
      open_drains := fun j hj ↦ ?_
      purposes := fun j hj ↦ hw.purposes j (mem_cons_of_mem _ hj)
      settled := fun j hj ↦ hkeys ▸ mem_cons_of_mem _ (hw.settled j hj)
      settled_of_put := fun j hj hop ↦ ?_
      requested := hw.requested
      pending := fun j hj ↦ ?_ }
  · rcases mem_cons.mp hj with rfl | hj
    · exact hlt
    · exact hw.made j hj
  · rw [hkeys, mem_cons, not_or]
    refine ⟨?_, hw.open_drains j (mem_cons_of_mem _ hj)⟩
    rintro rfl
    exact hnot hj
  · rcases mem_cons.mp hj with rfl | hj
    · change w.chans[j]? = some .op at hop
      rw [hop] at hpurpose
      rcases hpurpose with h | h <;> exact nomatch some.inj h
    · exact hw.settled_of_put j hj hop
  · rw [hkeys, mem_cons]
    rcases hw.pending j hj with hput | hdrain | hdesired
    · exact .inl (.inr hput)
    · rcases mem_cons.mp hdrain with rfl | hdrain
      · exact .inl (.inl rfl)
      · exact .inr (.inl hdrain)
    · exact .inr (.inr hdesired)

section

variable (hw : w.Settles drains desired)
include hw

theorem putAll_settles (value : Result G V E) : (w.putAll drains value).Settles [] desired := by
  induction drains generalizing w with
  | nil => exact hw
  | cons ch drains ih => exact ih (put_settles hw value)

/-- A request is settled, whether or not it is the desired one. -/
theorem complete_settles {op : Op G} (hop : w.chans[op.id]? = some .op) (value : Result G V E) :
    (w.complete (some op) value).Settles drains desired ∧
      op.id ∈ (w.complete (some op) value).settled := by
  unfold complete
  dsimp only
  split
  · next hsettled => exact ⟨hw, hsettled⟩
  · next hsettled =>
    have hlt : op.id < w.chans.length := (List.getElem?_eq_some_iff.mp hop).1
    have hfresh : op.id ∉ w.keys := fun hput ↦ hsettled (hw.settled_of_put _ hput hop)
    refine ⟨?_, mem_cons_self⟩
    refine
      { made := fun j hj ↦ ?_
        once := nodup_cons.mpr ⟨hfresh, hw.once⟩
        drainsOnce := hw.drainsOnce
        open_drains := fun j hj ↦ ?_
        purposes := hw.purposes
        settled := fun j hj ↦ ?_
        settled_of_put := fun j hj hop' ↦ ?_
        requested := hw.requested
        pending := fun j hj ↦ ?_ }
    · rcases mem_cons.mp hj with rfl | hj
      · exact hlt
      · exact hw.made j hj
    · refine not_mem_cons_of_ne_of_not_mem ?_ (hw.open_drains j hj)
      rintro rfl
      have hpurpose := hw.purposes _ hj
      rw [hop] at hpurpose
      rcases hpurpose with h | h <;> exact nomatch some.inj h
    · rcases mem_cons.mp hj with rfl | hj
      · exact mem_cons_self
      · exact mem_cons_of_mem _ (hw.settled j hj)
    · rcases mem_cons.mp hj with rfl | hj
      · exact mem_cons_self
      · exact mem_cons_of_mem _ (hw.settled_of_put j hj hop')
    · rcases hw.pending j hj with hput | hrest
      · exact .inl (mem_cons_of_mem _ hput)
      · exact .inr hrest

/-- The desired request can be dropped once it is settled. -/
theorem drop_settles (hsettled : ∀ op, desired = some op → op.id ∈ w.settled) :
    w.Settles drains none where
  made := hw.made
  once := hw.once
  drainsOnce := hw.drainsOnce
  open_drains := hw.open_drains
  purposes := hw.purposes
  settled := hw.settled
  settled_of_put := hw.settled_of_put
  requested _ hnone := nomatch hnone
  pending ch hch := by
    rcases hw.pending ch hch with hput | hdrain | ⟨op, hop, rfl⟩
    · exact .inl hput
    · exact .inr (.inl hdrain)
    · exact .inl (hw.settled _ (hsettled op hop))

theorem cancel_settles (value : Result G V E) : (w.complete desired value).Settles drains none := by
  cases desired with
  | none => exact hw
  | some op =>
    obtain ⟨hsettles, hsettled⟩ := complete_settles hw (hw.requested op rfl) value
    refine drop_settles hsettles fun op' hop' ↦ ?_
    obtain rfl := some.inj hop'
    exact hsettled

end

variable {purpose : Purpose}

theorem chan_kept {p : Purpose} {ch : ℕ} (hch : w.chans[ch]? = some p) :
    (w.chan purpose).chans[ch]? = some p := by
  simp only [chan]
  rw [List.getElem?_append_left (List.getElem?_eq_some_iff.mp hch).1, hch]

theorem chan_new (purpose : Purpose) :
    (w.chan purpose).chans[w.chans.length]? = some purpose := getElem?_concat_length

theorem chan_lt {ch : ℕ} (hch : ch < (w.chan purpose).chans.length) :
    ch < w.chans.length ∨ ch = w.chans.length := by
  simp only [chan, length_append, length_singleton] at hch
  omega

/-- The new channel belongs to a drain. -/
theorem chan_settles_drain (hw : w.Settles drains desired)
    (hpurpose : purpose = .retire ∨ purpose = .retry) :
    (w.chan purpose).Settles (drains ++ [w.chans.length]) desired := by
  have hold (ch : ℕ) (hch : ch ∈ w.keys) : w.chans[ch]? = (w.chan purpose).chans[ch]? :=
    (getElem?_append_left (hw.made ch hch)).symm
  have hnew : w.chans.length ∉ w.keys := fun h ↦ Nat.lt_irrefl _ (hw.made _ h)
  have hnot : w.chans.length ∉ drains := by
    intro h
    have hpurposes := hw.purposes _ h
    rw [getElem?_eq_none (Nat.le_refl _)] at hpurposes
    rcases hpurposes with h | h <;> exact nomatch h
  refine
    { made := fun ch hch ↦ ?_
      once := hw.once
      drainsOnce := ?_
      open_drains := fun ch hch ↦ ?_
      purposes := fun ch hch ↦ ?_
      settled := hw.settled
      settled_of_put := fun ch hch hop ↦ hw.settled_of_put ch hch ((hold ch hch).trans hop)
      requested := fun op hop ↦ chan_kept (hw.requested op hop)
      pending := fun ch hch ↦ ?_ }
  · simp only [chan, length_append]
    exact Nat.lt_add_right _ (hw.made ch hch)
  · rw [nodup_append]
    refine ⟨hw.drainsOnce, nodup_singleton _, ?_⟩
    intro a ha b hb
    rw [mem_singleton.mp hb]
    rintro rfl
    exact hnot ha
  · rcases mem_append.mp hch with hch | hch
    · exact hw.open_drains ch hch
    · rw [mem_singleton.mp hch]
      exact hnew
  · rcases mem_append.mp hch with hch | hch
    · exact (hw.purposes ch hch).imp chan_kept chan_kept
    · rw [mem_singleton.mp hch, chan_new]
      exact hpurpose.imp (congrArg some) (congrArg some)
  · rcases chan_lt hch with hlt | rfl
    · rcases hw.pending ch hlt with hput | hdrain | hdesired
      · exact .inl hput
      · exact .inr (.inl (mem_append_left _ hdrain))
      · exact .inr (.inr hdesired)
    · exact .inr (.inl (mem_append_right _ (mem_singleton_self _)))

/-- The new channel belongs to a request, which takes the place of a settled one. -/
theorem chan_settles_op (hw : w.Settles drains none) {op : Op G} (hop : op.id = w.chans.length) :
    (w.chan .op).Settles drains (some op) := by
  have hold (ch : ℕ) (hch : ch ∈ w.keys) : w.chans[ch]? = (w.chan .op).chans[ch]? :=
    (getElem?_append_left (hw.made ch hch)).symm
  refine
    { made := fun ch hch ↦ ?_
      once := hw.once
      drainsOnce := hw.drainsOnce
      open_drains := hw.open_drains
      purposes := fun ch hch ↦ (hw.purposes ch hch).imp chan_kept chan_kept
      settled := hw.settled
      settled_of_put := fun ch hch hop' ↦ hw.settled_of_put ch hch ((hold ch hch).trans hop')
      requested := fun op' hop' ↦ ?_
      pending := fun ch hch ↦ ?_ }
  · simp only [chan, length_append]
    exact Nat.lt_add_right _ (hw.made ch hch)
  · rw [← some.inj hop', hop]
    exact chan_new _
  · rcases chan_lt hch with hlt | rfl
    · rcases hw.pending ch hlt with hput | hdrain | ⟨op', hop', -⟩
      · exact .inl hput
      · exact .inr (.inl hdrain)
      · exact nomatch hop'
    · exact .inr (.inr ⟨op, rfl, hop⟩)

theorem answer_settles (hw : w.Settles drains desired) (hpurpose : purpose ≠ .op)
    (value : Result G V E) : (w.answer purpose value).Settles drains desired := by
  have hold (ch : ℕ) (hch : ch ∈ w.keys) : w.chans[ch]? = (w.chan purpose).chans[ch]? :=
    (getElem?_append_left (hw.made ch hch)).symm
  have hnew : w.chans.length ∉ w.keys := fun h ↦ Nat.lt_irrefl _ (hw.made _ h)
  refine
    { made := fun ch hch ↦ ?_
      once := nodup_cons.mpr ⟨hnew, hw.once⟩
      drainsOnce := hw.drainsOnce
      open_drains := fun ch hch ↦ not_mem_cons_of_ne_of_not_mem ?_ (hw.open_drains ch hch)
      purposes := fun ch hch ↦ (hw.purposes ch hch).imp chan_kept chan_kept
      settled := fun ch hch ↦ mem_cons_of_mem _ (hw.settled ch hch)
      settled_of_put := fun ch hch hop ↦ ?_
      requested := fun op hop ↦ chan_kept (hw.requested op hop)
      pending := fun ch hch ↦ ?_ }
  · simp only [answer, put, chan, length_append, length_singleton]
    rcases mem_cons.mp hch with rfl | hch
    · exact Nat.lt_succ_self _
    · exact Nat.lt_succ_of_lt (hw.made ch hch)
  · rintro rfl
    have hpurposes := hw.purposes _ hch
    rw [getElem?_eq_none (Nat.le_refl _)] at hpurposes
    rcases hpurposes with h | h <;> exact nomatch h
  · rcases mem_cons.mp hch with rfl | hch
    · exact absurd (some.inj ((chan_new purpose).symm.trans hop)) hpurpose
    · exact hw.settled_of_put ch hch ((hold ch hch).trans hop)
  · rcases chan_lt hch with hlt | rfl
    · rcases hw.pending ch hlt with hput | hrest
      · exact .inl (mem_cons_of_mem _ hput)
      · exact .inr hrest
    · exact .inl mem_cons_self

end

/-! ## The worker and the resource -/

section

variable {G V E : Type} {w x : World G V E}

@[simp] theorem putAll_frame (chs : List ℕ) (value : Result G V E) :
    (w.putAll chs value).slot = w.slot ∧ (w.putAll chs value).workers = w.workers ∧
      (w.putAll chs value).chans = w.chans ∧ (w.putAll chs value).settled = w.settled ∧
      (w.putAll chs value).calls = w.calls ∧ (w.putAll chs value).live = w.live ∧
      (w.putAll chs value).shown = w.shown ∧ (w.putAll chs value).stale = w.stale := by
  induction chs generalizing w with
  | nil => exact ⟨rfl, rfl, rfl, rfl, rfl, rfl, rfl, rfl⟩
  | cons ch chs ih => exact ih (w := w.put ch value)

@[simp] theorem complete_frame (op : Option (Op G)) (value : Result G V E) :
    (w.complete op value).slot = w.slot ∧ (w.complete op value).workers = w.workers ∧
      (w.complete op value).chans = w.chans ∧ (w.complete op value).calls = w.calls ∧
      (w.complete op value).live = w.live ∧ (w.complete op value).shown = w.shown ∧
      (w.complete op value).stale = w.stale := by
  unfold complete
  split
  · split <;> exact ⟨rfl, rfl, rfl, rfl, rfl, rfl, rfl⟩
  · exact ⟨rfl, rfl, rfl, rfl, rfl, rfl, rfl⟩

@[simp] theorem hold_frame (error : Failure E) (failedOpen : Option (FailedOpen E)) :
    (w.hold error failedOpen).slot = { w.slot with
          phase := .held, running := false, error := some error, failedOpen, desired := none
          drains := [], last := none } ∧
      (w.hold error failedOpen).workers = w.workers ∧ (w.hold error failedOpen).chans = w.chans ∧
      (w.hold error failedOpen).calls = w.calls ∧ (w.hold error failedOpen).live = w.live ∧
      (w.hold error failedOpen).shown = w.shown ∧ (w.hold error failedOpen).stale = w.stale := by
  simp [hold]

/-- A published resource that the desired request owns is there for its reader. -/
def World.Shows (w : World G V E) : Prop :=
  ∀ r op, w.slot.resource = some r → w.slot.desired = some op → op.id = r.owner.id →
    r.published = true → (r.owner.id, r.value) ∈ w.shown

/-- What holds of the slot while a worker is there. -/
def World.At (w : World G V E) : Worker G V E → Prop
  | .planning => w.Shows
  | .publishing _ _ => w.slot.phase ≠ .held ∧ w.Shows
  | .unpublishing r => w.slot.phase ≠ .held ∧ w.slot.resource = some r
  | .disposing r =>
    w.slot.phase ≠ .held ∧ w.slot.resource = some r ∧ (r.owner.id, r.value) ∉ w.shown
  | .recovering _ => w.slot.phase ≠ .held ∧ w.slot.resource = none
  | .opening op =>
    w.slot.phase = .opening ∧ w.slot.resource = none ∧ w.chans[op.id]? = some .op ∧
      ∀ op', w.slot.desired = some op' → op'.id = op.id → op' = op ∧ w.slot.drains = []

/-- The resource of the slot is the live one, and the only one shown. A drain keeps it from being
desired. -/
structure World.Holds (w : World G V E) : Prop where
  live : w.live = w.slot.resource.toList.map fun r ↦ (r.owner.id, r.value)
  shown : w.shown = [] ∨ ∃ r, w.slot.resource = some r ∧ w.shown = [(r.owner.id, r.value)]
  unpublished : ∀ r, w.slot.resource = some r → r.published = false → w.shown = []
  held : w.slot.phase = .held → w.slot.desired = none ∧ w.slot.drains = [] ∧ w.slot.error.isSome
  recovering : w.slot.phase = .recovering → w.slot.resource = none
  owner : ∀ r, w.slot.resource = some r → w.chans[r.owner.id]? = some .op
  fence : ∀ r op, w.slot.resource = some r → w.slot.desired = some op → op.id = r.owner.id →
    op = r.owner ∧ w.slot.drains = []

/-- There is one worker while the slot says so, and none otherwise. -/
structure World.Owns (w : World G V E) : Prop extends w.Holds where
  workers : w.slot.running = false ∧ w.workers = [] ∧ w.Shows ∨
    w.slot.running = true ∧ ∃ worker, w.workers = [worker] ∧ w.At worker

theorem owns_init : World.Owns ({} : World G V E) where
  workers := .inl ⟨rfl, rfl, fun _ _ hresource ↦ nomatch hresource⟩
  live := rfl
  shown := .inl rfl
  unpublished _ hresource := nomatch hresource
  held hphase := nomatch hphase
  recovering hphase := nomatch hphase
  owner _ hresource := nomatch hresource
  fence _ _ hresource := nomatch hresource

theorem World.Holds.keep (hw : w.Holds) (hresource : x.slot.resource = w.slot.resource)
    (hlive : x.live = w.live) (hshown : x.shown = w.shown)
    (hchans : ∀ ch : ℕ, w.chans[ch]? = some .op → x.chans[ch]? = some .op)
    (hheld : x.slot.phase = .held →
      x.slot.desired = none ∧ x.slot.drains = [] ∧ x.slot.error.isSome)
    (hrecovering : x.slot.phase = .recovering → w.slot.resource = none)
    (hfence : ∀ r op, w.slot.resource = some r → x.slot.desired = some op → op.id = r.owner.id →
      op = r.owner ∧ x.slot.drains = []) : x.Holds where
  live := by rw [hlive, hresource, hw.live]
  shown := by
    rw [hshown, hresource]
    exact hw.shown
  unpublished := by
    rw [hshown, hresource]
    exact hw.unpublished
  held := hheld
  recovering h := hresource.trans (hrecovering h)
  owner r hr := hchans _ (hw.owner r (hresource.symm.trans hr))
  fence r op hr := hfence r op (hresource.symm.trans hr)

/-- The resource does not depend on workers, values of channels or calls. -/
theorem Holds.congr (hw : w.Holds) (hslot : x.slot.resource = w.slot.resource ∧
    x.slot.phase = w.slot.phase ∧ x.slot.desired = w.slot.desired ∧
    x.slot.drains = w.slot.drains ∧ x.slot.error = w.slot.error)
    (hchans : x.chans = w.chans) (hlive : x.live = w.live) (hshown : x.shown = w.shown) :
    x.Holds := by
  obtain ⟨hresource, hphase, hdesired, hdrains, herror⟩ := hslot
  refine hw.keep hresource hlive hshown (fun _ h ↦ hchans ▸ h) ?_ ?_ ?_
  · rw [hphase, hdesired, hdrains, herror]
    exact hw.held
  · rw [hphase]
    exact hw.recovering
  · rw [hdesired, hdrains]
    exact hw.fence

theorem World.Holds.vacant (hw : w.Holds) (hnone : w.slot.resource = none)
    (hresource : x.slot.resource = none) (hlive : x.live = w.live) (hshown : x.shown = w.shown)
    (hheld : x.slot.phase = .held →
      x.slot.desired = none ∧ x.slot.drains = [] ∧ x.slot.error.isSome) : x.Holds where
  live := by rw [hlive, hresource, hw.live, hnone]
  shown := .inl (hshown.trans (hw.shown.resolve_right fun ⟨r, hr, _⟩ ↦ nomatch hnone.symm.trans hr))
  unpublished _ hr := nomatch hresource.symm.trans hr
  held := hheld
  recovering _ := hresource
  owner _ hr := nomatch hresource.symm.trans hr
  fence _ _ hr := nomatch hresource.symm.trans hr

theorem shows_none (hnone : w.slot.resource = none) : w.Shows :=
  fun _ _ hr ↦ nomatch hnone.symm.trans hr

theorem worker_at (hw : w.Owns) {k : ℕ} {worker : Worker G V E} (hk : w.workers[k]? = some worker) :
    w.slot.running ∧ k = 0 ∧ w.workers = [worker] ∧ w.At worker := by
  rcases hw.workers with ⟨-, hnone, -⟩ | ⟨hruns, worker', hone, hat⟩
  · rw [hnone] at hk
    exact nomatch hk
  · rw [hone] at hk
    cases k with
    | zero =>
      obtain rfl := some.inj hk
      exact ⟨hruns, rfl, hone, hat⟩
    | succ k => exact nomatch hk

/-- The worker goes on to the next place. -/
theorem resume_owns (hw : w.Owns) {k : ℕ} {worker next : Worker G V E}
    (hk : w.workers[k]? = some worker) (hworkers : x.workers = w.workers)
    (hrunning : x.slot.running = w.slot.running) (hholds : x.Holds) (hat : x.At next) :
    (x.resume k next).Owns := by
  obtain ⟨hruns, rfl, hone, -⟩ := worker_at hw hk
  have hat' : (x.resume 0 next).At next := by
    cases next <;> exact hat
  exact
    { toHolds := Holds.congr hholds ⟨rfl, rfl, rfl, rfl, rfl⟩ rfl rfl rfl
      workers := .inr ⟨hrunning.trans hruns, next, by simp [hworkers, hone], hat'⟩ }

/-- The worker ends. -/
theorem exit_owns (hw : w.Owns) {k : ℕ} {worker : Worker G V E}
    (hk : w.workers[k]? = some worker) (hworkers : x.workers = w.workers)
    (hrunning : x.slot.running = false) (hholds : x.Holds) (hshows : x.Shows) :
    (x.exit k).Owns := by
  obtain ⟨-, rfl, hone, -⟩ := worker_at hw hk
  exact
    { toHolds := Holds.congr hholds ⟨rfl, rfl, rfl, rfl, rfl⟩ rfl rfl rfl
      workers := .inl ⟨hrunning, by simp [hworkers, hone], hshows⟩ }

theorem pump_owns (hw : w.Owns) : w.pump.Owns := by
  unfold pump
  split
  · exact hw
  · next hrunning =>
    rcases hw.workers with ⟨-, hworkers, hshows⟩ | ⟨hrunning', -⟩
    · exact
        { toHolds := Holds.congr hw.toHolds ⟨rfl, rfl, rfl, rfl, rfl⟩ rfl rfl rfl
          workers := .inr ⟨rfl, .planning, by simp [hworkers], hshows⟩ }
    · exact absurd hrunning' hrunning

/-- A call of the slot keeps the resource and its worker. It may drop the desired request, or
replace it with a new one. -/
theorem call_owns (hw : w.Owns) (hworkers : x.workers = w.workers) (hlive : x.live = w.live)
    (hshown : x.shown = w.shown) (hresource : x.slot.resource = w.slot.resource)
    (hphase : x.slot.phase = w.slot.phase) (hrunning : x.slot.running = w.slot.running)
    (hchans : ∀ (ch : ℕ) (p : Purpose), w.chans[ch]? = some p → x.chans[ch]? = some p)
    (hdesired : ∀ op, x.slot.desired = some op →
      w.slot.desired = some op ∧ x.slot.drains = w.slot.drains ∨ w.chans[op.id]? = none)
    (hheld : w.slot.phase = .held →
      x.slot.desired = none ∧ x.slot.drains = [] ∧ x.slot.error.isSome) : x.Owns := by
  have hshows (hshows : w.Shows) : x.Shows := by
    intro r op hr hop hid hpublished
    rw [hresource] at hr
    rw [hshown]
    rcases hdesired op hop with ⟨hold, -⟩ | hnew
    · exact hshows r op hr hold hid hpublished
    · rw [hid, hw.owner r hr] at hnew
      exact nomatch hnew
  have hat (worker : Worker G V E) (hat : w.At worker) : x.At worker := by
    cases worker with
    | planning => exact hshows hat
    | publishing op v => exact ⟨hphase ▸ hat.1, hshows hat.2⟩
    | unpublishing r => exact ⟨hphase ▸ hat.1, hresource.trans hat.2⟩
    | disposing r => exact ⟨hphase ▸ hat.1, hresource.trans hat.2.1, hshown ▸ hat.2.2⟩
    | recovering f => exact ⟨hphase ▸ hat.1, hresource.trans hat.2⟩
    | opening op =>
      obtain ⟨hne, hnone, hop, hsame⟩ := hat
      refine ⟨hphase ▸ hne, hresource.trans hnone, hchans _ _ hop, fun op' hop' hid ↦ ?_⟩
      rcases hdesired op' hop' with ⟨hold, hdrains⟩ | hnew
      · obtain ⟨heq, hempty⟩ := hsame op' hold hid
        exact ⟨heq, hdrains.trans hempty⟩
      · rw [hid, hop] at hnew
        exact nomatch hnew
  refine
    { toHolds := hw.keep hresource hlive hshown (fun ch ↦ hchans ch _) (hphase ▸ hheld)
        (hphase ▸ hw.recovering) fun r op hr hop hid ↦ ?_
      workers := ?_ }
  · rcases hdesired op hop with ⟨hold, hdrains⟩ | hnew
    · obtain ⟨heq, hempty⟩ := hw.fence r op hr hold hid
      exact ⟨heq, hdrains.trans hempty⟩
    · rw [hid, hw.owner r hr] at hnew
      exact nomatch hnew
  · rw [hrunning, hworkers]
    rcases hw.workers with ⟨hstopped, hnone, hs⟩ | ⟨hruns, worker, hone, ha⟩
    · exact .inl ⟨hstopped, hnone, hshows hs⟩
    · exact .inr ⟨hruns, worker, hone, hat worker ha⟩

section

variable (hw : w.Owns) {k : ℕ} {worker : Worker G V E} (hk : w.workers[k]? = some worker)
include hw hk

/-- Its worker leaves the slot held. -/
theorem hold_owns (hu : x.Holds) (hworkers : x.workers = w.workers) (error : Failure E)
    (failedOpen : Option (FailedOpen E)) : ((x.hold error failedOpen).exit k).Owns := by
  refine exit_owns hw hk (by simpa using hworkers) (by simp) ?_ fun r op _ hop ↦ by simp at hop
  exact hu.keep (by simp) (by simp) (by simp) (by simp) (by simp) (by simp)
    fun r op _ hop ↦ by simp at hop

/-- A worker starts to dispose of the resource, which is not shown. -/
theorem dispose_owns (hworkers : x.workers = w.workers) (hrunning : x.slot.running = w.slot.running)
    (hu : x.Holds) {r : Resource G V} (hr : x.slot.resource = some r)
    (hshown : (r.owner.id, r.value) ∉ x.shown) : (x.dispose k r).Owns := by
  refine resume_owns hw hk (by simpa using hworkers) (by simpa using hrunning) ?_
    ⟨by simp, by simpa using hr, by simpa using hshown⟩
  exact hu.keep rfl rfl rfl (fun _ h ↦ h) (fun h ↦ nomatch h) (fun h ↦ nomatch h) hu.fence

theorem withdraw_owns (hworkers : x.workers = w.workers)
    (hrunning : x.slot.running = w.slot.running) (hu : x.Holds) (hphase : x.slot.phase ≠ .held)
    {r : Resource G V} (hr : x.slot.resource = some r) : (x.withdraw k r).Owns := by
  unfold withdraw
  split
  · exact resume_owns hw hk (by simpa using hworkers) (by simpa using hrunning)
      (Holds.congr hu ⟨rfl, rfl, rfl, rfl, rfl⟩ rfl rfl rfl) ⟨hphase, hr⟩
  · next hpublished =>
    have hnone := hu.unpublished r hr (by simpa using hpublished)
    exact dispose_owns hw hk hworkers hrunning hu hr (by simp [hnone])

end

end

/-- A slot whose worker has ended has nothing left to answer. -/
structure World.Sound {G V E : Type} (w : World G V E) : Prop extends w.Owns where
  settles : w.Settles w.slot.drains w.slot.desired
  rest : w.slot.running = false →
    w.slot.drains = [] ∧ ∀ op, w.slot.desired = some op → op.id ∈ w.settled

section

variable {G V E : Type} {w x : World G V E}

theorem init_sound : World.Sound ({} : World G V E) where
  toOwns := owns_init
  settles := settles_init
  rest _ := ⟨rfl, fun _ hdesired ↦ nomatch hdesired⟩

variable {desired : Option (Op G)}

theorem Settles.congr {drains : List ℕ} (hw : w.Settles drains desired) (hchans : x.chans = w.chans)
    (hsettled : x.settled = w.settled) (hputs : x.puts = w.puts) : x.Settles drains desired := by
  have hkeys : x.keys = w.keys := congrArg (map Prod.fst) hputs
  constructor
  · rw [hkeys, hchans]
    exact hw.made
  · rw [hkeys]
    exact hw.once
  · exact hw.drainsOnce
  · rw [hkeys]
    exact hw.open_drains
  · rw [hchans]
    exact hw.purposes
  · rw [hsettled, hkeys]
    exact hw.settled
  · rw [hsettled, hkeys, hchans]
    exact hw.settled_of_put
  · rw [hchans]
    exact hw.requested
  · rw [hkeys, hchans]
    exact hw.pending

@[simp] theorem swap_settles {drains : List ℕ} (f : Slot G V E → Slot G V E) :
    (w.swap f).Settles drains desired ↔ w.Settles drains desired :=
  ⟨fun h ↦ Settles.congr h rfl rfl rfl, fun h ↦ Settles.congr h rfl rfl rfl⟩

theorem hold_settles {drains : List ℕ} (error : Failure E) (failedOpen : Option (FailedOpen E))
    (k : ℕ) (hdrains : w.slot.drains = drains) (hdesired : w.slot.desired = desired)
    (hw : w.Settles drains desired) : ((w.hold error failedOpen).exit k).Settles [] none := by
  subst hdrains hdesired
  refine Settles.congr (w := w.hold error failedOpen) ?_ rfl rfl rfl
  unfold hold
  exact putAll_settles (cancel_settles (by exact Settles.congr hw rfl rfl rfl) _) _

variable {k : ℕ}

theorem hold_sound (hw : w.Sound) {worker : Worker G V E} (hk : w.workers[k]? = some worker)
    (error : Failure E) (failedOpen : Option (FailedOpen E)) :
    ((w.hold error failedOpen).exit k).Sound where
  toOwns := hold_owns hw.toOwns hk hw.toHolds rfl error failedOpen
  settles := by
    simpa using hold_settles error failedOpen k rfl rfl hw.settles
  rest _ := ⟨by simp, fun _ hop ↦ by simp at hop⟩

/-- A step of the worker that changes neither the channels nor what is asked for. -/
theorem busy_sound (hw : w.Sound) {worker : Worker G V E} (hk : w.workers[k]? = some worker)
    (howns : x.Owns) (hslot : x.slot.drains = w.slot.drains ∧ x.slot.desired = w.slot.desired ∧
      x.slot.running = w.slot.running) (hchans : x.chans = w.chans)
    (hsettled : x.settled = w.settled) (hputs : x.puts = w.puts) : x.Sound where
  toOwns := howns
  settles := by
    rw [hslot.1, hslot.2.1]
    exact Settles.congr hw.settles hchans hsettled hputs
  rest h := by
    obtain ⟨hruns, -⟩ := worker_at hw.toOwns hk
    rw [hslot.2.2, hruns] at h
    exact nomatch h

@[simp] theorem dispose_frame (k : ℕ) (r : Resource G V) :
    (w.dispose k r).slot = { w.slot with phase := .retiring } ∧
      (w.dispose k r).chans = w.chans ∧ (w.dispose k r).settled = w.settled ∧
      (w.dispose k r).puts = w.puts ∧ (w.dispose k r).live = w.live ∧
      (w.dispose k r).shown = w.shown ∧
      (w.dispose k r).calls = .dispose r.owner.id r.value :: w.calls := by
  simp [dispose]

theorem withdraw_frame (k : ℕ) (r : Resource G V) :
    ((w.withdraw k r).slot.drains = w.slot.drains ∧ (w.withdraw k r).slot.desired = w.slot.desired ∧
      (w.withdraw k r).slot.running = w.slot.running) ∧
      (w.withdraw k r).chans = w.chans ∧ (w.withdraw k r).settled = w.settled ∧
      (w.withdraw k r).puts = w.puts := by
  unfold withdraw
  split <;> simp

variable {r : Resource G V}

theorem withdraw_sound (hw : w.Sound) {worker : Worker G V E} (hk : w.workers[k]? = some worker)
    (hphase : w.slot.phase ≠ .held) (hr : w.slot.resource = some r) (stale : List ℕ) :
    ({ w with stale }.withdraw k r).Sound := by
  obtain ⟨hslot, hchans, hsettled, hputs⟩ := withdraw_frame (w := { w with stale }) k r
  have hholds : World.Holds { w with stale } :=
    Holds.congr hw.toHolds ⟨rfl, rfl, rfl, rfl, rfl⟩ rfl rfl rfl
  have howns := withdraw_owns (x := { w with stale }) hw.toOwns hk rfl rfl hholds hphase hr
  exact busy_sound hw hk howns hslot hchans hsettled hputs

theorem recover_sound (hw : w.Sound) {worker : Worker G V E} (hk : w.workers[k]? = some worker)
    (hphase : w.slot.phase = .recovering) : (w.recover k).Sound := by
  unfold recover
  split
  · next op hop =>
    refine busy_sound hw hk (resume_owns hw.toOwns hk rfl rfl
      (Holds.congr hw.toHolds ⟨rfl, rfl, rfl, rfl, rfl⟩ rfl rfl rfl) ⟨?_, ?_⟩) ⟨rfl, rfl, rfl⟩
      rfl rfl rfl
    · simp [hphase]
    · exact hw.recovering hphase
  · exact hold_sound hw hk _ _

variable {op : Op G}

section

variable (hw : w.Sound) (hk : w.workers[k]? = some .planning)
include hw hk

/-- The resource is published for its owner, and everyone who asked for it is told. -/
theorem ready_sound (hr : w.slot.resource = some r) (hop : w.slot.desired = some op)
    (hid : op.id = r.owner.id) :
    (((w.swap fun s ↦ { s with phase := .ready, running := false }).complete (some op)
      (.ready r.value op.generation)).exit k).Sound := by
  obtain ⟨-, -, -, hshows⟩ := worker_at hw.toOwns hk
  obtain ⟨hsettles, hsettled⟩ := complete_settles
    (Settles.congr (x := w.swap fun s ↦ { s with phase := .ready, running := false }) hw.settles
      rfl rfl rfl) (hw.settles.requested op hop) (.ready r.value op.generation)
  refine
    { toOwns := exit_owns hw.toOwns hk (by simp) (by simp) ?_ ?_
      settles := ?_
      rest := fun _ ↦ ⟨?_, fun op' hop' ↦ ?_⟩ }
  · exact hw.keep (by simp) (by simp) (by simp) (by simp) (by simp) (by simp)
      (by simpa using hw.fence)
  · intro r' op' hr' hop' hid' hpublished
    simpa using hshows r' op' (by simpa using hr') (by simpa using hop') hid' hpublished
  · simpa using Settles.congr (x := exit _ k) hsettles rfl rfl rfl
  · simpa using (hw.fence r op hr hop hid).2
  · obtain rfl : op' = op := some.inj ((by simpa using hop' :
      w.slot.desired = some op').symm.trans hop)
    exact hsettled

theorem publish_sound (hphase : w.slot.phase ≠ .held ∧ w.slot.phase ≠ .recovering)
    (hr : w.slot.resource = some r) (hid : op.id = r.owner.id) (hpublished : r.published = false) :
    ((({ w with shown := (op.id, r.value) :: w.shown }.swap fun s ↦
      { s with resource := some { r with published := true } }).call
        (.publish op.id r.value)).resume k (.publishing op r.value)).Sound := by
  have hnone := hw.unpublished r hr hpublished
  refine busy_sound hw hk (resume_owns hw.toOwns hk (by simp) (by simp) ?_ ⟨by simp [hphase], ?_⟩)
    (by simp) (by simp) (by simp) (by simp)
  · exact
      { live := by simp [hw.live, hr]
        shown := .inr ⟨{ r with published := true }, by simp, by simp [hnone, hid]⟩
        unpublished := fun r' hr' hpublished' ↦ by
          obtain rfl : { r with published := true } = r' := by simpa using hr'
          exact nomatch hpublished'
        held := fun h ↦ absurd h (by simp [hphase])
        recovering := fun h ↦ absurd h (by simp [hphase])
        owner := fun r' hr' ↦ by
          obtain rfl : { r with published := true } = r' := by simpa using hr'
          simpa using hw.owner r hr
        fence := fun r' op' hr' hop' hid' ↦ by
          obtain rfl : { r with published := true } = r' := by simpa using hr'
          simpa using hw.fence r op' hr (by simpa using hop') hid' }
  · intro r' op' hr' _ _ _
    obtain rfl : { r with published := true } = r' := by simpa using hr'
    simp [hid]

section

variable (hresource : w.slot.resource = none)
include hresource

theorem drained_sound :
    ((w.swap fun s ↦ { s with drains := [] }).putAll w.slot.drains .done).Sound := by
  obtain ⟨hruns, -, hone, -⟩ := worker_at hw.toOwns hk
  have hnone : ((w.swap fun s ↦ { s with drains := [] }).putAll w.slot.drains
    (.done : Result G V E)).slot.resource = none := by simpa using hresource
  exact
    { toHolds := hw.vacant hresource hnone (by simp) (by simp) fun h ↦ by
        obtain ⟨hdesired, -, herror⟩ := hw.held (by simpa using h)
        simpa using ⟨hdesired, herror⟩
      workers := .inr ⟨by simpa using hruns, .planning, by simpa using hone, shows_none hnone⟩
      settles := by
        simpa using putAll_settles (Settles.congr
          (x := w.swap fun s ↦ { s with drains := [] }) hw.settles rfl rfl rfl) .done
      rest := fun h ↦ by simp [hruns] at h }

theorem open_sound (hdrains : w.slot.drains = []) (hop : w.slot.desired = some op) :
    (((w.swap fun s ↦ { s with phase := .opening }).call (.open op.id)).resume k
      (.opening op)).Sound := by
  refine busy_sound hw hk (resume_owns hw.toOwns hk rfl rfl
    (hw.vacant hresource hresource rfl rfl fun h ↦ nomatch h)
    ⟨rfl, hresource, hw.settles.requested op hop, fun op' hop' _ ↦ ?_⟩) ⟨rfl, rfl, rfl⟩ rfl rfl rfl
  obtain rfl : op = op' := some.inj (hop.symm.trans hop')
  exact ⟨rfl, hdrains⟩

theorem cancel_sound (hop : w.slot.desired = some op) :
    (({ w with stale := op.id :: w.stale }.swap fun s ↦ { s with desired := none }).complete
      (some op) (.failed (some .superseded))).Sound := by
  obtain ⟨hruns, -, hone, -⟩ := worker_at hw.toOwns hk
  exact
    { toHolds := hw.vacant hresource (by simpa using hresource) (by simp) (by simp) fun h ↦ by
        simpa using (hw.held (by simpa using h)).2
      workers := .inr ⟨by simpa using hruns, .planning, by simpa using hone,
        shows_none (by simpa using hresource)⟩
      settles := by
        have hsettles := hw.settles
        rw [hop] at hsettles
        simpa using cancel_settles (Settles.congr
          (x := { w with stale := op.id :: w.stale }.swap fun s ↦ { s with desired := none })
          hsettles rfl rfl rfl) (.failed (some .superseded))
      rest := fun h ↦ by simp [hruns] at h }

theorem idle_sound (hdrains : w.slot.drains = []) (hdesired : w.slot.desired = none) :
    (((w.swap fun s ↦ { s with phase := .idle, running := false, drains := [] }).putAll
      w.slot.drains .done).exit k).Sound := by
  rw [hdrains]
  refine
    { toOwns := exit_owns hw.toOwns hk rfl rfl
        (hw.vacant hresource hresource rfl rfl fun h ↦ nomatch h) (shows_none hresource)
      settles := ?_
      rest := fun _ ↦ ⟨rfl, fun _ hop ↦ nomatch hdesired.symm.trans hop⟩ }
  have hsettles := hw.settles
  rw [hdrains] at hsettles
  exact Settles.congr hsettles rfl rfl rfl

end

theorem stop_sound (hphase : w.slot.phase = .held) :
    ((w.swap fun s ↦ { s with running := false }).exit k).Sound := by
  obtain ⟨-, -, -, hshows⟩ := worker_at hw.toOwns hk
  obtain ⟨hdesired, hdrains, -⟩ := hw.held hphase
  exact
    { toOwns := exit_owns hw.toOwns hk rfl rfl
        (Holds.congr hw.toHolds ⟨rfl, rfl, rfl, rfl, rfl⟩ rfl rfl rfl) hshows
      settles := Settles.congr hw.settles rfl rfl rfl
      rest := fun _ ↦ ⟨hdrains, fun _ hop ↦ nomatch hdesired.symm.trans hop⟩ }

theorem plan_sound [DecidableEq G] (valid : Check E) : (w.plan k valid).Sound := by
  unfold plan
  split
  · next hheld => exact stop_sound hw hk hheld
  · next hheld =>
    split
    · next hrecovering => exact recover_sound hw hk hrecovering
    · next hrecovering =>
      split
      · next r op hr hop =>
        split
        · next hid =>
          split
          · exact hold_sound hw hk _ _
          · exact withdraw_sound hw hk hheld hr _
          · split
            · exact ready_sound hw hk hr hop hid
            · next hpublished =>
              exact publish_sound hw hk ⟨hheld, hrecovering⟩ hr hid (by simpa using hpublished)
        · exact withdraw_sound hw hk hheld hr _
      · next r hr _ => exact withdraw_sound hw hk hheld hr _
      · next hnone =>
        split
        · exact drained_sound hw hk hnone
        · next hdrains =>
          have hempty : w.slot.drains = [] := by simpa using hdrains
          split
          · next op hop =>
            split
            · exact hold_sound hw hk _ _
            · exact open_sound hw hk hnone hempty hop
            · exact cancel_sound hw hk hnone hop
          · next hdesired => exact idle_sound hw hk hnone hempty hdesired

end

theorem published_sound (hw : w.Sound) {value : V}
    (hk : w.workers[k]? = some (.publishing op value)) : (w.published k none).Sound := by
  obtain ⟨-, -, -, -, hshows⟩ := worker_at hw.toOwns hk
  exact busy_sound hw hk (resume_owns hw.toOwns hk rfl rfl
    (Holds.congr hw.toHolds ⟨rfl, rfl, rfl, rfl, rfl⟩ rfl rfl rfl) hshows) ⟨rfl, rfl, rfl⟩
    rfl rfl rfl

/-- Only the resource of the slot can be shown, so that nothing is after its withdrawal. -/
theorem erase_shown (hw : w.Holds) [DecidableEq V] (hr : w.slot.resource = some r) :
    w.shown.erase (r.owner.id, r.value) = [] := by
  rcases hw.shown with hnone | ⟨r', hr', hshown⟩
  · rw [hnone]
    rfl
  · obtain rfl := some.inj (hr.symm.trans hr')
    rw [hshown]
    exact erase_cons_head _ _

section

variable (hw : w.Sound)
include hw

theorem unpublished_sound [DecidableEq V] (hk : w.workers[k]? = some (.unpublishing r)) :
    (w.unpublished k r none).Sound := by
  obtain ⟨-, -, -, -, hr⟩ := worker_at hw.toOwns hk
  have herase := erase_shown hw.toHolds hr
  simp only [unpublished, herase]
  have hholds : World.Holds { w with shown := [] } :=
    { hw.toHolds with
      shown := .inl rfl
      unpublished := fun _ _ _ ↦ rfl }
  have howns := dispose_owns (x := { w with shown := [] }) hw.toOwns hk rfl rfl hholds hr
    not_mem_nil
  exact busy_sound hw hk howns (by simp) (by simp) (by simp) (by simp)

theorem disposed_sound [DecidableEq V] (hk : w.workers[k]? = some (.disposing r)) :
    (w.disposed k r .confirmed).Sound := by
  obtain ⟨-, -, -, hphase, hr, hshown⟩ := worker_at hw.toOwns hk
  have hnone : w.shown = [] := by
    rcases hw.shown with hnone | ⟨r', hr', hone⟩
    · exact hnone
    · obtain rfl := some.inj (hr.symm.trans hr')
      exact absurd (hone ▸ mem_singleton_self _) hshown
  refine busy_sound hw hk (resume_owns hw.toOwns hk rfl rfl ?_ fun _ _ hr' ↦ by simp at hr')
    ⟨rfl, rfl, rfl⟩ rfl rfl rfl
  exact
    { live := by simp [hw.live, hr]
      shown := .inl (by simpa using hnone)
      unpublished := fun r' hr' ↦ by simp at hr'
      held := fun h ↦ absurd h hphase
      recovering := fun _ ↦ rfl
      owner := fun r' hr' ↦ by simp at hr'
      fence := fun r' _ hr' ↦ by simp at hr' }

theorem recovered_sound {failedOpen : Option (FailedOpen E)}
    (hk : w.workers[k]? = some (.recovering failedOpen)) :
    (w.recovered k failedOpen .confirmed).Sound := by
  obtain ⟨-, -, -, -, hresource⟩ := worker_at hw.toOwns hk
  exact busy_sound hw hk (resume_owns hw.toOwns hk rfl rfl
    (hw.vacant hresource hresource rfl rfl fun h ↦ nomatch h) (shows_none hresource))
    ⟨rfl, rfl, rfl⟩ rfl rfl rfl

/-- `open!` has yielded, and the worker has nothing to dispose of yet. -/
theorem open_value_sound (hk : w.workers[k]? = some (.opening op)) (value : V) :
    (({ w with live := (op.id, value) :: w.live }.swap fun s ↦
      { s with resource := some ⟨value, op, false⟩ }).resume k .planning).Sound := by
  obtain ⟨-, -, -, hphase, hresource, hop, hsame⟩ := worker_at hw.toOwns hk
  have hnone : w.shown = [] := by
    rcases hw.shown with hnone | ⟨r, hr, -⟩
    · exact hnone
    · rw [hresource] at hr
      exact nomatch hr
  have hinj (r : Resource G V) (hr : some ⟨value, op, false⟩ = some r) :
      r = ⟨value, op, false⟩ := (some.inj hr).symm
  refine busy_sound hw hk (resume_owns hw.toOwns hk rfl rfl ?_ fun r _ hr _ _ hpublished ↦ ?_)
    ⟨rfl, rfl, rfl⟩ rfl rfl rfl
  · exact
      { live := by simp [hw.live, hresource]
        shown := .inl hnone
        unpublished := fun _ _ _ ↦ hnone
        held := fun h ↦ nomatch h.symm.trans hphase
        recovering := fun h ↦ nomatch h.symm.trans hphase
        owner := fun r hr ↦ by
          rw [hinj r hr]
          exact hop
        fence := fun r op' hr hop' hid ↦ by
          rw [hinj r hr] at hid ⊢
          exact hsame op' hop' hid }
  · rw [hinj r hr] at hpublished
    exact nomatch hpublished

/-- The constructor has cleaned up after its failure, the answer of its request. -/
theorem open_clean_sound (hk : w.workers[k]? = some (.opening op)) (value : Result G V E) :
    (((w.swap fun s ↦ if s.desired.map Op.id = some op.id then { s with desired := none } else s
      ).complete (some op) value).resume k .planning).Sound := by
  obtain ⟨hruns, -, -, hphase, hresource, hop, hsame⟩ := worker_at hw.toOwns hk
  generalize hdropped : (w.swap fun s ↦
    if s.desired.map Op.id = some op.id then { s with desired := none } else s) = u
  have hslot : u.slot.resource = none ∧ u.slot.phase = .opening ∧ u.slot.drains = w.slot.drains ∧
      u.slot.running = w.slot.running ∧
      (u.slot.desired = w.slot.desired ∨ w.slot.desired = some op ∧ u.slot.desired = none) := by
    subst hdropped
    simp only [World.swap]
    split
    · next hdesired =>
      obtain ⟨op', hop', hid⟩ := map_eq_some_iff.mp hdesired
      obtain ⟨rfl, -⟩ := hsame op' hop' hid
      exact ⟨hresource, hphase, rfl, rfl, .inr ⟨hop', rfl⟩⟩
    · exact ⟨hresource, hphase, rfl, rfl, .inl rfl⟩
  have hframe : u.workers = w.workers ∧ u.chans = w.chans ∧ u.settled = w.settled ∧
      u.puts = w.puts ∧ u.live = w.live ∧ u.shown = w.shown := by
    subst hdropped
    exact ⟨rfl, rfl, rfl, rfl, rfl, rfl⟩
  obtain ⟨hnone, hopening, hdrains, hrunning, hdesired⟩ := hslot
  obtain ⟨hworkers, hchans, hsettled, hputs, hlive, hshown⟩ := hframe
  obtain ⟨hsettles, hmem⟩ := complete_settles
    (Settles.congr (x := u) hw.settles hchans hsettled hputs) (hchans ▸ hop) value
  refine
    { toOwns := resume_owns hw.toOwns hk (by simpa using hworkers) (by simpa using hrunning)
        (hw.vacant hresource (by simpa using hnone) (by simpa using hlive) (by simpa using hshown)
          fun h ↦ by simp [hopening] at h) (shows_none (by simpa using hnone))
      settles := ?_
      rest := fun h ↦ by simp [hrunning, hruns] at h }
  refine Settles.congr (w := u.complete (some op) value) ?_ rfl rfl rfl
  simp only [resume_slot, complete_frame, hdrains]
  rcases hdesired with hsame' | ⟨hold, hnew⟩
  · rw [hsame']
    exact hsettles
  · rw [hnew]
    refine drop_settles hsettles fun op' hop' ↦ ?_
    obtain rfl := some.inj (hold.symm.trans hop')
    exact hmem

end

/-! ## Calls of the slot -/

theorem pump_sound (howns : w.Owns) (hsettles : w.Settles w.slot.drains w.slot.desired) :
    w.pump.Sound := by
  refine { toOwns := pump_owns howns, settles := ?_, rest := fun h ↦ ?_ }
  · unfold pump
    split
    · exact hsettles
    · exact Settles.congr hsettles rfl rfl rfl
  · unfold pump at h
    split at h
    · next hrunning => exact nomatch hrunning.symm.trans h
    · exact nomatch h

section

variable (hw : w.Sound)
include hw

theorem answer_sound {purpose : Purpose} (hpurpose : purpose ≠ .op) (value : Result G V E) :
    (w.answer purpose value).pump.Sound := by
  refine pump_sound ?_ (answer_settles hw.settles hpurpose value)
  exact call_owns hw.toOwns rfl rfl rfl rfl rfl rfl (fun _ _ h ↦ chan_kept h)
    (fun _ hop ↦ .inl ⟨hop, rfl⟩) hw.held

theorem enter_sound [DecidableEq G] (r : Request G) : (w.enter r).pump.Sound := by
  unfold enter
  split
  · next generation _ _ =>
    split
    · exact answer_sound hw (by decide) _
    · next hheld =>
      split
      · exact pump_sound hw.toOwns hw.settles
      · have hcancelled := cancel_settles hw.settles (.failed (some .superseded))
        refine pump_sound ?_ ?_
        · refine call_owns hw.toOwns (by simp) (by simp) (by simp) (by simp) (by simp) (by simp)
            (fun ch p hch ↦ ?_) (fun op hop ↦ .inr ?_) fun h ↦ absurd h hheld
          · simpa using List.getElem?_append_left (List.getElem?_eq_some_iff.mp hch).1 |>.trans hch
          · obtain rfl := some.inj hop
            exact getElem?_eq_none (Nat.le_refl _)
        · have hadopted := @chan_settles_op _ _ _ _ _ hcancelled
            ⟨w.chans.length, generation, r.recovers, r.cleans⟩ (by simp)
          simpa using hadopted
  · exact answer_sound hw (by decide) _

theorem retire_sound : w.withdrawAll.pump.Sound := by
  have hcancelled := cancel_settles hw.settles (.failed (some .superseded))
  have hdrain := chan_settles_drain hcancelled (.inl rfl : Purpose.retire = .retire ∨ _)
  have hkept (ch : ℕ) (p : Purpose) (hch : w.chans[ch]? = some p) :
      (w.chans ++ [.retire])[ch]? = some p :=
    (List.getElem?_append_left (List.getElem?_eq_some_iff.mp hch).1).trans hch
  unfold withdrawAll
  split
  · next hheld =>
    obtain ⟨-, hdrains, herror⟩ := hw.held hheld
    refine pump_sound ?_ ?_
    · exact call_owns hw.toOwns (by simp) (by simp) (by simp) (by simp) (by simp) (by simp)
        (fun ch p hch ↦ by simpa using hkept ch p hch) (fun op hop ↦ by simp at hop)
        fun _ ↦ ⟨by simp, by simpa using hdrains, by simpa using herror⟩
    · rw [hdrains] at hdrain
      have hdrain' := put_settles (w := swap _ fun s ↦
        { s with desired := none, last := none }) ((swap_settles _).mpr hdrain)
        (.failed w.slot.error)
      simpa [hdrains] using hdrain'
  · next hheld =>
    refine pump_sound ?_ ?_
    · exact call_owns hw.toOwns (by simp) (by simp) (by simp) (by simp) (by simp) (by simp)
        (fun ch p hch ↦ by simpa using hkept ch p hch) (fun op hop ↦ by simp at hop)
        fun h ↦ absurd h hheld
    · simpa using hdrain

theorem retry_sound : w.retry.pump.Sound := by
  unfold retry
  split
  · exact answer_sound hw (by decide) _
  · next hphase =>
    have hheld : w.slot.phase = .held := by simpa using hphase
    obtain ⟨hdesired, hdrains, -⟩ := hw.held hheld
    split
    · refine pump_sound ?_ ?_
      · have hworkers : w.slot.running = false ∧ w.workers = [] ∨
            w.slot.running ∧ w.workers = [.planning] := by
          rcases hw.workers with ⟨hstopped, hnone, -⟩ | ⟨hruns, worker, hone, hat⟩
          · exact .inl ⟨hstopped, hnone⟩
          · cases worker with
            | planning => exact .inr ⟨hruns, hone⟩
            | opening op => exact nomatch hheld.symm.trans hat.1
            | _ => exact absurd hheld hat.1
        have hshows : World.Shows ((w.chan .retry).swap fun s ↦
            { s with
              phase := if s.resource.isSome then .retiring else .recovering
              drains := s.drains ++ [w.chans.length] }) :=
          fun r op _ hop ↦ by simp [hdesired] at hop
        exact
          { toHolds := hw.keep rfl rfl rfl (fun _ ↦ chan_kept)
              (fun h ↦ by cases hresource : w.slot.resource <;> simp [hresource] at h)
              (fun h ↦ by cases hresource : w.slot.resource <;> simp_all)
              fun r op _ hop ↦ by simp [hdesired] at hop
            workers := hworkers.imp (fun h ↦ ⟨h.1, h.2, hshows⟩)
              fun h ↦ ⟨h.1, .planning, h.2, hshows⟩ }
      · exact Settles.congr (chan_settles_drain hw.settles (.inr rfl)) rfl rfl rfl
    · exact answer_sound hw (by decide) _

theorem step_sound [DecidableEq G] [DecidableEq V] (event : Event G V E) : (w.step event).Sound :=
  step_cases event hw (enter_sound hw) (retire_sound hw) (retry_sound hw)
    (fun _ valid hk ↦ plan_sound hw hk valid) (fun _ _ hk ↦ hold_sound hw hk)
    (fun _ _ _ hk ↦ published_sound hw hk) (fun _ _ hk ↦ unpublished_sound hw hk)
    (fun _ _ hk ↦ disposed_sound hw hk) (fun _ _ hk ↦ recovered_sound hw hk)
    (fun _ _ hk ↦ open_value_sound hw hk) (fun _ _ hk _ ↦ open_clean_sound hw hk _)

end

end

end Simmis.Desktop.ResourceSlot
