import Simmis.Screen.Grants

/-!
# Windows of a screen

The trail of a grant shows that it was live throughout the window that it exposes, however the
window came to its end, as long as a grant is closed while its heartbeat is fresh. An ended window
keeps its end.
-/

namespace Simmis.Screen

open List Option Grant Grants Bool Span Screens Runs

variable {G P R F : Type} [DecidableEq P] [DecidableEq R]

variable {u : ℤ}

namespace Grant

variable {g h : Grant G P R} {now t : ℤ}

/-- A grant was live from the opening to the last heartbeat, and closed while that was fresh, or at
it. -/
structure Kept (g : Grant G P R) : Prop where
  head : ∃ older, g.beats = g.beat :: older
  start : g.from_ ≤ g.beat
  steady : ∀ t, g.from_ ≤ t → t ≤ g.beat →
    ∃ beat, g.lastBeat t = some beat ∧ t - beat < staleAfterMs
  opened : g.until_ = none → g.closedAt = none
  closed : ∀ u, g.until_ = some u → ∃ c, g.closedAt = some c ∧
    ((u = c ∧ c - g.beat < staleAfterMs) ∨ (u = g.beat ∧ staleAfterMs ≤ c - g.beat))

section

omit [DecidableEq P] [DecidableEq R]

/-- From the last heartbeat on, that heartbeat is the last one. -/
theorem Kept.lastBeat (hkept : g.Kept) (ht : g.beat ≤ t) : g.lastBeat t = some g.beat := by
  obtain ⟨older, hbeats⟩ := hkept.head
  unfold Grant.lastBeat
  rw [hbeats, find?_cons_of_pos (by simpa using ht)]

/-- A grant that was open and fresh at `stop` had a fresh heartbeat all the time before. -/
theorem Kept.beating (hkept : g.Kept) {stop : ℤ} (hstop : stop - g.beat < staleAfterMs)
    (hfrom : g.from_ ≤ t) (ht : t ≤ stop) :
    ∃ beat, g.lastBeat t = some beat ∧ t - beat < staleAfterMs := by
  rcases Int.le_total t g.beat with hle | hle
  · exact hkept.steady t hfrom hle
  · exact ⟨g.beat, hkept.lastBeat hle, by omega⟩

theorem kept_opened (eid : ℕ) (id : G) (party : P) (room : R) (now : ℤ) :
    (opened eid id party room now).Kept where
  head := ⟨[], rfl⟩
  start := Int.le_refl now
  steady t hfrom ht := by
    have htime : t = now := Int.le_antisymm ht hfrom
    subst htime
    exact ⟨t, by simp [lastBeat, opened], by simp [staleAfterMs]⟩
  opened _ := rfl
  closed u hu := by cases hu

theorem Kept.beatAt (hkept : g.Kept) (hopen : g.until_ = none) (hnow : g.beat ≤ now)
    (hfresh : now - g.beat < staleAfterMs) : (g.beatAt now).Kept where
  head := ⟨g.beats, rfl⟩
  start := Int.le_trans hkept.start hnow
  steady t hfrom ht := by
    have hfrom' : g.from_ ≤ t := hfrom
    have ht' : t ≤ now := ht
    by_cases heq : t = now
    · subst heq
      exact ⟨t, by simp [Grant.lastBeat, Grant.beatAt], by simp [staleAfterMs]⟩
    · obtain ⟨beat, hbeat, hclose⟩ := hkept.beating hfresh hfrom' ht'
      refine ⟨beat, ?_, hclose⟩
      unfold Grant.lastBeat Grant.beatAt
      rw [find?_cons_of_neg (by simp; omega)]
      exact hbeat
  opened := hkept.opened
  closed u hu := by
    have hu' : g.until_ = some u := hu
    rw [hopen] at hu'
    cases hu'

theorem Kept.closeAt (hkept : g.Kept) (hend : (u = now ∧ now - g.beat < staleAfterMs) ∨
      (u = g.beat ∧ staleAfterMs ≤ now - g.beat)) : (g.closeAt u now).Kept where
  head := hkept.head
  start := hkept.start
  steady := hkept.steady
  opened hopen := by cases hopen
  closed u' hu' := by
    obtain rfl := some.inj hu'
    exact ⟨now, rfl, hend⟩

theorem active_iff : g.active now ↔ g.until_ = none ∧ now - g.beat < staleAfterMs := by
  simp [active]

end

omit [DecidableEq P] [DecidableEq R] in
/-- Every exposed moment was live, save one at which the grant was closed. -/
theorem Kept.live (hkept : g.Kept) (hwindow : (windowOf g now).span.contains t)
    (ht : t ≤ now) (hhand : g.until_ = some t → g.closedAt ≠ some t) : g.Live t := by
  obtain ⟨hfrom, huntil⟩ : g.from_ ≤ t ∧
      (if g.active now then none else some (g.until_.getD g.beat) : Option ℤ).all
        (fun u ↦ decide (t ≤ u)) := by
    have hboth := (and_eq_true _ _).mp hwindow
    exact ⟨of_decide_eq_true hboth.1, hboth.2⟩
  refine ⟨hfrom, ?_⟩
  by_cases hactive : g.active now
  · obtain ⟨hopen, hfresh⟩ := active_iff.mp hactive
    refine ⟨fun c hc ↦ ?_, hkept.beating hfresh hfrom ht⟩
    rw [hkept.opened hopen] at hc
    cases hc
  · rw [if_neg hactive] at huntil
    cases hu : g.until_ with
    | none =>
      have hbeat : t ≤ g.beat := by simpa [hu] using huntil
      refine ⟨fun c hc ↦ ?_, hkept.steady t hfrom hbeat⟩
      rw [hkept.opened hu] at hc
      cases hc
    | some u =>
      have hle : t ≤ u := by simpa [hu] using huntil
      obtain ⟨c, hclosed, ⟨rfl, hfresh⟩ | ⟨rfl, hstale⟩⟩ := hkept.closed u hu
      · refine ⟨fun c' hc' ↦ ?_, hkept.beating hfresh hfrom hle⟩
        obtain rfl := some.inj (hclosed.symm.trans hc')
        have hne : t ≠ u := by
          rintro rfl
          exact hhand hu hclosed
        omega
      · refine ⟨fun c' hc' ↦ ?_, hkept.steady t hfrom hle⟩
        obtain rfl := some.inj (hclosed.symm.trans hc')
        have hpos : 0 < staleAfterMs := by decide
        omega

/-- The window of the grant has ended at `u`, by the clock. -/
def Ended (clock u : ℤ) (g : Grant G P R) : Prop :=
  g.until_ = some u ∨ (g.until_ = none ∧ staleAfterMs ≤ clock - g.beat ∧ u = g.beat)

omit [DecidableEq P] [DecidableEq R] in
theorem ended_iff : (windowOf g now).span.until_ = some u ↔ g.Ended now u := by
  unfold windowOf Ended
  cases hu : g.until_ with
  | none =>
    by_cases hfresh : now - g.beat < staleAfterMs
    · have hstale : ¬ staleAfterMs ≤ now - g.beat := by omega
      simp [active, hu, hfresh, hstale]
    · have hstale : staleAfterMs ≤ now - g.beat := by omega
      simp [active, hu, hfresh, hstale, eq_comm]
  | some v => simp [active, hu]

omit [DecidableEq P] [DecidableEq R] in
theorem Ended.later {clock clock' : ℤ} (h : g.Ended clock u) (hle : clock ≤ clock') :
    g.Ended clock' u := by
  obtain hu | ⟨hopen, hstale, hbeat⟩ := h
  · exact .inl hu
  · exact .inr ⟨hopen, by omega, hbeat⟩

end Grant

/-- The rows of a system database that only the operations have written. -/
structure Grants.Sound (db : Grants G P R) : Prop where
  kept : ∀ g ∈ db.rows, g.Kept
  beats : ∀ g ∈ db.rows, g.beat ≤ db.clock
  eids : (db.rows.map Grant.eid).Nodup
  next : ∀ g ∈ db.rows, g.eid < db.next
  newest : ∀ g ∈ db.rows, g.until_ = none → ∀ h ∈ db.rows, h.of g.party g.room = true →
    h.newer g = false

/-- What has ended by the clock keeps its end. -/
def Grants.Follows (db db' : Grants G P R) : Prop :=
  ∀ g ∈ db.rows, ∀ u, g.Ended db.clock u → ∃ g' ∈ db'.rows, g'.eid = g.eid ∧ g'.Ended db'.clock u

namespace Grants

variable {db db' db'' : Grants G P R} {g h : Grant G P R} {party : P} {room : R} {now : ℤ}

section

omit [DecidableEq P] [DecidableEq R]

theorem Follows.refl (db : Grants G P R) : db.Follows db :=
  fun g hg _ hended ↦ ⟨g, hg, rfl, hended⟩

theorem Follows.trans (h : db.Follows db') (h' : db'.Follows db'') : db.Follows db'' := by
  intro g hg u hended
  obtain ⟨g', hg', heid, hended'⟩ := h g hg u hended
  obtain ⟨g'', hg'', heid', hended''⟩ := h' g' hg' u hended'
  exact ⟨g'', hg'', heid'.trans heid, hended''⟩

theorem newer_iff : g.newer h ↔ h.from_ < g.from_ ∨ (g.from_ = h.from_ ∧ h.eid < g.eid) := by
  simp [newer]

theorem not_newer_iff :
    g.newer h = false ↔ g.from_ < h.from_ ∨ (g.from_ = h.from_ ∧ g.eid ≤ h.eid) := by
  rw [← not_eq_true, newer_iff]
  omega

end

theorem of_iff : g.of party room ↔ g.party = party ∧ g.room = room := by
  simp [of]

/-- `grant-eid` finds a row of the pair that no other row of the pair is newer than. -/
theorem grant_spec (hget : db.grant party room = some g) : g ∈ db.rows ∧ g.of party room ∧
      ∀ h ∈ db.rows, h.of party room → h.newer g = false := by
  unfold grant at hget
  have hsorted := @pairwise_mergeSort (Grant G P R) (fun g h ↦ !h.newer g)
    (fun a b c hab hbc ↦ by
      simp only [not_eq_true', not_newer_iff] at *
      omega)
    (fun a b ↦ by
      simp only [or_eq_true, not_eq_true', not_newer_iff]
      omega)
    (db.rows.filter fun g ↦ g.of party room)
  have hmem := mem_mergeSort.mp (mem_of_mem_head? hget)
  obtain ⟨hrow, hof⟩ := mem_filter.mp hmem
  refine ⟨hrow, hof, fun h hh hof' ↦ ?_⟩
  have hh' : h ∈ (db.rows.filter fun g ↦ g.of party room).mergeSort fun g h ↦ !h.newer g :=
    mem_mergeSort.mpr (mem_filter.mpr ⟨hh, hof'⟩)
  cases hlist : (db.rows.filter fun g ↦ g.of party room).mergeSort fun g h ↦ !h.newer g with
  | nil =>
    rw [hlist] at hh'
    cases hh'
  | cons first rest =>
    rw [hlist] at hget hh' hsorted
    obtain rfl := some.inj hget
    rcases mem_cons.mp hh' with rfl | hrest
    · exact not_newer_iff.mpr (.inr ⟨rfl, Nat.le_refl _⟩)
    · simpa using rel_of_pairwise_cons hsorted hrest

theorem grant_none (hget : db.grant party room = none) :
    ∀ h ∈ db.rows, h.of party room = false := by
  intro h hh
  by_contra hof
  have hmem : h ∈ (db.rows.filter fun g ↦ g.of party room).mergeSort fun g h ↦ !h.newer g :=
    mem_mergeSort.mpr (mem_filter.mpr ⟨hh, by simpa using hof⟩)
  rw [head?_eq_none_iff.mp hget] at hmem
  cases hmem

theorem Sound.eid_inj (hsound : db.Sound) (hg : g ∈ db.rows) (hh : h ∈ db.rows)
    (heid : g.eid = h.eid) : g = h :=
  inj_on_of_nodup_map hsound.eids hg hh heid

/-- Only the current grant of a pair can be open. -/
theorem Sound.closed_of_ne (hsound : db.Sound) (hget : db.grant party room = some g)
    (hh : h ∈ db.rows) (hof : h.of party room) (hne : h ≠ g) : h.until_ ≠ none := by
  intro hopen
  obtain ⟨hg, hofg, hnewest⟩ := grant_spec hget
  obtain ⟨rfl, rfl⟩ := of_iff.mp hof
  have h₁ := not_newer_iff.mp (hnewest h hh hof)
  have h₂ := not_newer_iff.mp (hsound.newest h hh hopen g hg hofg)
  have heid : h.eid = g.eid := by omega
  exact hne (hsound.eid_inj hh hg heid)

theorem Sound.empty (clock : ℤ) : (.empty clock : Grants G P R).Sound where
  kept g hg := by cases hg
  beats g hg := by cases hg
  eids := nodup_nil
  next g hg := by cases hg
  newest g hg := by cases hg

theorem Sound.read (hsound : db.Sound) (hnow : db.clock ≤ now) : (db.read now).Sound where
  kept := hsound.kept
  beats g hg := Int.le_trans (hsound.beats g hg) hnow
  eids := hsound.eids
  next := hsound.next
  newest := hsound.newest

variable {f : Grant G P R → Grant G P R}

section

omit [DecidableEq P] [DecidableEq R]

theorem Follows.read (hnow : db.clock ≤ now) : db.Follows (db.read now) :=
  fun g hg _ hended ↦ ⟨g, hg, rfl, hended.later hnow⟩

theorem mem_update {eid : ℕ} :
    h ∈ (db.update eid f).rows ↔ ∃ g ∈ db.rows, (if g.eid = eid then f g else g) = h :=
  mem_map

/-- A change of one row that keeps its identity and its opening, and does not reopen it. -/
structure Changes (f : Grant G P R → Grant G P R) : Prop where
  eid : ∀ g, (f g).eid = g.eid
  party : ∀ g, (f g).party = g.party
  room : ∀ g, (f g).room = g.room
  from_ : ∀ g, (f g).from_ = g.from_
  closed : ∀ g, (f g).until_ = none → g.until_ = none

theorem changes_beatAt (now : ℤ) : Changes fun g : Grant G P R ↦ g.beatAt now :=
  ⟨fun _ ↦ rfl, fun _ ↦ rfl, fun _ ↦ rfl, fun _ ↦ rfl, fun _ ↦ id⟩

theorem changes_closeAt (u now : ℤ) : Changes fun g : Grant G P R ↦ g.closeAt u now :=
  ⟨fun _ ↦ rfl, fun _ ↦ rfl, fun _ ↦ rfl, fun _ ↦ rfl, fun _ hopen ↦ nomatch hopen⟩

end

theorem Sound.update (hsound : db.Sound) (hg : g ∈ db.rows)
    (hchanges : Changes f) (hkept : (f g).Kept) (hbeat : (f g).beat ≤ db.clock) :
    (db.update g.eid f).Sound where
  kept h hh := by
    obtain ⟨h', hh', rfl⟩ := mem_update.mp hh
    split
    · next heid =>
      obtain rfl := hsound.eid_inj hh' hg heid
      exact hkept
    · exact hsound.kept h' hh'
  beats h hh := by
    obtain ⟨h', hh', rfl⟩ := mem_update.mp hh
    split
    · next heid =>
      obtain rfl := hsound.eid_inj hh' hg heid
      exact hbeat
    · exact hsound.beats h' hh'
  eids := by
    have hmap : ((db.update g.eid f).rows.map eid) = db.rows.map eid := by
      unfold Grants.update
      rw [List.map_map]
      refine map_congr_left fun h _ ↦ ?_
      dsimp only [Function.comp]
      split
      · exact hchanges.eid h
      · rfl
    rw [hmap]
    exact hsound.eids
  next h hh := by
    obtain ⟨h', hh', rfl⟩ := mem_update.mp hh
    split
    · rw [hchanges.eid]
      exact hsound.next h' hh'
    · exact hsound.next h' hh'
  newest a ha hopen b hb hof := by
    obtain ⟨a', ha', rfl⟩ := mem_update.mp ha
    obtain ⟨b', hb', rfl⟩ := mem_update.mp hb
    have hsame (c : Grant G P R) : (if c.eid = g.eid then f c else c).eid = c.eid ∧
        (if c.eid = g.eid then f c else c).party = c.party ∧
        (if c.eid = g.eid then f c else c).room = c.room ∧
        (if c.eid = g.eid then f c else c).from_ = c.from_ ∧
        ((if c.eid = g.eid then f c else c).until_ = none → c.until_ = none) := by
      split
      · exact ⟨hchanges.eid c, hchanges.party c, hchanges.room c, hchanges.from_ c,
          hchanges.closed c⟩
      · exact ⟨rfl, rfl, rfl, rfl, id⟩
    obtain ⟨heid, hparty, hroom, hfrom, hclosed⟩ := hsame a'
    obtain ⟨heid', hparty', hroom', hfrom', -⟩ := hsame b'
    rw [hparty, hroom] at hof
    have hof' : b'.of a'.party a'.room := by
      unfold of at hof ⊢
      rwa [hparty', hroom'] at hof
    have hnewest := hsound.newest a' ha' (hclosed hopen) b' hb' hof'
    unfold newer at hnewest ⊢
    rwa [heid, hfrom, heid', hfrom']

omit [DecidableEq P] [DecidableEq R] in
/-- An update follows where it keeps the end of the row that it changes. -/
theorem Follows.update {eid : ℕ} (hchanges : Changes f)
    (hended : ∀ h ∈ db.rows, h.eid = eid → ∀ u, h.Ended db.clock u → (f h).Ended db.clock u) :
    db.Follows (db.update eid f) := by
  intro h hh u hu
  refine ⟨_, mem_update.mpr ⟨h, hh, rfl⟩, ?_⟩
  split
  · next heid => exact ⟨hchanges.eid h, hended h hh heid u hu⟩
  · exact ⟨rfl, hu⟩

theorem Sound.insert (hsound : db.Sound) (id : G) (party : P) (room : R)
    (hclosed : ∀ h ∈ db.rows, h.of party room → h.until_ ≠ none) :
    (db.insert id party room db.clock).Sound where
  kept h hh := by
    rcases mem_append.mp hh with hh | hh
    · exact hsound.kept h hh
    · rw [mem_singleton.mp hh]
      exact kept_opened _ _ _ _ _
  beats h hh := by
    rcases mem_append.mp hh with hh | hh
    · exact hsound.beats h hh
    · rw [mem_singleton.mp hh]
      exact Int.le_refl _
  eids := by
    simp only [Grants.insert, map_append, map_cons, map_nil]
    refine List.Nodup.append hsound.eids (nodup_singleton _) ?_
    intro eid hold hnew
    obtain ⟨g, hg, rfl⟩ := mem_map.mp hold
    have hlt := hsound.next g hg
    have heq : g.eid = db.next := mem_singleton.mp hnew
    omega
  next h hh := by
    rcases mem_append.mp hh with hh | hh
    · exact Nat.lt_succ_of_lt (hsound.next h hh)
    · rw [mem_singleton.mp hh]
      exact Nat.lt_succ_self db.next
  newest a ha hopen b hb hof := by
    rcases mem_append.mp ha with hold | hnew
    · rcases mem_append.mp hb with hold' | hnew'
      · exact hsound.newest a hold hopen b hold' hof
      · rw [mem_singleton.mp hnew'] at hof
        obtain ⟨hparty, hroom⟩ := of_iff.mp hof
        exact absurd hopen (hclosed a hold (of_iff.mpr ⟨hparty.symm, hroom.symm⟩))
    · rw [mem_singleton.mp hnew]
      rcases mem_append.mp hb with hold' | hnew'
      · have hlt := hsound.next b hold'
        have hfrom := (hsound.kept b hold').start
        have hbeat := hsound.beats b hold'
        rw [not_newer_iff]
        simp only [opened]
        omega
      · rw [mem_singleton.mp hnew']
        exact not_newer_iff.mpr (.inr ⟨rfl, Nat.le_refl _⟩)

omit [DecidableEq P] [DecidableEq R] in
theorem Follows.insert (id : G) (party : P) (room : R) (now : ℤ) :
    db.Follows (db.insert id party room now) :=
  fun g hg _ hended ↦ ⟨g, mem_append_left _ hg, rfl, hended⟩

omit [DecidableEq P] [DecidableEq R] in
/-- What is active has not ended. -/
theorem not_ended (hactive : g.active now) (u : ℤ) : ¬ g.Ended now u := by
  obtain ⟨hopen, hfresh⟩ := active_iff.mp hactive
  rintro (hu | ⟨-, hstale, -⟩)
  · rw [hopen] at hu
    cases hu
  · omega

section

variable (hsound : db.Sound)
include hsound

/-- A heartbeat of an active grant. -/
theorem Sound.beat (hget : db.grant party room = some g) (hactive : g.active db.clock) :
    (db.update g.eid fun g ↦ g.beatAt db.clock).Sound ∧
      db.Follows (db.update g.eid fun g ↦ g.beatAt db.clock) := by
  obtain ⟨hg, -, -⟩ := grant_spec hget
  obtain ⟨hopen, hfresh⟩ := active_iff.mp hactive
  constructor
  · exact hsound.update hg (changes_beatAt db.clock)
      ((hsound.kept g hg).beatAt hopen (hsound.beats g hg) hfresh) (Int.le_refl _)
  · refine Follows.update (changes_beatAt db.clock) fun h hh heid u hended ↦ ?_
    obtain rfl := hsound.eid_inj hh hg heid
    exact absurd hended (not_ended hactive u)

/-- The end that a closing writes is one that had been reached. -/
theorem Sound.close (hget : db.grant party room = some g) (hopen : g.until_ = none)
    (hend : (u = db.clock ∧ db.clock - g.beat < staleAfterMs) ∨
      (u = g.beat ∧ staleAfterMs ≤ db.clock - g.beat)) :
    (db.update g.eid fun g ↦ g.closeAt u db.clock).Sound ∧
      db.Follows (db.update g.eid fun g ↦ g.closeAt u db.clock) := by
  obtain ⟨hg, -, -⟩ := grant_spec hget
  constructor
  · exact hsound.update hg (changes_closeAt u db.clock) ((hsound.kept g hg).closeAt hend)
      (hsound.beats g hg)
  · refine Follows.update (changes_closeAt u db.clock) fun h hh heid v hended ↦ ?_
    obtain rfl := hsound.eid_inj hh hg heid
    obtain hv | ⟨-, hstale, rfl⟩ := hended
    · rw [hopen] at hv
      cases hv
    · obtain ⟨-, hfresh⟩ | ⟨rfl, -⟩ := hend
      · omega
      · exact .inl rfl

theorem Sound.openGrant (hclock : db.clock = now) (id : G) :
    (db.openGrant id party room now).1.Sound ∧ db.Follows (db.openGrant id party room now).1 := by
  subst hclock
  have hread : db.read db.clock = db := rfl
  cases hget : db.grant party room with
  | none =>
    simp only [openGrant, hread, hget]
    refine ⟨hsound.insert id party room fun h hh hof ↦ ?_, Follows.insert _ _ _ _⟩
    rw [grant_none hget h hh] at hof
    cases hof
  | some g =>
    simp only [openGrant, hread, hget]
    split_ifs with hactive hopen
    · exact hsound.beat hget hactive
    · have hnone : g.until_ = none := by simpa using hopen
      have hstale : staleAfterMs ≤ db.clock - g.beat := by
        by_contra hfresh
        exact hactive (active_iff.mpr ⟨hnone, by omega⟩)
      obtain ⟨hclosed, hfollows⟩ := hsound.close hget hnone (.inr ⟨rfl, hstale⟩)
      refine ⟨hclosed.insert id party room fun h hh hof ↦ ?_, hfollows.trans (Follows.insert _ _ _ _)⟩
      obtain ⟨h', hh', rfl⟩ := mem_update.mp hh
      by_cases heid : h'.eid = g.eid
      · rw [if_pos heid]
        exact some_ne_none _
      · rw [if_neg heid] at hof ⊢
        refine hsound.closed_of_ne hget hh' hof ?_
        rintro rfl
        exact heid rfl
    · refine ⟨hsound.insert id party room fun h hh hof ↦ ?_, Follows.insert _ _ _ _⟩
      by_cases heq : h = g
      · subst heq
        simpa using hopen
      · exact hsound.closed_of_ne hget hh hof heq

theorem Sound.act {act : Act G P R} (htime : OnTime db act) (hfresh : Fresh db act) :
    (db.act act).Sound ∧ db.Follows (db.act act) := by
  cases act with
  | look now => exact ⟨hsound.read htime, Follows.read htime⟩
  | openGrant id party room now =>
    obtain ⟨hnext, hfollows⟩ := (hsound.read htime).openGrant rfl id
    exact ⟨hnext, (Follows.read htime).trans hfollows⟩
  | heartbeat party room now now' =>
    have hle : db.clock ≤ now' := Int.le_trans htime.1 htime.2
    have hread := hsound.read hle
    cases hget : db.grant party room with
    | none =>
      simp only [Grants.act, Grants.heartbeat, hget]
      exact ⟨hread, Follows.read hle⟩
    | some g =>
      simp only [Grants.act, Grants.heartbeat, hget]
      split_ifs with hactive
      · have hget' : (db.read now').grant party room = some g := hget
        obtain ⟨hnext, hfollows⟩ := hread.beat hget' (hfresh g hget hactive)
        exact ⟨hnext, (Follows.read hle).trans hfollows⟩
      · exact ⟨hread, Follows.read hle⟩
  | closeGrant party room now =>
    have hle : db.clock ≤ now := htime
    have hread := hsound.read hle
    cases hget : (db.read now).grant party room with
    | none =>
      simp only [Grants.act, Grants.closeGrant, hget]
      exact ⟨hread, Follows.read hle⟩
    | some g =>
      simp only [Grants.act, Grants.closeGrant, hget]
      split_ifs with hopen
      · have hnone : g.until_ = none := by simpa using hopen
        have hactive : g.active now := hfresh g hget hnone
        obtain ⟨hnext, hfollows⟩ := hread.close hget hnone (.inl ⟨rfl, (active_iff.mp hactive).2⟩)
        exact ⟨hnext, (Follows.read hle).trans hfollows⟩
      · exact ⟨hread, Follows.read hle⟩

theorem Sound.call {call : Call G P R}
    (halong : Runs.Along Grants.act (fun db act ↦ OnTime db act ∧ Fresh db act) db
      (call.acts db)) : (db.call call).Sound ∧ db.Follows (db.call call) := by
  unfold Grants.call
  generalize call.acts db = acts at halong
  induction acts generalizing db with
  | nil => exact ⟨hsound, Follows.refl db⟩
  | cons act acts ih =>
    obtain ⟨hnext, hfollows⟩ := hsound.act halong.1.1 halong.1.2
    obtain ⟨hlast, hfollows'⟩ := ih hnext halong.2
    exact ⟨hlast, hfollows.trans hfollows'⟩

end

end Grants

/-- Some grant of the party onto the room was live. -/
def Shared (db : Grants G P R) (party : P) (room : R) (t : ℤ) : Prop :=
  ∃ g ∈ db.rows, g.of party room = true ∧ g.Live t

/-- A grant of the party onto the room was closed by hand in that very millisecond. -/
def ClosedIn (db : Grants G P R) (party : P) (room : R) (t : ℤ) : Prop :=
  ∃ g ∈ db.rows, g.of party room = true ∧ g.until_ = some t ∧ g.closedAt = some t

variable {db : Grants G P R} {party : P} {room : R} {now t : ℤ}

theorem Grants.Sound.shared (hsound : db.Sound) {g : Grant G P R} (hg : g ∈ db.rows)
    (hof : g.of party room) (hwindow : (windowOf g now).span.contains t)
    (ht : t ≤ now) (hclosed : ¬ ClosedIn db party room t) : Shared db party room t :=
  ⟨g, hg, hof, (hsound.kept g hg).live hwindow ht fun hu hc ↦ hclosed ⟨g, hg, hof, hu, hc⟩⟩

variable {span : Span}

theorem Span.contains_iff :
    span.contains t ↔ span.from_ ≤ t ∧ ∀ u, span.until_ = some u → t ≤ u := by
  unfold contains
  cases span.until_ <;> simp

variable {until_ since : Option ℤ}

/-- Clipping narrows a window to the requested times. -/
theorem Span.clip_contains {clipped : Span} (hclip : span.clip since until_ = some clipped)
    (hcontains : clipped.contains t) :
    span.contains t ∧ (∀ s, since = some s → s ≤ t) ∧ ∀ u, until_ = some u → t ≤ u := by
  unfold clip at hclip
  obtain ⟨-, hclipped⟩ := ite_none_right_eq_some.mp hclip
  obtain rfl := some.inj hclipped
  obtain ⟨start, stop⟩ := span
  rw [contains_iff] at hcontains ⊢
  cases since <;> cases until_ <;> cases stop <;> simp at hcontains ⊢ <;> omega

theorem mem_windowsByParty {windows : List (Window P)} {shared : P × List Span}
    (hshared : shared ∈ windowsByParty windows since until_) (hspan : span ∈ shared.2) :
    ∃ w ∈ windows, w.party = shared.1 ∧ w.span.clip since until_ = some span := by
  obtain ⟨party, -, rfl⟩ := mem_map.mp hshared
  obtain ⟨⟨party', span'⟩, hmem, rfl⟩ := mem_map.mp hspan
  obtain ⟨hmem, hparty⟩ := mem_filter.mp hmem
  obtain ⟨w, hw, hclip⟩ := mem_filterMap.mp hmem
  obtain ⟨span'', hspan'', heq⟩ := map_eq_some_iff.mp hclip
  obtain ⟨rfl, rfl⟩ := Prod.mk.inj heq
  exact ⟨w, hw, by simpa using hparty, hspan''⟩

variable {hit : Hit P F} {n : ℤ}

section

omit [DecidableEq P]

theorem mem_windowsForRoom {w : Window P} (hw : w ∈ db.windowsForRoom room now) :
    ∃ g ∈ db.rows, g.room = room ∧ windowOf g now = w := by
  obtain ⟨g, hg, rfl⟩ := mem_map.mp (mem_mergeSort.mp hw)
  obtain ⟨hrow, hroom⟩ := mem_filter.mp hg
  exact ⟨g, hrow, by simpa using hroom, rfl⟩

theorem Grants.windowOf_mem {g : Grant G P R} (hg : g ∈ db.rows) (hroom : g.room = room) :
    windowOf g now ∈ db.windowsForRoom room now :=
  mem_mergeSort.mpr
    (mem_map.mpr ⟨g, mem_filter.mpr ⟨hg, by simpa using hroom⟩, rfl⟩)

theorem mem_searchFrames {screens : Screens P F} {query : String} {spans : List Span}
    (hhit : hit ∈ screens.searchFrames party query n (some spans)) :
    hit.party = party ∧ ∃ span ∈ spans, span.contains hit.frame.at_ := by
  unfold searchFrames at hhit
  split at hhit
  · obtain ⟨f, hf, rfl⟩ := mem_map.mp hhit
    have hf' := mem_mergeSort.mp (mem_of_mem_take hf)
    exact ⟨rfl, by simpa [inWindows] using (mem_filter.mp hf').2⟩
  · obtain ⟨f, hf, rfl⟩ := mem_map.mp hhit
    exact ⟨rfl, by simpa [inWindows] using (mem_filter.mp (mem_of_mem_take hf)).2⟩

end

variable {screens : Screens P F}

/-- A frame that is found in the windows of the room lies in a window of its sharer. -/
theorem mem_shared {query : String} {shared : P × List Span}
    (hshared : shared ∈ windowsByParty (db.windowsForRoom room now) since until_)
    (hhit : hit ∈ screens.searchFrames shared.1 query n (some shared.2)) :
    (∃ g ∈ db.rows, g.of hit.party room ∧
      (windowOf g now).span.contains hit.frame.at_) ∧
      (∀ s, since = some s → s ≤ hit.frame.at_) ∧ ∀ u, until_ = some u → hit.frame.at_ ≤ u := by
  obtain ⟨hparty, span, hspan, hcontains⟩ := mem_searchFrames hhit
  obtain ⟨w, hw, hwparty, hclip⟩ := mem_windowsByParty hshared hspan
  obtain ⟨g, hg, hroom, rfl⟩ := mem_windowsForRoom hw
  obtain ⟨hwindow, hnarrow⟩ := clip_contains hclip hcontains
  exact ⟨⟨g, hg, of_iff.mpr ⟨hwparty.trans hparty.symm, hroom⟩, hwindow⟩, hnarrow⟩

/-- The frame is returned by one of the queries of the room. -/
def Shows (screens : Screens P F) (db : Grants G P R) (room : R) (now : ℤ) (hit : Hit P F) : Prop :=
  (∃ since until_ n, hit ∈ screens.roomHistory db room since until_ n now) ∨
    (∃ query n, hit ∈ screens.roomFrameSearch db room query n now) ∨
    ∃ n, hit ∈ screens.roomFrames db room n now

theorem mem_roomHistory (hhit : hit ∈ screens.roomHistory db room since until_ n now) :
    (∃ g ∈ db.rows, g.of hit.party room ∧
      (windowOf g now).span.contains hit.frame.at_) ∧
      (∀ s, since = some s → s ≤ hit.frame.at_) ∧ ∀ u, until_ = some u → hit.frame.at_ ≤ u := by
  have hmem := mem_mergeSort.mp (mem_of_mem_take hhit)
  obtain ⟨shared, hshared, hhit'⟩ := mem_flatMap.mp hmem
  exact mem_shared hshared hhit'

/-- Whatever a room is shown lies in a window of the sharer onto the room. -/
theorem Shows.window (hshows : Shows screens db room now hit) : ∃ g ∈ db.rows, g.of hit.party room ∧
      (windowOf g now).span.contains hit.frame.at_ := by
  obtain ⟨since, until_, n, hhit⟩ | ⟨query, n, hhit⟩ | ⟨n, hhit⟩ := hshows
  · exact (mem_roomHistory hhit).1
  · have hmem := mem_mergeSort.mp (mem_of_mem_take hhit)
    obtain ⟨shared, hshared, hhit'⟩ := mem_flatMap.mp hmem
    exact (mem_shared hshared hhit').1
  · have hmem := mem_mergeSort.mp (mem_of_mem_take hhit)
    obtain ⟨sharer, hsharer, hhit'⟩ := mem_flatMap.mp hmem
    obtain ⟨g, hg, rfl⟩ := mem_map.mp hsharer
    obtain ⟨f, hf, rfl⟩ := mem_map.mp hhit'
    obtain ⟨hg, hactive⟩ := mem_filter.mp hg
    obtain ⟨hrow, hroom⟩ := mem_filter.mp hg
    have hfrom : g.from_ ≤ f.at_ := by simpa using (mem_filter.mp hf).2
    refine ⟨g, hrow, of_iff.mpr ⟨rfl, by simpa using hroom⟩, ?_⟩
    simp [windowOf, hactive, Span.contains, hfrom]

/-- The clock does not run backwards during a call. -/
def Call.OnTime (db : Grants G P R) (call : Call G P R) : Prop :=
  Runs.Along Grants.act Screen.OnTime db (call.acts db)

/-- A call closes no grant that has gone stale and beats none that goes stale meanwhile. -/
def Call.Fresh (db : Grants G P R) (call : Call G P R) : Prop :=
  Runs.Along Grants.act Screen.Fresh db (call.acts db)

/-- Every shown frame was taken while a grant of its party was live. -/
def ShownLive (screens : Screens P F) (db : Grants G P R) (now : ℤ) : Prop :=
  ∀ room hit, Shows screens db room now hit → hit.frame.at_ ≤ now →
    Shared db hit.party room hit.frame.at_

/-- A room sees only moments shared into it, or the millisecond of a closing; a request only
narrows, and an ended window keeps its end. -/
structure OnlyShared (F : Type) (clock : ℤ) (calls : List (Call G P R)) : Prop where
  shown : ∀ (screens : Screens P F) now, (Runs.run Grants.call (.empty clock) calls).clock ≤ now →
    (∀ room hit, Shows screens (Runs.run Grants.call (.empty clock) calls) room now hit →
      ¬ ClosedIn (Runs.run Grants.call (.empty clock) calls) hit.party room hit.frame.at_) →
    ShownLive screens (Runs.run Grants.call (.empty clock) calls) now
  narrow : ∀ (screens : Screens P F) (hit : Hit P F) room since until_ n now,
    hit ∈ screens.roomHistory (Runs.run Grants.call (.empty clock) calls) room since until_ n now →
    (∃ w ∈ (Runs.run Grants.call (.empty clock) calls).windowsForRoom room now,
      w.party = hit.party ∧ w.span.contains hit.frame.at_ = true) ∧
    (∀ s, since = some s → s ≤ hit.frame.at_) ∧ ∀ u, until_ = some u → hit.frame.at_ ≤ u
  ends : ∀ early late, calls = early ++ late →
    ∀ g ∈ (Runs.run Grants.call (.empty clock) early).rows, ∀ u,
      (windowOf g (Runs.run Grants.call (.empty clock) early).clock).span.until_ = some u →
      ∃ g' ∈ (Runs.run Grants.call (.empty clock) calls).rows, g'.eid = g.eid ∧
        ∀ now, (Runs.run Grants.call (.empty clock) calls).clock ≤ now →
          (windowOf g' now).span.until_ = some u

/-- A share that beats and is closed. -/
def sharing : List (Call ℕ ℕ ℕ) := [.openGrant 1 5 9 10, .heartbeat 5 9 20 21, .closeGrant 5 9 30]

/-- A client that dies at once and is closed long after. -/
def closedLate : List (Call ℕ ℕ ℕ) := [.openGrant 1 5 9 0, .closeGrant 5 9 100000]

theorem run_closedLate : run call (.empty 0) closedLate =
      ⟨[⟨0, 1, 5, 9, 0, 0, some 100000, [0], some 100000⟩], 1, 100000⟩ := by
  simp [closedLate, Call.acts, call, act, openGrant, closeGrant,
    Grants.grant, Grants.empty, Grants.read, Grants.insert, Grant.opened, Grant.of,
    update, closeAt]

end Simmis.Screen
