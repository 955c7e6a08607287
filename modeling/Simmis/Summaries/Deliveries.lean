import Simmis.Library.Runs
import Simmis.Summaries.Records

/-!
# Deliveries of summaries

Any number of callers record revisions and deliver projections, one transaction after the other, and
may stop after any of them or repeat one. A history is the journal with the projections that were
claimed and those that finished.
-/

namespace Simmis.Summaries

open List Option Runs Table Db

variable {U D K : Type} [DecidableEq U] [DecidableEq K]

inductive Event (U D : Type)
  | record (row : Revision U D) (previous : Option U)
  | reserve (intent : Intent U)
  | claim (id : U) (expectedOwner : Option U)
  | finish (id receipt : U)

structure Claim (U : Type) where
  projection : Projection U
  head : Option (Head U)

structure History (U D K : Type) [DecidableEq U] [DecidableEq K] where
  db : Db U D K := {}
  claims : List (Claim U) := []
  finished : List (Projection U) := []

/-- A projection that was claimed, with the head of its node. -/
def Db.claimed (db : Db U D K) (id : U) : List (Claim U) :=
  (db.projections.get id).toList.map fun row ↦ ⟨row, db.heads.get row.node⟩

def step [DecidableEq D] (pathId : Place U → K) (h : History U D K) : Event U D → History U D K
  | .record row previous =>
    match recordTx h.db row previous with
    | .ok tx => { h with db := h.db.transact tx }
    | .error _ => h
  | .reserve intent =>
    match reserveProjectionTx h.db intent with
    | .ok tx => { h with db := h.db.transact tx }
    | .error _ => h
  | .claim id expectedOwner =>
    match claimProjectionTx pathId h.db id expectedOwner with
    | .ok tx => { h with db := h.db.transact tx, claims := h.claims ++ h.db.claimed id }
    | .error _ => h
  | .finish id receipt =>
    match finishProjectionTx pathId h.db id receipt with
    | .ok tx =>
      { h with
        db := h.db.transact tx
        finished := h.finished ++ (h.db.projections.get id).toList }
    | .error _ => h

/-- The generations of a node. -/
structure Db.Ordered (db : Db U D K) : Prop where
  head : ∀ node head, db.heads.get node = some head → ∃ row,
    db.revisions.get head.revision = some row ∧ row.node = node ∧ row.generation = head.generation
  covered : ∀ node head, db.heads.get node = some head → ∀ g, 1 ≤ g → g ≤ head.generation →
    ∃ id row, db.revisions.get id = some row ∧ row.node = node ∧ row.generation = g
  bounded : ∀ id row, db.revisions.get id = some row → 1 ≤ row.generation ∧
    ∃ head, db.heads.get row.node = some head ∧ row.generation ≤ head.generation
  unique : ∀ id id' row row', db.revisions.get id = some row → db.revisions.get id' = some row' →
    row.node = row'.node → row.generation = row'.generation → row = row'

/-- The newest generation of a node. -/
def Db.newest (db : Db U D K) (node : U) : ℕ := ((db.heads.get node).map Head.generation).getD 0

variable {db : Db U D K}

theorem Db.newest_of_head {node : U} {head : Head U} (h : db.heads.get node = some head) :
    db.newest node = head.generation := by
  simp [newest, h]

/-- A new revision leaves the others as they are. -/
theorem revisions_kept {row : Revision U D} (hnew : db.revisions.get row.revision = none) {id : U}
    {r : Revision U D} (h : db.revisions.get id = some r) :
    (db.revisions.put row).get id = some r := by
  rw [get_put, if_neg]
  · exact h
  · rintro rfl
    rw [hnew] at h
    cases h

theorem Db.Ordered.record (hdb : db.Ordered) {row : Revision U D}
    (hnew : db.revisions.get row.revision = none)
    (hgeneration : row.generation = db.newest row.node + 1) : (db.transact [.revision row,
      .head ⟨row.node, row.room, row.revision, row.generation⟩]).Ordered := by
  have hself : (db.revisions.put row).get row.revision = some row := by
    rw [get_put, if_pos rfl]
  -- every recorded generation of the node is older than the new one
  have holder (id : U) (r : Revision U D) (h : db.revisions.get id = some r)
      (hnode : r.node = row.node) : r.generation < row.generation := by
    obtain ⟨-, head, hhead, hle⟩ := hdb.bounded id r h
    rw [hnode] at hhead
    rw [hgeneration, newest_of_head hhead]
    omega
  constructor
  · intro node head hhead
    simp only [transact, foldl_cons, foldl_nil, write, get_put] at hhead
    split at hhead
    · next hsame =>
      obtain rfl := some.inj hhead
      exact ⟨row, hself, hsame.symm, rfl⟩
    · obtain ⟨r, hr, hnode, hgen⟩ := hdb.head node head hhead
      exact ⟨r, revisions_kept hnew hr, hnode, hgen⟩
  · intro node head hhead g hpos hle
    simp only [transact, foldl_cons, foldl_nil, write, get_put] at hhead
    split at hhead
    · next hsame =>
      obtain rfl := some.inj hhead
      obtain heq | hlt := Nat.eq_or_lt_of_le hle
      · exact ⟨_, row, hself, hsame.symm, heq.symm⟩
      · have hlt : g < row.generation := hlt
        cases hold : db.heads.get row.node with
        | none =>
          have hzero : db.newest row.node = 0 := by simp [newest, hold]
          omega
        | some old =>
          have hnewest := newest_of_head hold
          obtain ⟨id, r, hr, hnode, hgen⟩ := hdb.covered row.node old hold g hpos (by omega)
          exact ⟨id, r, revisions_kept hnew hr, hnode.trans hsame.symm, hgen⟩
    · obtain ⟨id, r, hr, hnode, hgen⟩ := hdb.covered node head hhead g hpos hle
      exact ⟨id, r, revisions_kept hnew hr, hnode, hgen⟩
  · intro id r hr
    simp only [transact, foldl_cons, foldl_nil, write, get_put] at hr ⊢
    split at hr
    · obtain rfl := some.inj hr
      refine ⟨by omega, ⟨row.node, row.room, row.revision, row.generation⟩, ?_, le_refl _⟩
      rw [if_pos rfl]
    · obtain ⟨hpos, head, hhead, hle⟩ := hdb.bounded id r hr
      refine ⟨hpos, ?_⟩
      by_cases hnode : r.node = row.node
      · refine ⟨⟨row.node, row.room, row.revision, row.generation⟩, ?_, ?_⟩
        · rw [if_pos hnode]
        · exact le_of_lt (holder id r hr hnode)
      · refine ⟨head, ?_, hle⟩
        rw [if_neg hnode]
        exact hhead
  · intro id id' r r' hr hr' hnode hgen
    simp only [transact, foldl_cons, foldl_nil, write, get_put] at hr hr'
    split at hr <;> split at hr'
    · exact some.inj (hr.symm.trans hr')
    · obtain rfl := some.inj hr
      exact absurd hgen.symm (holder id' r' hr' hnode.symm).ne
    · obtain rfl := some.inj hr'
      exact absurd hgen (holder id r hr hnode).ne
    · exact hdb.unique id id' r r' hr hr' hnode hgen

/-- A projection that is written owns its path, and what owns a path goes there. -/
structure Db.Owned (pathId : Place U → K) (db : Db U D K) : Prop where
  writing : ∀ id row, db.projections.get id = some row → row.state = .writing → ∃ path,
    db.paths.get (pathId row.place) = some path ∧ path.owner = id ∧ path.state = .writing
  owner : ∀ key path, db.paths.get key = some path → ∃ row,
    db.projections.get path.owner = some row ∧ pathId row.place = key ∧
    (path.state = .writing → row.state = .writing)

variable {pathId : Place U → K}

theorem Db.Owned.reserve (hdb : db.Owned pathId) {row : Projection U}
    (hstate : row.state = .reserved) (hnew : db.projections.get row.id = none) :
    (db.transact [.projection row]).Owned pathId := by
  constructor
  · intro id r hr hwriting
    simp only [transact, foldl_cons, foldl_nil, write, get_put] at hr ⊢
    split at hr
    · obtain rfl := some.inj hr
      rw [hstate] at hwriting
      cases hwriting
    · exact hdb.writing id r hr hwriting
  · intro key path hpath
    simp only [transact, foldl_cons, foldl_nil, write, get_put] at hpath ⊢
    obtain ⟨r, hr, hplace, hwriting⟩ := hdb.owner key path hpath
    refine ⟨r, ?_, hplace, hwriting⟩
    rw [if_neg]
    · exact hr
    · intro heq
      rw [heq, hnew] at hr
      cases hr

/-- A projection moves together with the path that it owns afterwards. -/
theorem Db.Owned.deliver (hdb : db.Owned pathId) {old row : Projection U} {path : Path U K}
    (hold : db.projections.get row.id = some old) (hplace : row.place = old.place)
    (hid : path.id = pathId row.place) (howner : path.owner = row.id)
    (hstate : path.state = .writing ↔ row.state = .writing)
    (hfree : ∀ p, db.paths.get (pathId row.place) = some p → p.state = .writing → p.owner = row.id) :
    (db.transact [.projection row, .path path]).Owned pathId := by
  constructor
  · intro id r hr hwriting
    simp only [transact, foldl_cons, foldl_nil, write, get_put] at hr ⊢
    split at hr
    · next hsame =>
      obtain rfl := some.inj hr
      refine ⟨path, ?_, howner.trans hsame.symm, hstate.mpr hwriting⟩
      rw [if_pos hid.symm]
    · next hother =>
      obtain ⟨p, hp, hpowner, hpwriting⟩ := hdb.writing id r hr hwriting
      refine ⟨p, ?_, hpowner, hpwriting⟩
      rw [if_neg]
      · exact hp
      · intro heq
        rw [heq, hid] at hp
        exact hother (hpowner.symm.trans (hfree p hp hpwriting))
  · intro key p hp
    simp only [transact, foldl_cons, foldl_nil, write, get_put] at hp ⊢
    split at hp
    · next hsame =>
      obtain rfl := some.inj hp
      refine ⟨row, ?_, hid.symm.trans hsame.symm, hstate.mp⟩
      rw [if_pos howner]
    · next hother =>
      obtain ⟨r, hr, hrplace, hwriting⟩ := hdb.owner key p hp
      refine ⟨r, ?_, hrplace, hwriting⟩
      rw [if_neg]
      · exact hr
      · intro heq
        rw [heq, hold] at hr
        obtain rfl := some.inj hr
        rw [hid, hplace] at hother
        exact hother hrplace.symm

/-- Only the state and the receipt of a projection change. -/
def Projection.Follows (old new : Projection U) : Prop :=
  new = { old with state := new.state, receipt := new.receipt }

def History.claimIds (h : History U D K) : List U := h.claims.map fun c ↦ c.projection.id

def History.finishedIds (h : History U D K) : List U := h.finished.map Projection.id

/-- The state of a projection tells what has happened to it. -/
structure History.Tracked (h : History U D K) : Prop where
  claimed : ∀ id row, h.db.projections.get id = some row → (row.state = .reserved ↔ id ∉ h.claimIds)
  finished : ∀ id row, h.db.projections.get id = some row →
    (row.state = .published ↔ id ∈ h.finishedIds)
  stored : ∀ c ∈ h.claims, ∃ row, h.db.projections.get c.projection.id = some row ∧
    c.projection.Follows row
  storedFinished : ∀ p ∈ h.finished, ∃ row, h.db.projections.get p.id = some row ∧ p.Follows row
  claimsOnce : h.claimIds.Nodup
  finishedOnce : h.finishedIds.Nodup

/-- Growing the journal by rows that follow the ones there. -/
theorem follows_put {old row : Projection U} (hfollows : old.Follows row)
    (hold : db.projections.get row.id = some old) {p : Projection U}
    (hp : ∃ r, db.projections.get p.id = some r ∧ p.Follows r) :
    ∃ r, (db.projections.put row).get p.id = some r ∧ p.Follows r := by
  obtain ⟨r, hr, hpr⟩ := hp
  rw [get_put]
  split
  · next hsame =>
    rw [hsame, hold] at hr
    obtain rfl := some.inj hr
    refine ⟨row, rfl, ?_⟩
    unfold Projection.Follows at hfollows hpr ⊢
    rw [hfollows, hpr]
  · exact ⟨r, hr, hpr⟩

variable {h : History U D K}

section

variable (hh : h.Tracked) {row : Projection U}
include hh

theorem History.Tracked.reserve (hstate : row.state = .reserved)
    (hnew : h.db.projections.get row.id = none) :
    History.Tracked { h with db := h.db.transact [.projection row] } := by
  have hkeep (p : Projection U) (hp : ∃ r, h.db.projections.get p.id = some r ∧ p.Follows r) :
      ∃ r, (h.db.projections.put row).get p.id = some r ∧ p.Follows r := by
    obtain ⟨r, hr, hpr⟩ := hp
    refine ⟨r, ?_, hpr⟩
    rw [get_put, if_neg]
    · exact hr
    · intro heq
      rw [heq, hnew] at hr
      cases hr
  have hunclaimed : row.id ∉ h.claimIds := by
    intro hmem
    obtain ⟨c, hc, hid⟩ := mem_map.mp hmem
    obtain ⟨r, hr, -⟩ := hh.stored c hc
    rw [hid, hnew] at hr
    cases hr
  have hunfinished : row.id ∉ h.finishedIds := by
    intro hmem
    obtain ⟨p, hp, hid⟩ := mem_map.mp hmem
    obtain ⟨r, hr, -⟩ := hh.storedFinished p hp
    rw [hid, hnew] at hr
    cases hr
  refine ⟨fun id r hr ↦ ?_, fun id r hr ↦ ?_, fun c hc ↦ hkeep _ (hh.stored c hc),
    fun p hp ↦ hkeep p (hh.storedFinished p hp), hh.claimsOnce, hh.finishedOnce⟩
  · simp only [transact, foldl_cons, foldl_nil, write, get_put] at hr
    split at hr
    · next hsame =>
      obtain rfl := some.inj hr
      rw [hsame]
      exact ⟨fun _ ↦ hunclaimed, fun _ ↦ hstate⟩
    · exact hh.claimed id r hr
  · simp only [transact, foldl_cons, foldl_nil, write, get_put] at hr
    split at hr
    · next hsame =>
      obtain rfl := some.inj hr
      rw [hsame, hstate]
      exact ⟨by rintro ⟨⟩, fun hmem ↦ absurd hmem hunfinished⟩
    · exact hh.finished id r hr

theorem History.Tracked.claim {id : U} (hrow : h.db.projections.get id = some row)
    (hstate : row.state = .reserved) (path : Path U K) (head : Option (Head U)) :
    History.Tracked { h with
      db := h.db.transact [.projection { row with state := .writing }, .path path]
      claims := h.claims ++ [⟨row, head⟩] } := by
  obtain rfl : row.id = id := key_of_get hrow
  have hunclaimed : row.id ∉ h.claimIds := (hh.claimed row.id row hrow).mp hstate
  have hfollows : row.Follows { row with state := .writing } := rfl
  have hids : (h.claims ++ [Claim.mk row head]).map (fun c ↦ c.projection.id) =
      h.claimIds ++ [row.id] := by
    simp [claimIds]
  refine ⟨fun id r hr ↦ ?_, fun id r hr ↦ ?_, fun c hc ↦ ?_, fun p hp ↦
    follows_put hfollows hrow (hh.storedFinished p hp), ?_, hh.finishedOnce⟩
  · simp only [transact, foldl_cons, foldl_nil, write, get_put] at hr
    simp only [claimIds, hids, mem_append, mem_singleton, not_or]
    split at hr
    · next hsame =>
      obtain rfl := some.inj hr
      exact ⟨by rintro ⟨⟩, fun hnot ↦ absurd hsame hnot.2⟩
    · next hother =>
      rw [hh.claimed id r hr]
      exact ⟨fun hnot ↦ ⟨hnot, hother⟩, And.left⟩
  · simp only [transact, foldl_cons, foldl_nil, write, get_put] at hr
    split at hr
    · next hsame =>
      obtain rfl := some.inj hr
      have hnot : row.id ∉ h.finishedIds := by
        rw [← hh.finished row.id row hrow, hstate]
        rintro ⟨⟩
      rw [hsame]
      exact ⟨by rintro ⟨⟩, fun hmem ↦ absurd hmem hnot⟩
    · exact hh.finished id r hr
  · obtain hold | hnew := mem_append.mp hc
    · exact follows_put hfollows hrow (hh.stored c hold)
    · obtain rfl := mem_singleton.mp hnew
      exact follows_put hfollows hrow ⟨row, hrow, rfl⟩
  · rw [claimIds, hids]
    exact nodup_append.mpr ⟨hh.claimsOnce, nodup_singleton _, by
      rintro a ha b hb rfl
      exact hunclaimed (mem_singleton.mp hb ▸ ha)⟩

theorem History.Tracked.finish {id : U} (hrow : h.db.projections.get id = some row)
    (hstate : row.state = .writing) (path : Path U K) (receipt : U) : History.Tracked { h with
      db := h.db.transact
        [.projection { row with state := .published, receipt := some receipt }, .path path]
      finished := h.finished ++ [row] } := by
  obtain rfl : row.id = id := key_of_get hrow
  have hunfinished : row.id ∉ h.finishedIds := by
    rw [← hh.finished row.id row hrow, hstate]
    rintro ⟨⟩
  have hfollows : row.Follows { row with state := .published, receipt := some receipt } := rfl
  have hids : (h.finished ++ [row]).map Projection.id = h.finishedIds ++ [row.id] := by
    simp [finishedIds]
  refine ⟨fun id r hr ↦ ?_, fun id r hr ↦ ?_, fun c hc ↦ follows_put hfollows hrow (hh.stored c hc),
    fun p hp ↦ ?_, hh.claimsOnce, ?_⟩
  · simp only [transact, foldl_cons, foldl_nil, write, get_put] at hr
    split at hr
    · next hsame =>
      obtain rfl := some.inj hr
      have hclaimed : row.id ∈ h.claimIds := by
        by_contra hnot
        rw [← hh.claimed row.id row hrow, hstate] at hnot
        cases hnot
      rw [hsame]
      exact ⟨by rintro ⟨⟩, fun hnot ↦ absurd hclaimed hnot⟩
    · exact hh.claimed id r hr
  · simp only [transact, foldl_cons, foldl_nil, write, get_put] at hr
    simp only [finishedIds, hids, mem_append, mem_singleton]
    split at hr
    · next hsame =>
      obtain rfl := some.inj hr
      exact ⟨fun _ ↦ .inr hsame, fun _ ↦ rfl⟩
    · next hother =>
      rw [hh.finished id r hr]
      exact ⟨.inl, fun hor ↦ hor.resolve_right hother⟩
  · obtain hold | hnew := mem_append.mp hp
    · exact follows_put hfollows hrow (hh.storedFinished p hold)
    · obtain rfl := mem_singleton.mp hnew
      exact follows_put hfollows hrow ⟨_, hrow, rfl⟩
  · rw [finishedIds, hids]
    exact nodup_append.mpr ⟨hh.finishedOnce, nodup_singleton _, by
      rintro a ha b hb rfl
      exact hunfinished (mem_singleton.mp hb ▸ ha)⟩

end

def Claim.generation (c : Claim U) : ℕ := (c.head.map Head.generation).getD 0

/-- A claim is of the head that its node had, and the heads of a node only grow. -/
structure History.Current (h : History U D K) : Prop where
  current : ∀ c ∈ h.claims, c.projection.kind.headed = true → ∃ head row, c.head = some head ∧
    head.revision = c.projection.revision ∧ h.db.revisions.get head.revision = some row ∧
    row.node = c.projection.node ∧ row.generation = head.generation ∧
    head.generation ≤ h.db.newest c.projection.node
  order : h.claims.Pairwise fun c c' ↦ c.projection.node = c'.projection.node →
    c.projection.kind.headed = true → c'.projection.kind.headed = true →
    c.generation ≤ c'.generation

theorem Db.newest_record (db : Db U D K) (row : Revision U D) (node : U) :
    (db.transact [.revision row,
      .head ⟨row.node, row.room, row.revision, row.generation⟩]).newest node =
      if node = row.node then row.generation else db.newest node := by
  simp only [newest, transact, foldl_cons, foldl_nil, write, get_put]
  split <;> rfl

theorem History.Current.record (hh : h.Current) {row : Revision U D}
    (hnew : h.db.revisions.get row.revision = none)
    (hgeneration : row.generation = h.db.newest row.node + 1) : History.Current { h with
      db := h.db.transact
        [.revision row, .head ⟨row.node, row.room, row.revision, row.generation⟩] } := by
  refine ⟨fun c hc hheaded ↦ ?_, hh.order⟩
  obtain ⟨head, r, hhead, hrevision, hr, hnode, hgen, hle⟩ := hh.current c hc hheaded
  refine ⟨head, r, hhead, hrevision, revisions_kept hnew hr, hnode, hgen, ?_⟩
  rw [newest_record]
  split
  · next hsame =>
    rw [hsame] at hle
    omega
  · exact hle

theorem History.Current.claim (hh : h.Current) (hdb : h.db.Ordered) {row : Projection U}
    {path : Path U K} (hcurrent : row.kind.headed → ∃ head, h.db.heads.get row.node = some head ∧
      head.room = row.room ∧ head.revision = row.revision) : History.Current { h with
      db := h.db.transact [.projection { row with state := .writing }, .path path]
      claims := h.claims ++ [⟨row, h.db.heads.get row.node⟩] } := by
  refine ⟨fun c hc hheaded ↦ ?_, ?_⟩
  · obtain hold | hnew := mem_append.mp hc
    · exact hh.current c hold hheaded
    · obtain rfl := mem_singleton.mp hnew
      obtain ⟨head, hhead, -, hrevision⟩ := hcurrent hheaded
      obtain ⟨r, hr, hnode, hgen⟩ := hdb.head row.node head hhead
      exact ⟨head, r, hhead, hrevision, hr, hnode, hgen, (newest_of_head hhead).ge⟩
  · refine pairwise_append.mpr ⟨hh.order, pairwise_singleton _ _, ?_⟩
    intro c hc c' hc' hnode hheaded hheaded'
    obtain rfl := mem_singleton.mp hc'
    obtain ⟨head, -, hhead, -, -, -, -, hle⟩ := hh.current c hc hheaded
    rw [hnode] at hle
    simpa [Claim.generation, hhead, newest] using hle

/-- What the projections that finished have left at every place. -/
def History.Filled (pathId : Place U → K) (h : History U D K) : Prop :=
  ∀ place, (h.db.paths.get (pathId place)).bind Path.content =
    (h.finished.filter fun p ↦ p.place = place).getLast?.map Projection.content

theorem History.Filled.claim (hh : h.Filled pathId) (row : Projection U) {path : Path U K}
    (hcontent : path.content = (h.db.paths.get path.id).bind Path.content)
    (claims : List (Claim U)) : History.Filled pathId
      { h with db := h.db.transact [.projection row, .path path], claims := claims } := by
  intro place
  rw [← hh place]
  simp only [transact, foldl_cons, foldl_nil, write, get_put]
  split
  · next hsame =>
    rw [hsame, ← hcontent]
    rfl
  · rfl

theorem History.Filled.finish (hinj : Function.Injective pathId) (hh : h.Filled pathId)
    {old row : Projection U} {path : Path U K} (hid : path.id = pathId old.place)
    (hcontent : path.content = some old.content) : History.Filled pathId { h with
      db := h.db.transact [.projection row, .path path]
      finished := h.finished ++ [old] } := by
  intro place
  simp only [transact, foldl_cons, foldl_nil, write, get_put,
    filter_append]
  by_cases hsame : old.place = place
  · rw [if_pos (by rw [hid, hsame])]
    simp [hsame, hcontent]
  · rw [if_neg (fun heq ↦ hsame (hinj (hid.symm.trans heq.symm)))]
    simpa [hsame] using hh place

structure History.Sound (pathId : Place U → K) (h : History U D K) : Prop where
  ordered : h.db.Ordered
  owned : h.db.Owned pathId
  tracked : h.Tracked
  current : h.Current
  filled : h.Filled pathId

theorem History.sound_init (pathId : Place U → K) : History.Sound pathId ({} : History U D K) where
  ordered := ⟨nofun, nofun, nofun, nofun⟩
  owned := ⟨nofun, nofun⟩
  tracked := ⟨nofun, nofun, nofun, nofun, nodup_nil, nodup_nil⟩
  current := ⟨nofun, .nil⟩
  filled := fun _ ↦ rfl

section Step

variable [DecidableEq D] {pathId : Place U → K} {h : History U D K}

theorem History.Sound.record (hh : h.Sound pathId) (row : Revision U D) (previous : Option U) :
    (step pathId h (.record row previous)).Sound pathId := by
  simp only [step]
  split
  · next tx htx =>
    obtain ⟨-, rfl⟩ | ⟨hnew, hgeneration, -, rfl⟩ := recordTx_eq_ok htx
    · exact hh
    · exact ⟨hh.ordered.record hnew hgeneration, ⟨hh.owned.writing, hh.owned.owner⟩,
        { hh.tracked with },
        hh.current.record hnew hgeneration, hh.filled⟩
  · exact hh

theorem History.Sound.reserve (hh : h.Sound pathId) (intent : Intent U) :
    (step pathId h (.reserve intent)).Sound pathId := by
  simp only [step]
  split
  · next tx htx =>
    obtain rfl | ⟨hnew, rfl⟩ := reserveProjectionTx_eq_ok htx
    · exact hh
    · exact ⟨{ hh.ordered with },
        hh.owned.reserve intent.reserved hnew, hh.tracked.reserve intent.reserved hnew,
        ⟨hh.current.current, hh.current.order⟩, hh.filled⟩
  · exact hh

theorem History.Sound.claim (hh : h.Sound pathId) (id : U) (expectedOwner : Option U) :
    (step pathId h (.claim id expectedOwner)).Sound pathId := by
  simp only [step]
  split
  · next tx htx =>
    obtain ⟨row, hrow, hstate, hfree, hcurrent, rfl⟩ := claimProjectionTx_eq_ok htx
    have hclaimed : h.db.claimed id = [⟨row, h.db.heads.get row.node⟩] := by
      simp [claimed, hrow]
    rw [hclaimed]
    obtain rfl : row.id = id := key_of_get hrow
    refine ⟨{ hh.ordered with },
      hh.owned.deliver hrow rfl rfl rfl ⟨fun _ ↦ rfl, fun _ ↦ rfl⟩ ?_,
      hh.tracked.claim hrow hstate _ _, hh.current.claim hh.ordered hcurrent,
      hh.filled.claim _ rfl _⟩
    intro p hp hwriting
    rw [hfree p hp] at hwriting
    cases hwriting
  · exact hh

section

variable (hinj : Function.Injective pathId)
include hinj

theorem History.Sound.finish (hh : h.Sound pathId) (id receipt : U) :
    (step pathId h (.finish id receipt)).Sound pathId := by
  simp only [step]
  split
  · next tx htx =>
    obtain ⟨row, path, hrow, hpath, hstate, howner, hwriting, rfl⟩ := finishProjectionTx_eq_ok htx
    rw [hrow]
    obtain rfl : row.id = id := key_of_get hrow
    have hid : path.id = pathId row.place := key_of_get hpath
    refine ⟨{ hh.ordered with },
      hh.owned.deliver hrow rfl hid howner ⟨by rintro ⟨⟩, by rintro ⟨⟩⟩ ?_,
      hh.tracked.finish hrow hstate _ _, ⟨hh.current.current, hh.current.order⟩,
      hh.filled.finish hinj hid rfl⟩
    intro p hp _
    obtain rfl := some.inj (hpath.symm.trans hp)
    exact howner
  · exact hh

theorem History.Sound.step (hh : h.Sound pathId) (e : Event U D) :
    (step pathId h e).Sound pathId := by
  cases e with
  | record row previous => exact hh.record row previous
  | reserve intent => exact hh.reserve intent
  | claim id expectedOwner => exact hh.claim id expectedOwner
  | finish id receipt => exact hh.finish hinj id receipt

theorem History.sound_run (events : List (Event U D)) :
    (run (Summaries.step pathId) ({} : History U D K) events).Sound pathId :=
  run_preserves (History.Sound pathId) (fun _ e hh ↦ hh.step hinj e) (History.sound_init pathId)
    events

end

end Step

theorem Db.Ordered.generations (hdb : db.Ordered) (node : U) (g : ℕ) :
    (1 ≤ g ∧ g ≤ db.newest node) ↔
      ∃ id row, db.revisions.get id = some row ∧ row.node = node ∧ row.generation = g := by
  constructor
  · rintro ⟨hpos, hle⟩
    cases hhead : db.heads.get node with
    | none =>
      have hzero : db.newest node = 0 := by simp [newest, hhead]
      omega
    | some head =>
      rw [newest_of_head hhead] at hle
      exact hdb.covered node head hhead g hpos hle
  · rintro ⟨id, row, hrow, rfl, rfl⟩
    obtain ⟨hpos, head, hhead, hle⟩ := hdb.bounded id row hrow
    exact ⟨hpos, hle.trans (newest_of_head hhead).ge⟩

/-- Two claims of a node in one generation deliver the same revision. -/
theorem History.Sound.revision_eq (hh : h.Sound pathId) {c c' : Claim U} (hc : c ∈ h.claims)
    (hc' : c' ∈ h.claims) (hnode : c.projection.node = c'.projection.node)
    (hheaded : c.projection.kind.headed) (hheaded' : c'.projection.kind.headed)
    (hgen : c.generation = c'.generation) : c.projection.revision = c'.projection.revision := by
  obtain ⟨head, row, hhead, hrevision, hrow, hrownode, hrowgen, -⟩ :=
    hh.current.current c hc hheaded
  obtain ⟨head', row', hhead', hrevision', hrow', hrownode', hrowgen', -⟩ :=
    hh.current.current c' hc' hheaded'
  have hsame : row = row' := by
    apply hh.ordered.unique _ _ row row' hrow hrow'
    · rw [hrownode, hnode, hrownode']
    · simpa [Claim.generation, hhead, hhead', hrowgen, hrowgen'] using hgen
  calc c.projection.revision = row.revision := by rw [key_of_get hrow, hrevision]
    _ = row'.revision := by rw [hsame]
    _ = c'.projection.revision := by rw [key_of_get hrow', hrevision']

/-- Generations of a node are `1..n`; a projection is claimed once, for the head of its node, and
finished once; and a path has the content of the projection that finished there last. -/
theorem summaries_never_go_back [DecidableEq D] (pathId : Place U → K)
    (hinj : Function.Injective pathId) (events : List (Event U D)) :
    let h := run (step pathId) ({} : History U D K) events
    (∀ node g, (1 ≤ g ∧ g ≤ h.db.newest node) ↔
      ∃ id row, h.db.revisions.get id = some row ∧ row.node = node ∧ row.generation = g) ∧
    (∀ id id' row row', h.db.revisions.get id = some row → h.db.revisions.get id' = some row' →
      row.node = row'.node → row.generation = row'.generation → row = row') ∧
    (∀ node head, h.db.heads.get node = some head → ∃ row,
      h.db.revisions.get head.revision = some row ∧ row.node = node ∧
      row.generation = h.db.newest node) ∧
    (∀ id row, h.db.projections.get id = some row → row.state = .writing →
      (∃ path, h.db.paths.get (pathId row.place) = some path ∧ path.owner = id ∧
        path.state = .writing) ∧
      ∀ id' row', h.db.projections.get id' = some row' → row'.state = .writing →
        row'.place = row.place → id' = id) ∧
    (h.claimIds.Nodup ∧ h.finishedIds.Nodup ∧
      ∀ id row, h.db.projections.get id = some row → (row.state = .reserved ↔ id ∉ h.claimIds) ∧
        (row.state = .published ↔ id ∈ h.finishedIds)) ∧
    (∀ c ∈ h.claims, (∃ row, h.db.projections.get c.projection.id = some row ∧
        c.projection.Follows row) ∧
      (c.projection.kind.headed = true →
        ∃ head, c.head = some head ∧ head.revision = c.projection.revision)) ∧
    (∀ p ∈ h.finished, ∃ row, h.db.projections.get p.id = some row ∧ p.Follows row) ∧
    (h.claims.Pairwise fun c c' ↦ c.projection.node = c'.projection.node →
      c.projection.kind.headed = true → c'.projection.kind.headed = true →
      c.generation ≤ c'.generation ∧ (c.generation = c'.generation →
        c.projection.revision = c'.projection.revision ∧ c.projection.id ≠ c'.projection.id)) ∧
    ∀ place, (h.db.paths.get (pathId place)).bind Path.content =
      (h.finished.filter fun p ↦ p.place = place).getLast?.map Projection.content := by
  intro h
  have hh : h.Sound pathId := History.sound_run hinj events
  refine ⟨hh.ordered.generations, hh.ordered.unique, fun node head hhead ↦ ?_,
    fun id row hrow hwriting ↦ ⟨hh.owned.writing id row hrow hwriting, ?_⟩,
    ⟨hh.tracked.claimsOnce, hh.tracked.finishedOnce, fun id row hrow ↦
      ⟨hh.tracked.claimed id row hrow, hh.tracked.finished id row hrow⟩⟩,
    fun c hc ↦ ⟨hh.tracked.stored c hc, fun hheaded ↦ ?_⟩, hh.tracked.storedFinished, ?_,
    hh.filled⟩
  · rw [newest_of_head hhead]
    exact hh.ordered.head node head hhead
  · intro id' row' hrow' hwriting' hplace
    obtain ⟨path, hpath, howner, -⟩ := hh.owned.writing id row hrow hwriting
    obtain ⟨path', hpath', howner', -⟩ := hh.owned.writing id' row' hrow' hwriting'
    rw [hplace, hpath] at hpath'
    obtain rfl := some.inj hpath'
    exact howner'.symm.trans howner
  · obtain ⟨head, -, hhead, hrevision, -⟩ := hh.current.current c hc hheaded
    exact ⟨head, hhead, hrevision⟩
  · have hdistinct : h.claims.Pairwise fun c c' ↦ c.projection.id ≠ c'.projection.id :=
      pairwise_map.mp hh.tracked.claimsOnce
    refine (hh.current.order.and hdistinct).imp_of_mem ?_
    rintro c c' hc hc' ⟨hle, hne⟩ hnode hheaded hheaded'
    exact ⟨hle hnode hheaded hheaded', fun hgen ↦
      ⟨hh.revision_eq hc hc' hnode hheaded hheaded' hgen, hne⟩⟩

/-- A revision is rendered again after its first rendering is published. -/
def renderedAgain : List (Event ℕ Unit) :=
  let projection (id content : ℕ) : Projection ℕ :=
    { id, revision := 1, sourceBasis := none, kind := .markdown, target := 3, room := 4, node := 5
      path := "summaries/a.md", state := .reserved, content, intent := 6, receipt := none }
  [.record ⟨1, 5, 4, 1, ()⟩ none, .reserve ⟨projection 10 100, rfl, rfl⟩, .claim 10 none,
    .reserve ⟨projection 11 101, rfl, rfl⟩, .claim 11 (some 10), .finish 10 7, .claim 11 (some 10)]

theorem summaries_never_go_back_example :
    let h := run (step id) ({} : History ℕ Unit (Place ℕ)) renderedAgain
    h.claimIds = [10, 11] ∧ (h.db.paths.get ⟨4, 3, "summaries/a.md"⟩).bind Path.content =
      (h.finished.filter fun p ↦ p.place = ⟨4, 3, "summaries/a.md"⟩).getLast?.map
        Projection.content :=
  ⟨by decide, (summaries_never_go_back id Function.injective_id renderedAgain).2.2.2.2.2.2.2.2 _⟩

/-- The claims of one path for one node need not have increasing generations. -/
theorem generations_may_repeat :
    ¬ (run (step id) ({} : History ℕ Unit (Place ℕ)) renderedAgain).claims.Pairwise fun c c' ↦
      c.projection.node = c'.projection.node → c.projection.place = c'.projection.place →
      c.projection.kind.headed = true → c'.projection.kind.headed = true →
      c.generation < c'.generation := by
  decide

end Simmis.Summaries
