import Mathlib.Data.List.Nodup
import Mathlib.Logic.Relation

/-!
# Searches of a graph

A search keeps the vertices that it still has to look at. One kind remembers only what it has seen.
The other puts a marker on its stack below the successors of a vertex: a vertex that is met before
its marker is taken lies on a cycle.
-/

namespace Simmis.Searches

open List Option Relation

variable {V : Type*} {next : V → V → Prop} {root : V}

/-- A set with the root and all successors has all that can be reached. -/
theorem mem_of_reachable {s : List V} (hroot : root ∈ s)
    (hclosed : ∀ v ∈ s, ∀ w, next v w → w ∈ s) {v : V} (h : ReflTransGen next root v) : v ∈ s := by
  induction h with
  | refl => exact hroot
  | tail _ hstep ih => exact hclosed _ ih _ hstep

section

variable [DecidableEq V] {ρ : Type*} (vertex : ρ → Option V)

/-- The number of rows whose vertex has not been met. -/
def fresh (met : List V) (rows : List ρ) : ℕ := rows.countP fun row ↦ (vertex row).all (· ∉ met)

variable {vertex} {met met' : List V}

theorem fresh_le (hmet : ∀ v ∈ met, v ∈ met') (rows : List ρ) :
    fresh vertex met' rows ≤ fresh vertex met rows := by
  refine countP_mono_left fun row _ h ↦ ?_
  cases hv : vertex row with
  | none => rfl
  | some v =>
    simp only [hv, all_some, decide_eq_true_eq] at h ⊢
    exact fun hmem ↦ h (hmet v hmem)

theorem fresh_lt {rows : List ρ} (hmet : ∀ v ∈ met, v ∈ met') {row : ρ} (hrow : row ∈ rows) {v : V}
    (hv : vertex row = some v) (hold : v ∉ met) (hnew : v ∈ met') :
    fresh vertex met' rows < fresh vertex met rows := by
  obtain ⟨before, after, rfl⟩ := append_of_mem hrow
  have hbefore := @fresh_le _ _ _ vertex _ _ hmet before
  have hafter := @fresh_le _ _ _ vertex _ _ hmet after
  simp only [fresh, countP_append, countP_cons, hv, all_some] at *
  simp only [hold, hnew, not_true_eq_false, not_false_eq_true, decide_false, decide_true,
    Bool.false_eq_true, if_true, if_false]
  omega

end

/-- Every successor of a vertex stands behind it, and no vertex stands twice. -/
def Ordered (next : V → V → Prop) : List V → Prop
  | [] => True
  | v :: rest => v ∉ rest ∧ (∀ w, next v w → w ∈ rest) ∧ Ordered next rest

theorem Ordered.closed {l : List V} (h : Ordered next l) : ∀ v ∈ l, ∀ w, next v w → w ∈ l := by
  induction l with
  | nil => simp
  | cons a l ih =>
    obtain ⟨-, hnext, hrest⟩ := h
    intro v hv w hvw
    rcases mem_cons.mp hv with rfl | hv
    · exact mem_cons_of_mem _ (hnext w hvw)
    · exact mem_cons_of_mem _ (ih hrest v hv w hvw)

theorem Ordered.acyclic {l : List V} (h : Ordered next l) : ∀ v ∈ l, ¬ TransGen next v v := by
  induction l with
  | nil => simp
  | cons a l ih =>
    obtain ⟨hfresh, hnext, hrest⟩ := h
    intro v hv hcycle
    rcases mem_cons.mp hv with rfl | hv
    · obtain ⟨w, hvw, hwv⟩ := TransGen.head'_iff.mp hcycle
      exact hfresh (mem_of_reachable (hnext w hvw) hrest.closed hwv)
    · exact ih hrest v hv hcycle

/-- What is left to look at, and what has been looked at. -/
structure Walk (V : Type*) where
  pending : List V
  seen : List V

/-- One vertex is taken: it has been seen, or its successors are left to look at. -/
inductive Walk.Step (next : V → V → Prop) : Walk V → Walk V → Prop
  | skip {v : V} {rest seen : List V} (hseen : v ∈ seen) : Step next ⟨v :: rest, seen⟩ ⟨rest, seen⟩
  | visit {v : V} {rest seen children : List V} (hchildren : ∀ w, w ∈ children ↔ next v w) :
    Step next ⟨v :: rest, seen⟩ ⟨children ++ rest, v :: seen⟩

structure Walk.Inv (next : V → V → Prop) (root : V) (s : Walk V) : Prop where
  start : root ∈ s.seen ∨ root ∈ s.pending
  reachable : ∀ v ∈ s.pending, ReflTransGen next root v
  covered : ∀ v ∈ s.seen, ∀ w, next v w → w ∈ s.seen ∨ w ∈ s.pending

theorem Walk.inv_init (root : V) : Inv next root ⟨[root], []⟩ := by
  refine ⟨.inr (by simp), ?_, by simp⟩
  intro v hv
  rw [mem_singleton.mp hv]

theorem Walk.Inv.step {s t : Walk V} (h : Inv next root s) (hstep : Step next s t) :
    Inv next root t := by
  cases hstep with
  | @skip v rest seen hseen =>
    have hmove (w : V) (hw : w ∈ seen ∨ w ∈ v :: rest) : w ∈ seen ∨ w ∈ rest := by
      rcases hw with hw | hw
      · exact .inl hw
      · rcases mem_cons.mp hw with rfl | hw
        · exact .inl hseen
        · exact .inr hw
    exact ⟨hmove _ h.start, fun w hw ↦ h.reachable w (mem_cons_of_mem _ hw),
      fun u hu w huw ↦ hmove w (h.covered u hu w huw)⟩
  | @visit v rest seen children hchildren =>
    have hmove (w : V) (hw : w ∈ seen ∨ w ∈ v :: rest) : w ∈ v :: seen ∨ w ∈ children ++ rest := by
      simp only [mem_cons, mem_append] at hw ⊢
      tauto
    refine ⟨hmove _ h.start, ?_, ?_⟩
    · intro w hw
      rcases mem_append.mp hw with hw | hw
      · exact (h.reachable v (by simp)).tail ((hchildren w).mp hw)
      · exact h.reachable w (mem_cons_of_mem _ hw)
    · intro u hu w huw
      rcases mem_cons.mp hu with rfl | hu
      · exact .inr (mem_append_left _ ((hchildren w).mpr huw))
      · exact hmove w (h.covered u hu w huw)

/-- With nothing left to look at, all that can be reached has been seen. -/
theorem Walk.Inv.complete {seen : List V} (h : Inv next root ⟨[], seen⟩) {v : V}
    (hv : ReflTransGen next root v) : v ∈ seen :=
  mem_of_reachable (by simpa using h.start)
    (fun u hu w huw ↦ by simpa using h.covered u hu w huw) hv

/-- The stack, with a marker after each active vertex, and what was met. -/
structure Depth (V : Type*) where
  pending : List (V × Bool)
  active : List V
  finished : List V

/-- The vertices of the markers, the innermost one first. -/
def markers (stack : List (V × Bool)) : List V := (stack.filter (·.2)).map (·.1)

@[simp] theorem markers_nil : markers ([] : List (V × Bool)) = [] := rfl

@[simp] theorem markers_exit (v : V) (stack : List (V × Bool)) :
    markers ((v, true) :: stack) = v :: markers stack := rfl

@[simp] theorem markers_enter (v : V) (stack : List (V × Bool)) :
    markers ((v, false) :: stack) = markers stack := rfl

/-- Vertices to enter, above a stack. -/
def above (children : List V) (stack : List (V × Bool)) : List (V × Bool) :=
  children.map (·, false) ++ stack

theorem above_cons (c : V) (children : List V) (stack : List (V × Bool)) :
    above (c :: children) stack = (c, false) :: above children stack := rfl

@[simp] theorem markers_above (children : List V) (stack : List (V × Bool)) :
    markers (above children stack) = markers stack := by
  induction children with
  | nil => rfl
  | cons c children ih => exact ih

variable {stack : List (V × Bool)}

theorem mem_markers {v : V} : v ∈ markers stack ↔ (v, true) ∈ stack := by
  simp [markers]

/-- Each entry is a successor of the innermost marker below it. -/
def Trail (next : V → V → Prop) (root : V) : List (V × Bool) → Prop
  | [] => True
  | (v, _) :: rest => (∀ p, (markers rest).head? = some p → next p v) ∧
      (markers rest = [] → v = root) ∧ Trail next root rest

/-- Each successor of a marker is done, or stands above the marker. -/
def Covered (next : V → V → Prop) (done : V → Prop) : List (V × Bool) → Prop
  | [] => True
  | (v, exit) :: rest => (exit = true → ∀ w, next v w → done w) ∧
      Covered next (fun w ↦ done w ∨ w = v) rest

theorem Covered.mono {done done' : V → Prop} (hdone : ∀ v, done v → done' v)
    (h : Covered next done stack) : Covered next done' stack := by
  induction stack generalizing done done' with
  | nil => trivial
  | cons e stack ih =>
    exact ⟨fun he w hw ↦ hdone w (h.1 he w hw), ih (fun v hv ↦ hv.imp_left (hdone v)) h.2⟩

theorem Covered.above {done : V → Prop} {children : List V}
    (h : Covered next (fun v ↦ done v ∨ v ∈ children) stack) :
    Covered next done (above children stack) := by
  induction children generalizing done with
  | nil => exact h.mono (by simp)
  | cons c children ih =>
    refine ⟨by simp, ih (h.mono fun v hv ↦ ?_)⟩
    rw [mem_cons] at hv
    tauto

variable {rest : List (V × Bool)}

theorem Trail.above {children : List V} {v : V}
    (h : Trail next root ((v, false) :: rest)) (hchildren : ∀ w ∈ children, next v w) :
    Trail next root (above children ((v, true) :: rest)) := by
  induction children with
  | nil => exact ⟨h.1, h.2.1, h.2.2⟩
  | cons c children ih =>
    rw [above_cons]
    refine ⟨?_, by simp, ih fun w hw ↦ hchildren w (mem_cons_of_mem _ hw)⟩
    intro p hp
    rw [markers_above] at hp
    cases hp
    exact hchildren c (by simp)

theorem Trail.reachable (h : Trail next root stack) : ∀ e ∈ stack, ReflTransGen next root e.1 := by
  induction stack with
  | nil => simp
  | cons e stack ih =>
    obtain ⟨hedge, hroot, hrest⟩ := h
    intro e' he'
    rcases mem_cons.mp he' with rfl | he'
    · cases hmarkers : markers stack with
      | nil => rw [hroot hmarkers]
      | cons p ps =>
        have hp : (p, true) ∈ stack := mem_markers.mp (by simp [hmarkers])
        exact (ih hrest _ hp).tail (hedge p (by simp [hmarkers]))
    · exact ih hrest e' he'

/-- The innermost marker can be reached from every marker. -/
theorem Trail.innermost (h : Trail next root stack) {p : V} (hp : (markers stack).head? = some p) :
    ∀ v ∈ markers stack, ReflTransGen next v p := by
  induction stack generalizing p with
  | nil => simp
  | cons e stack ih =>
    obtain ⟨v, exit⟩ := e
    obtain ⟨hedge, -, hrest⟩ := h
    cases exit with
    | false => exact ih hrest hp
    | true =>
      cases hp
      intro u hu
      rw [markers_exit] at hu
      rcases mem_cons.mp hu with rfl | hu
      · exact .refl
      · cases hmarkers : markers stack with
        | nil =>
          rw [hmarkers] at hu
          cases hu
        | cons q qs =>
          have hq : (markers stack).head? = some q := by simp [hmarkers]
          exact (ih hrest hq u hu).tail (hedge q hq)

/-- A vertex that is met while its marker is on the stack lies on a cycle. -/
theorem Trail.cycle {v : V} (h : Trail next root ((v, false) :: rest)) (hv : v ∈ markers rest) :
    TransGen next v v := by
  obtain ⟨hedge, -, hrest⟩ := h
  cases hmarkers : markers rest with
  | nil => simp [hmarkers] at hv
  | cons p ps =>
    have hp : (markers rest).head? = some p := by simp [hmarkers]
    exact .tail' (hrest.innermost hp v hv) (hedge p hp)

/-- A marker, a finished vertex or a newly active one is taken. -/
inductive Depth.Step [DecidableEq V] (next : V → V → Prop) : Depth V → Depth V → Prop
  | exit {v : V} {rest : List (V × Bool)} {active finished : List V} :
    Step next ⟨(v, true) :: rest, active, finished⟩
      ⟨rest, active.filter (· ≠ v), v :: finished⟩
  | skip {v : V} {rest : List (V × Bool)} {active finished : List V} (hfinished : v ∈ finished) :
    Step next ⟨(v, false) :: rest, active, finished⟩ ⟨rest, active, finished⟩
  | enter {v : V} {rest : List (V × Bool)} {active finished children : List V}
      (hactive : v ∉ active) (hfinished : v ∉ finished)
      (hchildren : ∀ w, w ∈ children ↔ next v w) :
    Step next ⟨(v, false) :: rest, active, finished⟩
      ⟨above children ((v, true) :: rest), v :: active, finished⟩

structure Depth.Inv (next : V → V → Prop) (root : V) (s : Depth V) : Prop where
  start : root ∈ s.finished ∨ root ∈ s.pending.map (·.1)
  trail : Trail next root s.pending
  active : ∀ v, v ∈ s.active ↔ v ∈ markers s.pending
  nodup : (markers s.pending).Nodup
  disjoint : ∀ v ∈ s.active, v ∉ s.finished
  covered : Covered next (· ∈ s.finished) s.pending
  ordered : Ordered next s.finished

theorem Depth.inv_init (root : V) : Inv next root ⟨[(root, false)], [], []⟩ :=
  ⟨.inr (by simp), ⟨by simp, by simp, trivial⟩, by simp, by simp, by simp,
    ⟨by simp, trivial⟩, trivial⟩

theorem Depth.Inv.step [DecidableEq V] {s t : Depth V} (h : Inv next root s)
    (hstep : Step next s t) : Inv next root t := by
  cases hstep with
  | @exit v rest active finished =>
    obtain ⟨hfresh, hnodup⟩ := nodup_cons.mp h.nodup
    refine ⟨?_, h.trail.2.2, ?_, hnodup, ?_, ?_, ?_⟩
    · have := h.start
      simp only [map_cons, mem_cons] at this ⊢
      tauto
    · intro w
      have hw := h.active w
      simp only [markers_exit, mem_cons] at hw
      simp only [mem_filter, decide_eq_true_eq, hw]
      constructor
      · rintro ⟨rfl | hw, hne⟩
        · exact absurd rfl hne
        · exact hw
      · intro hw
        exact ⟨.inr hw, fun heq ↦ hfresh (heq ▸ hw)⟩
    · intro w hw
      obtain ⟨hw, hne⟩ := mem_filter.mp hw
      have := h.disjoint w hw
      simp only [mem_cons, not_or]
      exact ⟨by simpa using hne, this⟩
    · exact h.covered.2.mono fun w hw ↦ mem_cons.mpr hw.symm
    · exact ⟨h.disjoint v ((h.active v).mpr (by simp)), h.covered.1 rfl, h.ordered⟩
  | @skip v rest active finished hfinished =>
    refine ⟨?_, h.trail.2.2, h.active, h.nodup, h.disjoint, ?_, h.ordered⟩
    · rcases h.start with hroot | hroot
      · exact .inl hroot
      · rcases mem_cons.mp hroot with rfl | hroot
        · exact .inl hfinished
        · exact .inr hroot
    · refine h.covered.2.mono ?_
      rintro w (hw | rfl)
      · exact hw
      · exact hfinished
  | @enter v rest active finished children hactive hfinished hchildren =>
    refine ⟨?_, h.trail.above fun w hw ↦ (hchildren w).mp hw, ?_, ?_, ?_, ?_, h.ordered⟩
    · have := h.start
      simp only [above, map_append, mem_append, map_cons, mem_cons] at this ⊢
      tauto
    · intro w
      have hw := h.active w
      simp [hw]
    · have hv : v ∉ markers rest := fun hv ↦ hactive ((h.active v).mpr hv)
      rw [markers_above, markers_exit]
      exact nodup_cons.mpr ⟨hv, h.nodup⟩
    · intro w hw
      rcases mem_cons.mp hw with rfl | hw
      · exact hfinished
      · exact h.disjoint w hw
    · refine Covered.above ⟨fun _ w hw ↦ .inr ((hchildren w).mpr hw), h.covered.2.mono ?_⟩
      tauto

/-- A vertex to enter that is active lies on a cycle. -/
theorem Depth.Inv.cycle {v : V} {active finished : List V}
    (h : Inv next root ⟨(v, false) :: rest, active, finished⟩) (hv : v ∈ active) :
    TransGen next v v :=
  h.trail.cycle ((h.active v).mp hv)

/-- In the end all that can be reached is finished and on no cycle. -/
theorem Depth.Inv.complete {active finished : List V} (h : Inv next root ⟨[], active, finished⟩)
    {v : V} (hv : ReflTransGen next root v) : v ∈ finished ∧ ¬ TransGen next v v := by
  have hmem := mem_of_reachable (by simpa using h.start) h.ordered.closed hv
  exact ⟨hmem, h.ordered.acyclic v hmem⟩

end Simmis.Searches
