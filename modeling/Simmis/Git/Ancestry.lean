import Mathlib.Data.Int.Notation
import Simmis.Library.Searches

/-!
# Ancestry in commit metadata

A commit is shown to be an ancestor by a path of parent edges, and not to be one by the exploration
of its complete history. The exploration refuses missing rows, stubs of an import, rows with too
many parents and cycles, and is charged to the budget of the caller.
-/

namespace Simmis.Git

open List Option Relation Searches

/-- `:reason` of evidence that is held. -/
inductive HeldReason
  | invalidHistory
  | cyclicHistory
  | historyUnavailable
  | historyLimit
deriving DecidableEq

/-- A refusal, or an exception of the budget or of the object library. -/
inductive HistoryFailure (ε : Type)
  | held (reason : HeldReason)
  | raised (e : ε)
deriving DecidableEq

inductive Resource
  | commitVisits
  | graphEdges
  | objectBytes
deriving DecidableEq

/-- The budget library: what it raises, and the operation afterwards. -/
structure Budget (β ε : Type) where
  requireLimits : β → List Resource → Except ε Unit
  check : β → Except ε β
  charge : β → Resource → ℕ → Except ε β

def raising {α ε : Type} : Except ε α → Except (HistoryFailure ε) α
  | .ok a => .ok a
  | .error e => .error (.raised e)

namespace GithubAncestry

/-- A commit; its parents are the values of its datoms in index order. -/
structure Row (U : Type) where
  eid : ℕ
  id : Option U
  parents : List ℕ
  snapshot : Option ℕ
  time : Option ℤ

/-- A frontier stub carries only its ids. -/
def Row.isStub {U : Type} (row : Row U) : Bool :=
  row.parents.isEmpty && row.snapshot.isNone && row.time.isNone

abbrev Db (U : Type) := List (Row U)

variable {U β ε : Type} [DecidableEq U] (budget : Budget β ε) (db : Db U)

/-- `(d/entity db [:geschichte.commit/id id])` -/
def entity (id : U) : Option (Row U) := db.find? (·.id = some id)

/-- `:geschichte.commit/id` of a referenced entity. -/
def parentId (eid : ℕ) : Option U := (db.find? (·.eid = eid)).bind Row.id

/-- A commit that is entered: nothing if it is the ancestor, else its parents. -/
def visit (ancestor id : U) (operation : β) : Except (HistoryFailure ε) (Option (List U × β)) := do
  let operation ← raising (budget.charge operation .commitVisits 1)
  match entity db id with
  | none => .error (.held .historyUnavailable)
  | some row =>
    if id = ancestor then .ok none
    else
      let edges := row.parents.take 17
      if 16 < edges.length then .error (.held .historyLimit)
      else do
        let operation ← raising (budget.charge operation .graphEdges edges.length)
        if row.isStub then .error (.held .historyUnavailable)
        else match edges.mapM (parentId db) with
          | some parents => .ok (some (parents, operation))
          | none => .error (.held .historyUnavailable)

/-- The loop, with fuel. The last of the pending entries is the first one here. -/
def loop (ancestor : U) : ℕ → Depth U → β → Option (Except (HistoryFailure ε) (Bool × List U))
  | 0, _, _ => none
  | fuel + 1, s, operation =>
    match raising (budget.check operation), s.pending with
    | .error e, _ => some (.error e)
    | .ok _, [] => some (.ok (false, s.finished))
    | .ok operation, (id, true) :: rest =>
      loop ancestor fuel ⟨rest, s.active.filter (· ≠ id), id :: s.finished⟩ operation
    | .ok operation, (id, false) :: rest =>
      if id ∈ s.active then some (.error (.held .cyclicHistory))
      else if id ∈ s.finished then loop ancestor fuel ⟨rest, s.active, s.finished⟩ operation
      else match visit budget db ancestor id operation with
        | .error e => some (.error e)
        | .ok none => some (.ok (true, s.finished))
        | .ok (some (parents, operation)) =>
          loop ancestor fuel
            ⟨above parents.reverse ((id, true) :: rest), id :: s.active, s.finished⟩ operation

/-- Passes that suffice for every commit with its parents. -/
def fuel : ℕ := 18 * db.length + 2

/-- `proven-ancestor?`; the commits are nothing where they are no UUIDs. -/
def provenAncestor (ancestor descendant : Option U) (operation : β) :
    Option (Except (HistoryFailure ε) (Bool × List U)) :=
  match raising (budget.requireLimits operation [.commitVisits, .graphEdges]),
      ancestor, descendant with
  | .error e, _, _ => some (.error e)
  | .ok _, some ancestor, some descendant =>
    loop budget db ancestor (fuel db) ⟨[(descendant, false)], [], []⟩ operation
  | .ok _, _, _ => some (.error (.held .invalidHistory))

/-- A parent edge. -/
def Parent (id parent : U) : Prop :=
  ∃ row, entity db id = some row ∧ ∃ eid ∈ row.parents, parentId db eid = some parent

/-- The row of a commit is there with all its parents, and it is no stub. -/
structure Known (id : U) (row : Row U) : Prop where
  entity : entity db id = some row
  stub : row.isStub = false
  limit : row.parents.length ≤ 16
  parents : ∀ eid ∈ row.parents, (parentId db eid).isSome

variable {budget db}

omit [DecidableEq U] in
theorem mem_parents {edges : List ℕ} {parents : List U}
    (h : edges.mapM (parentId db) = some parents) :
    parents.length = edges.length ∧ (∀ eid ∈ edges, (parentId db eid).isSome) ∧
      ∀ parent, parent ∈ parents ↔ ∃ eid ∈ edges, parentId db eid = some parent := by
  induction edges generalizing parents with
  | nil =>
    cases h
    simp
  | cons eid edges ih =>
    simp only [mapM_cons, bind_eq_bind, bind_eq_some_iff] at h
    obtain ⟨parent, hparent, later, hlater, h⟩ := h
    cases h
    obtain ⟨hlength, hsome, hmem⟩ := ih hlater
    refine ⟨by simp [hlength], forall_mem_cons.mpr ⟨by simp [hparent], hsome⟩, fun w ↦ ?_⟩
    simp only [mem_cons, exists_eq_or_imp, hmem, hparent, some.injEq]
    rw [eq_comm]

theorem raising_ne {α : Type} {x : Except ε α} {reason : HeldReason} :
    raising x ≠ .error (.held reason) := by
  cases x <;> simp [raising]

/-- What entering a commit says about it. -/
def Visited (db : Db U) (ancestor id : U) : Except (HistoryFailure ε) (Option (List U × β)) → Prop
  | .ok none => id = ancestor
  | .ok (some (parents, _)) => id ≠ ancestor ∧ parents.length ≤ 16 ∧
      (∃ row, Known db id row) ∧ ∀ parent, parent ∈ parents ↔ Parent db id parent
  | .error failure => failure ≠ .held .cyclicHistory

theorem visit_visited (ancestor id : U) (operation : β) :
    Visited db ancestor id (visit budget db ancestor id operation) := by
  unfold visit
  cases hvisits : raising (budget.charge operation .commitVisits 1) with
  | error e => exact fun he ↦ raising_ne (he ▸ hvisits)
  | ok operation =>
    simp only [bind, Except.bind]
    cases hentity : entity db id with
    | none => simp [Visited]
    | some row =>
      dsimp only
      by_cases hfound : id = ancestor
      · rw [if_pos hfound]
        exact hfound
      rw [if_neg hfound]
      by_cases hlimit : 16 < (row.parents.take 17).length
      · rw [if_pos hlimit]
        exact nofun
      rw [if_neg hlimit]
      cases hedges : raising (budget.charge operation .graphEdges (row.parents.take 17).length) with
      | error e => exact fun he ↦ raising_ne (he ▸ hedges)
      | ok operation =>
        dsimp only
        by_cases hstub : row.isStub
        · rw [if_pos hstub]
          exact nofun
        rw [if_neg hstub]
        cases hparents : (row.parents.take 17).mapM (parentId db) with
        | none => exact nofun
        | some parents =>
          have hlength : row.parents.length ≤ 16 := by
            rw [length_take] at hlimit
            omega
          rw [take_of_length_le (by omega)] at hparents
          obtain ⟨hcount, hsome, hmem⟩ := mem_parents hparents
          refine ⟨hfound, ?_, ⟨row, hentity, by simpa using hstub, hlength, hsome⟩, ?_⟩
          · rwa [hcount]
          · intro parent
            rw [hmem]
            constructor
            · rintro ⟨eid, heid, hid⟩
              exact ⟨row, hentity, eid, heid, hid⟩
            · rintro ⟨row', hrow', eid, heid, hid⟩
              cases hentity.symm.trans hrow'
              exact ⟨eid, heid, hid⟩

/-- What an answer of the loop proves about the history of the descendant. -/
def Proves (db : Db U) (ancestor descendant : U) : Except (HistoryFailure ε) (Bool × List U) → Prop
  | .ok (true, _) => ReflTransGen (Parent db) descendant ancestor
  | .ok (false, finished) => ∀ id, ReflTransGen (Parent db) descendant id →
      id ∈ finished ∧ id ≠ ancestor ∧ (∃ row, Known db id row) ∧ ¬ TransGen (Parent db) id id
  | .error failure => failure = .held .cyclicHistory →
      ∃ id, ReflTransGen (Parent db) descendant id ∧ TransGen (Parent db) id id

/-- The commits that were entered are no ancestor and have their rows. -/
def Entered (db : Db U) (ancestor : U) (s : Depth U) : Prop :=
  ∀ id, id ∈ s.active ∨ id ∈ s.finished → id ≠ ancestor ∧ ∃ row, Known db id row

variable {ancestor descendant : U} {operation : β}

theorem loop_proves {fuel : ℕ} {s : Depth U} {answer : Except (HistoryFailure ε) (Bool × List U)}
    (hinv : s.Inv (Parent db) descendant) (hentered : Entered db ancestor s)
    (h : loop budget db ancestor fuel s operation = some answer) :
    Proves db ancestor descendant answer := by
  induction fuel generalizing s operation with
  | zero => cases h
  | succ fuel ih =>
    unfold loop at h
    split at h
    · next e hcheck =>
      cases h
      exact fun he ↦ absurd (he ▸ hcheck) raising_ne
    · next hempty =>
      cases h
      obtain ⟨pending, active, finished⟩ := s
      cases hempty
      intro id hid
      obtain ⟨hfinished, hacyclic⟩ := hinv.complete hid
      obtain ⟨hne, hknown⟩ := hentered id (.inr hfinished)
      exact ⟨hfinished, hne, hknown, hacyclic⟩
    · next operation' id rest _ hpending =>
      obtain ⟨pending, active, finished⟩ := s
      cases hpending
      refine ih (hinv.step .exit) ?_ h
      intro w hw
      refine hentered w ?_
      rcases hw with hw | hw
      · exact .inl (mem_of_mem_filter hw)
      · rcases mem_cons.mp hw with rfl | hw
        · exact .inl ((hinv.active w).mpr (by simp))
        · exact .inr hw
    · next operation' id rest _ hpending =>
      obtain ⟨pending, active, finished⟩ := s
      cases hpending
      have hreach := hinv.trail.reachable (id, false) (by simp)
      split at h
      · next hactive =>
        cases h
        exact fun _ ↦ ⟨id, hreach, hinv.cycle hactive⟩
      split at h
      · next hfinished => exact ih (hinv.step (.skip hfinished)) hentered h
      next hactive hfinished =>
      have hvisited := @visit_visited _ _ _ _ budget db ancestor id operation'
      split at h
      · next failure hvisit =>
        cases h
        rw [hvisit] at hvisited
        exact fun he ↦ absurd he hvisited
      · next hvisit =>
        cases h
        rw [hvisit] at hvisited
        cases hvisited
        exact hreach
      · next parents operation'' hvisit =>
        rw [hvisit] at hvisited
        obtain ⟨hne, -, hknown, hparents⟩ := hvisited
        refine ih (hinv.step (.enter hactive hfinished (by simpa using hparents))) ?_ h
        intro w hw
        rcases hw with hw | hw
        · rcases mem_cons.mp hw with rfl | hw
          · exact ⟨hne, hknown⟩
          · exact hentered w (.inl hw)
        · exact hentered w (.inr hw)

/-- Passes that are left at most. -/
def measure (db : Db U) (s : Depth U) : ℕ :=
  s.pending.length + 18 * fresh Row.id (s.active ++ s.finished) db

theorem loop_returns {fuel : ℕ} {s : Depth U}
    (hinv : s.Inv (Parent db) descendant) (hfuel : measure db s < fuel) :
    loop budget db ancestor fuel s operation ≠ none := by
  induction fuel generalizing s operation with
  | zero => exact absurd hfuel (Nat.not_lt_zero _)
  | succ fuel ih =>
    unfold loop
    split
    · rintro ⟨⟩
    · rintro ⟨⟩
    · next operation' id rest _ hpending =>
      obtain ⟨pending, active, finished⟩ := s
      cases hpending
      refine ih (hinv.step .exit) ?_
      have hfresh := @fresh_le _ _ _ Row.id (active ++ finished)
        (active.filter (· ≠ id) ++ id :: finished) ?_ db
      · simp only [measure, length_cons] at hfuel ⊢
        omega
      · simp only [mem_append, mem_filter, mem_cons, decide_eq_true_eq]
        tauto
    · next operation' id rest _ hpending =>
      obtain ⟨pending, active, finished⟩ := s
      cases hpending
      split
      · rintro ⟨⟩
      split
      · next hfinished =>
        refine ih (hinv.step (.skip hfinished)) ?_
        simp only [measure, length_cons] at hfuel ⊢
        omega
      next hactive hfinished =>
      have hvisited := @visit_visited _ _ _ _ budget db ancestor id operation'
      split
      · rintro ⟨⟩
      · rintro ⟨⟩
      · next parents operation'' hvisit =>
        rw [hvisit] at hvisited
        obtain ⟨-, hlength, ⟨row, hknown⟩, hparents⟩ := hvisited
        refine ih (hinv.step (.enter hactive hfinished (by simpa using hparents))) ?_
        have hrow : row ∈ db := mem_of_find?_eq_some hknown.entity
        have hid : row.id = some id := by
          simpa using find?_some hknown.entity
        have hmet : ∀ w ∈ active ++ finished, w ∈ id :: active ++ finished := fun w hw ↦
          mem_cons_of_mem _ hw
        have hfresh := fresh_lt hmet hrow hid (by simp [hactive, hfinished]) (by simp)
        simp only [measure, above, length_cons, length_append, length_map,
          length_reverse] at hfuel ⊢
        omega

theorem provenAncestor_returns (ancestor descendant : Option U) (operation : β) :
    provenAncestor budget db ancestor descendant operation ≠ none := by
  unfold provenAncestor
  split
  · rintro ⟨⟩
  · refine loop_returns (Depth.inv_init _) ?_
    have hle : fresh Row.id [] db ≤ db.length := countP_le_length
    simp only [measure, fuel, length_cons, length_nil, append_nil]
    omega
  · rintro ⟨⟩

theorem provenAncestor_proves {answer : Except (HistoryFailure ε) (Bool × List U)}
    (h : provenAncestor budget db (some ancestor) (some descendant) operation = some answer) :
    Proves db ancestor descendant answer := by
  unfold provenAncestor at h
  split at h
  · next e _ _ hlimits =>
    cases h
    exact fun he ↦ absurd (he ▸ hlimits) raising_ne
  · next heq heq' =>
    cases heq
    cases heq'
    exact loop_proves (Depth.inv_init _) (by simp [Entered]) h
  · next hnone => exact absurd rfl (hnone _ _ rfl)

/-- A budget without limits. -/
def unlimited : Budget Unit Unit where
  requireLimits _ _ := .ok ()
  check _ := .ok ()
  charge _ _ _ := .ok ()

example : provenAncestor unlimited [⟨1, some 10, [2, 3], none, none⟩,
    ⟨2, some 20, [4], none, none⟩, ⟨3, some 30, [4], none, none⟩,
    ⟨4, some 40, [], none, some 0⟩] (some 50) (some 10) () =
    some (.ok (false, [10, 20, 30, 40])) := by decide

example : provenAncestor unlimited [⟨1, some 10, [2], none, none⟩,
    ⟨2, some 20, [1], none, none⟩] (some 50) (some 10) () =
    some (.error (.held .cyclicHistory)) := by decide

end GithubAncestry

end Simmis.Git
