import Mathlib.Logic.Unique

/-!
# Checked computations

A transaction function either throws a refusal or returns its datoms. It is a chain of checks and
lookups in `Except`; these rules read back from an accepted result what each link has established.
-/

namespace Simmis

universe u

variable {ε : Type*} {α β : Type u}

theorem bind_eq_ok {x : Except ε α} {f : α → Except ε β} {b : β} :
    (x >>= f) = .ok b ↔ ∃ a, x = .ok a ∧ f a = .ok b := by
  cases x with
  | ok a => simp [bind, Except.bind]
  | error e => simp [bind, Except.bind]

theorem map_eq_ok {x : Except ε α} {f : α → β} {b : β} :
    f <$> x = .ok b ↔ ∃ a, x = .ok a ∧ f a = b := by
  cases x with
  | ok a => simp [Functor.map, Except.map]
  | error e => simp [Functor.map, Except.map]

/-- Refuse with `e` unless `p`. -/
def require (p : Prop) [Decidable p] (e : ε) : Except ε Unit := if p then .ok () else .error e

@[simp] theorem require_eq_ok {p : Prop} [Decidable p] {e : ε} {u : Unit} :
    require p e = .ok u ↔ p := by
  unfold require
  split <;> simp [*]

theorem require_bind_eq_ok {β : Type} {p : Prop} [Decidable p] {e : ε}
    {f : Unit → Except ε β} {b : β} : (require p e >>= f) = .ok b ↔ p ∧ f () = .ok b := by
  rw [bind_eq_ok, Unique.exists_iff, require_eq_ok]

/-- What an option holds; refuse with `e` if it holds nothing. -/
def demand (o : Option α) (e : ε) : Except ε α :=
  match o with
  | some a => .ok a
  | none => .error e

@[simp] theorem demand_eq_ok {o : Option α} {e : ε} {a : α} : demand o e = .ok a ↔ o = some a := by
  cases o <;> simp [demand]

theorem mapError_eq_ok {ε' : Type*} {f : ε → ε'} {x : Except ε α} {a : α} :
    x.mapError f = .ok a ↔ x = .ok a := by
  cases x with
  | ok b =>
    change Except.ok b = Except.ok a ↔ _
    rw [Except.ok.injEq, Except.ok.injEq]
  | error e =>
    change Except.error (f e) = Except.ok a ↔ _
    simp only [reduceCtorEq]

end Simmis
