import Mathlib.Data.List.Basic
import Mathlib.Data.Int.Notation

/-!
# JSON values

Decoded JSON. The fields of an object stand in one order, that of the canonical encoding, so that
two values are equal exactly if their encodings are. A number that is not an integer is kept as it
is printed.
-/

namespace Simmis

inductive Json
  | null
  | bool (value : Bool)
  | int (value : ℤ)
  | float (printed : String)
  | str (value : String)
  | arr (items : List Json)
  | obj (fields : List (String × Json))

namespace Json

mutual

def decEq : (a b : Json) → Decidable (a = b)
  | null, null => isTrue rfl
  | bool a, bool b => decidable_of_iff (a = b) (by simp)
  | int a, int b => decidable_of_iff (a = b) (by simp)
  | float a, float b => decidable_of_iff (a = b) (by simp)
  | str a, str b => decidable_of_iff (a = b) (by simp)
  | arr a, arr b =>
    have := decEqItems a b
    decidable_of_iff (a = b) (by simp)
  | obj a, obj b =>
    have := decEqFields a b
    decidable_of_iff (a = b) (by simp)
  | null, bool _ | null, int _ | null, float _ | null, str _ | null, arr _ | null, obj _
  | bool _, null | bool _, int _ | bool _, float _ | bool _, str _ | bool _, arr _ | bool _, obj _
  | int _, null | int _, bool _ | int _, float _ | int _, str _ | int _, arr _ | int _, obj _
  | float _, null | float _, bool _ | float _, int _ | float _, str _ | float _, arr _
  | float _, obj _
  | str _, null | str _, bool _ | str _, int _ | str _, float _ | str _, arr _ | str _, obj _
  | arr _, null | arr _, bool _ | arr _, int _ | arr _, float _ | arr _, str _ | arr _, obj _
  | obj _, null | obj _, bool _ | obj _, int _ | obj _, float _ | obj _, str _ | obj _, arr _ =>
    isFalse (by simp)

def decEqItems : (a b : List Json) → Decidable (a = b)
  | [], [] => isTrue rfl
  | x :: a, y :: b =>
    have := decEq x y
    have := decEqItems a b
    decidable_of_iff (x = y ∧ a = b) (by simp)
  | [], _ :: _ | _ :: _, [] => isFalse (by simp)

def decEqFields : (a b : List (String × Json)) → Decidable (a = b)
  | [], [] => isTrue rfl
  | (k, x) :: a, (l, y) :: b =>
    have := decEq x y
    have := decEqFields a b
    decidable_of_iff (k = l ∧ x = y ∧ a = b) (by simp [and_assoc])
  | [], _ :: _ | _ :: _, [] => isFalse (by simp)

end

instance : DecidableEq Json := decEq

def get? : Json → String → Option Json
  | obj fields, name => (fields.find? fun field ↦ field.1 = name).map Prod.snd
  | _, _ => none

/-- An object with exactly these fields. -/
def closed (value : Json) (names : List String) : Bool :=
  match value with
  | obj fields =>
    fields.all (fun field ↦ field.1 ∈ names) && names.all fun name ↦ fields.any (·.1 = name)
  | _ => false

/-- An integer that meets a condition; a boolean is none. -/
def isInt (value : Option Json) (p : ℤ → Bool) : Bool :=
  match value with
  | some (int n) => p n
  | _ => false

def isBool : Option Json → Bool
  | some (bool _) => true
  | _ => false

def isStr (value : Option Json) (p : String → Bool) : Bool :=
  match value with
  | some (str s) => p s
  | _ => false

end Json

end Simmis
