import Mathlib.Data.String.Basic
import Mathlib.Order.Fin.Basic

/-!
# Fractional order keys

Blocks are ordered by strings over the printable ASCII alphabet. A new key is generated between the
keys of its two neighbours, either of which may be missing. A key is kept as its list of digits;
`render` is the string that is stored. The main result decides for which neighbours the new key lies
strictly between them.
-/

namespace Simmis.FractionalIndex

open List

/-- `base-digits`: the characters 33 to 126. -/
abbrev Digit := Fin 94

abbrev Key := List Digit

def base : ℕ := 94

/-- `base-half`, the character `P`. -/
def baseHalf : Digit := 47

/-- The character `!`. -/
def minChar : Digit := 0

def digitToChar (d : Digit) : Char := Char.ofNat (33 + d)

/-- The stored string. -/
def render (key : Key) : String := String.ofList (key.map digitToChar)

theorem digitToChar_lt {d e : Digit} (h : d < e) : digitToChar d < digitToChar e := by
  have hvalid : ∀ f : Digit, (digitToChar f).toNat = 33 + f := by decide
  have hlt : (digitToChar d).toNat < (digitToChar e).toNat := by
    rw [hvalid, hvalid]
    exact Nat.add_lt_add_left h 33
  exact hlt

/-- Strings compare as their digits do. -/
theorem render_lt_render {a b : Key} : render a < render b ↔ a < b := by
  have hmono {a b : Key} (h : a < b) : render a < render b := by
    rw [String.lt_iff, render, render, String.toList_ofList, String.toList_ofList]
    exact List.map_lt (fun _ _ ↦ digitToChar_lt) h
  refine ⟨fun h ↦ ?_, hmono⟩
  rcases lt_trichotomy a b with hlt | rfl | hgt
  · exact hlt
  · exact absurd h (lt_irrefl _)
  · exact absurd (h.trans (hmono hgt)) (lt_irrefl _)

inductive KeyError where
  /-- `first` of an empty key has no digit. -/
  | emptyKey
  /-- `:fractional-index/at-floor` -/
  | atFloor
deriving DecidableEq, Repr

/-- The digits after the carry from the right, and whether it runs out. -/
def carry : Key → Key × Bool
  | [] => ([], true)
  | digit :: digits =>
    let (rest, carried) := carry digits
    if carried then
      if h : digit + 1 < base then (⟨digit + 1, h⟩ :: rest, false) else (minChar :: rest, true)
    else (digit :: rest, false)

def incrementString (s : Key) : Key :=
  let (digits, carried) := carry s
  if carried then s ++ [minChar] else digits

def midpoint (a b : ℕ) (h : a + b < 2 * base) : Digit := ⟨(a + b) / 2, by unfold base at h; omega⟩

/-- A key with the leading digit of `a` kept and its remaining digits raised. -/
def increased (digit : Digit) (rest : Key) : Key :=
  digit :: if rest = [] then [1] else incrementString rest

/-- The loop for two neighbours. A missing digit is 0 on the left and `base` on the right. -/
def between : Key → Key → Key
  | [], [] => [baseHalf]
  | [], b :: bs =>
    if b = 0 then minChar :: between [] bs
    else if b = 1 then [minChar, baseHalf]
    else [midpoint 0 b (by unfold base; omega)]
  | a :: as, [] =>
    if h : base - a = 1 then increased a as
    else [midpoint a base (by unfold base at *; omega)]
  | a :: as, b :: bs =>
    if a = b then a :: between as bs
    else if (b : ℕ) = a + 1 then increased a as
    else [midpoint a b (by unfold base; omega)]

/-- A key below `b`: half its leading digit, or, at the floor, room further in. -/
def below : Key → Except KeyError Key
  | [] => .error .emptyKey
  | digit :: rest =>
    if 0 < digit then .ok [⟨digit / 2, by omega⟩, 15]
    else if rest ≠ [] then (minChar :: ·) <$> below rest
    else .error .atFloor

def generateKeyBetween : Option Key → Option Key → Except KeyError Key
  | none, none => .ok [baseHalf, 15]
  | some a, none => .ok (a ++ [baseHalf])
  | none, some b => below b
  | some a, some b => .ok (between a b)

example : (generateKeyBetween (some [47, 15]) (some [47, 15, 47])).map render = .ok "P08" := by
  decide

/-- Some digit is not `!`. Only such a key has room below it. -/
def Sound (key : Key) : Prop := ∃ d ∈ key, d ≠ minChar

theorem Sound.append {key : Key} (h : Sound key) (suffix : Key) : Sound (key ++ suffix) := by
  obtain ⟨d, hd, hne⟩ := h
  exact ⟨d, mem_append_left suffix hd, hne⟩

theorem Sound.cons {key : Key} (h : Sound key) (digit : Digit) : Sound (digit :: key) := by
  obtain ⟨d, hd, hne⟩ := h
  exact ⟨d, mem_cons_of_mem digit hd, hne⟩

theorem Sound.nil_lt {key : Key} (h : Sound key) : [] < key := by
  obtain ⟨d, hd, -⟩ := h
  cases key with
  | nil => simp at hd
  | cons e key => exact nil_lt_cons _ _

theorem lt_append_singleton (key : Key) (digit : Digit) : key < key ++ [digit] := by
  induction key with
  | nil => exact nil_lt_cons _ _
  | cons d key ih => exact cons_lt_cons_self.mpr ih

/-- A carry that is absorbed raises the digits; one that runs out has met `~` only. -/
theorem carry_spec (s : Key) : ((carry s).2 = false → s < (carry s).1 ∧ Sound (carry s).1) ∧
      ((carry s).2 → ∀ d ∈ s, d = 93) := by
  induction s with
  | nil => simp [carry]
  | cons digit s ih =>
    obtain ⟨habsorbed, hout⟩ := ih
    rcases hcarry : carry s with ⟨rest, carried⟩
    simp only [hcarry] at habsorbed hout
    cases carried with
    | false =>
      have hrest := habsorbed rfl
      simp only [carry, hcarry, Bool.false_eq_true, ↓reduceIte, forall_const, IsEmpty.forall_iff,
        and_true]
      exact ⟨cons_lt_cons_self.mpr hrest.1, hrest.2.cons digit⟩
    | true =>
      have hmax := hout rfl
      by_cases hroom : digit + 1 < base
      · simp only [carry, hcarry, ↓reduceIte, hroom, ↓reduceDIte, forall_const,
          Bool.false_eq_true, IsEmpty.forall_iff, and_true]
        refine ⟨cons_lt_cons_iff.mpr (.inl ?_), _, mem_cons_self, ?_⟩
        · exact Fin.lt_def.mpr (Nat.lt_succ_self _)
        · exact fun h ↦ absurd (congrArg Fin.val h) (Nat.succ_ne_zero _)
      · simp only [carry, hcarry, ↓reduceIte, hroom, ↓reduceDIte, Bool.true_eq_false,
          IsEmpty.forall_iff, true_and, mem_cons, forall_eq_or_imp, forall_const]
        refine ⟨Fin.ext ?_, hmax⟩
        have hlt := digit.isLt
        unfold base at hroom
        change (digit : ℕ) = 93
        omega

theorem lt_incrementString (s : Key) : s < incrementString s := by
  unfold incrementString
  rcases hcarry : carry s with ⟨digits, carried⟩
  cases carried with
  | false => simpa [hcarry] using ((carry_spec s).1 (by rw [hcarry])).1
  | true => simpa using lt_append_singleton s minChar

theorem incrementString_sound {s : Key} (hs : s ≠ []) : Sound (incrementString s) := by
  unfold incrementString
  rcases hcarry : carry s with ⟨digits, carried⟩
  cases carried with
  | false => simpa [hcarry] using ((carry_spec s).1 (by rw [hcarry])).2
  | true =>
    have hmax := (carry_spec s).2 (by rw [hcarry])
    obtain ⟨digit, s, rfl⟩ := exists_cons_of_ne_nil hs
    have hsound : Sound (digit :: s) :=
      ⟨digit, mem_cons_self, by rw [hmax digit mem_cons_self]; decide⟩
    simpa using hsound.append [minChar]

theorem lt_increased (digit : Digit) (rest : Key) : digit :: rest < increased digit rest := by
  unfold increased
  refine cons_lt_cons_self.mpr ?_
  split
  · next h =>
    subst h
    exact nil_lt_cons _ _
  · exact lt_incrementString rest

theorem increased_lt {a b : Digit} (h : a < b) (as bs : Key) : increased a as < b :: bs :=
  cons_lt_cons_iff.mpr (.inl h)

theorem increased_sound (digit : Digit) (rest : Key) : Sound (increased digit rest) := by
  unfold increased
  split
  · exact ⟨1, by simp, by decide⟩
  · next h => exact (incrementString_sound h).cons digit

/-- Only `!` characters follow `a` in `b`: nothing fits between. -/
def crowded (a b : Key) : Bool :=
  a.isPrefixOf b && a.length < b.length && (b.drop a.length).all (· == minChar)

@[simp] theorem crowded_nil_left (b : Key) :
    crowded [] b = (!b.isEmpty && b.all (· == minChar)) := by
  cases b <;> simp [crowded]

@[simp] theorem crowded_cons_cons (a b : Digit) (as bs : Key) :
    crowded (a :: as) (b :: bs) = (a == b && crowded as bs) := by
  simp [crowded, isPrefixOf, Bool.and_assoc]

/-- The generated key is sound whenever it is asked for between keys in order. -/
theorem between_sound {a b : Key} (h : a < b) : Sound (between a b) := by
  fun_induction between a b with
  | case1 => exact absurd h (lt_irrefl _)
  | case2 bs ih =>
    cases bs with
    | nil => exact ⟨baseHalf, by simp [between], by decide⟩
    | cons b bs => exact (ih (nil_lt_cons _ _)).cons minChar
  | case3 bs => exact ⟨baseHalf, by simp, by decide⟩
  | case4 b bs hzero hone =>
    refine ⟨_, mem_cons_self, fun hmin ↦ ?_⟩
    have hval : (0 + (b : ℕ)) / 2 = 0 := congrArg Fin.val hmin
    have hb0 : (b : ℕ) ≠ 0 := fun hb ↦ hzero (Fin.ext hb)
    have hb1 : (b : ℕ) ≠ 1 := fun hb ↦ hone (Fin.ext hb)
    omega
  | case5 a as hlast => exact increased_sound a as
  | case6 a as hlast => exact absurd h (by simp)
  | case7 as b bs ih =>
    exact (ih (cons_lt_cons_self.mp h)).cons b
  | case8 a as b bs hne hsucc => exact increased_sound a as
  | case9 a as b bs hne hsucc =>
    refine ⟨_, mem_cons_self, fun hmin ↦ ?_⟩
    have hval : ((a : ℕ) + b) / 2 = 0 := congrArg Fin.val hmin
    have hlt : a < b := (cons_lt_cons_iff.mp h).resolve_right fun heq ↦ hne heq.1
    have hlt' : (a : ℕ) < b := hlt
    omega

/-- Exactly the crowded neighbours get a key that is not strictly between them. -/
theorem between_spec {a b : Key} (h : a < b) :
    (a < between a b ∧ between a b < b) ↔ crowded a b = false := by
  fun_induction between a b with
  | case1 => exact absurd h (lt_irrefl _)
  | case2 bs ih =>
    cases bs with
    | nil => simp [between, minChar]
    | cons b bs =>
      have hnil := (between_sound (nil_lt_cons b bs)).nil_lt
      simpa [minChar, hnil] using ih (nil_lt_cons _ _)
  | case3 bs => simp [minChar, cons_lt_cons_iff]
  | case4 b bs hzero hone =>
    have hb0 : (b : ℕ) ≠ 0 := fun hb ↦ hzero (Fin.ext hb)
    have hlt : midpoint 0 b (by unfold base; omega) < b := Fin.lt_def.mpr (by
      simp only [midpoint]
      omega)
    simp [minChar, hzero, cons_lt_cons_iff, hlt]
  | case5 a as hlast => exact absurd h (by simp)
  | case6 a as hlast => exact absurd h (by simp)
  | case7 as b bs ih => simpa using ih (cons_lt_cons_self.mp h)
  | case8 a as b bs hne hsucc =>
    have hlt : a < b := Fin.lt_def.mpr (by omega)
    simpa [hne, increased_lt hlt] using lt_increased a as
  | case9 a as b bs hne hsucc =>
    have hlt : (a : ℕ) < b := (cons_lt_cons_iff.mp h).resolve_right fun heq ↦ hne heq.1
    have hleft : a < midpoint a b (by unfold base; omega) := Fin.lt_def.mpr (by
      simp only [midpoint]
      omega)
    have hright : midpoint a b (by unfold base; omega) < b := Fin.lt_def.mpr (by
      simp only [midpoint]
      omega)
    simp [hne, cons_lt_cons_iff, hleft, hright]

/-- A key below a sound key exists, and is sound again. -/
theorem below_spec {b : Key} (hb : Sound b) : ∃ key, below b = .ok key ∧ key < b ∧ Sound key := by
  induction b with
  | nil => simp [Sound] at hb
  | cons digit rest ih =>
    by_cases hpos : 0 < digit
    · refine ⟨[⟨digit / 2, by omega⟩, 15], by simp [below, hpos], ?_, 15, by simp, by decide⟩
      have hpos' : 0 < (digit : ℕ) := hpos
      refine cons_lt_cons_iff.mpr (.inl (Fin.lt_def.mpr ?_))
      change (digit : ℕ) / 2 < digit
      omega
    · obtain rfl : digit = 0 := by
        have : ¬ 0 < (digit : ℕ) := hpos
        exact Fin.ext (by simpa using this)
      have hrest : Sound rest := by
        obtain ⟨d, hd, hne⟩ := hb
        rcases mem_cons.mp hd with rfl | hd
        · exact absurd rfl hne
        · exact ⟨d, hd, hne⟩
      obtain ⟨key, hkey, hlt, hsound⟩ := ih hrest
      have hne : rest ≠ [] := by
        rintro rfl
        simp [Sound] at hrest
      refine ⟨minChar :: key, ?_, cons_lt_cons_self.mpr hlt, hsound.cons minChar⟩
      simp [below, hne, hkey, Functor.map, Except.map]

end Simmis.FractionalIndex
