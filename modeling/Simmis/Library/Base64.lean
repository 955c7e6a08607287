import Mathlib.Data.UInt
import Mathlib.Tactic.IntervalCases

/-!
# Base64

Texts are sequences of character codes. A decoder ignores the bits of the last group that make no
byte; whether the padding of this group may be missing is up to the decoder.
-/

namespace Simmis.Base64

open List Option

/-- The six bits of a character. -/
def sextet (c : ℕ) : Option ℕ :=
  if 65 ≤ c ∧ c ≤ 90 then some (c - 65)
  else if 97 ≤ c ∧ c ≤ 122 then some (c - 71)
  else if 48 ≤ c ∧ c ≤ 57 then some (c + 4)
  else if c = 43 then some 62
  else if c = 47 then some 63
  else none

/-- The character of six bits. -/
def character (n : ℕ) : ℕ :=
  if n < 26 then n + 65
  else if n < 52 then n + 71
  else if n < 62 then n - 4
  else if n = 62 then 43
  else 47

def pad : ℕ := 61

variable {n : ℕ}

theorem sextet_character (hn : n < 64) : sextet (character n) = some n := by
  interval_cases n <;> rfl

theorem character_ne_pad (n : ℕ) : character n ≠ pad := by
  unfold character pad
  split_ifs <;> omega

/-- ASCII, and neither a control character, a quote nor a backslash. -/
def IsPlain (c : ℕ) : Prop := 43 ≤ c ∧ c < 128 ∧ c ≠ 92

theorem pad_plain : IsPlain pad := by
  unfold IsPlain pad
  omega

variable {c : ℕ}

theorem sextet_plain (h : sextet c = some n) : IsPlain c := by
  unfold sextet at h
  unfold IsPlain
  split_ifs at h <;> omega

def byte (n : ℕ) : UInt8 := UInt8.ofNat n

def oneByte (a b : ℕ) : Option (List UInt8) := do
  let a ← sextet a
  let b ← sextet b
  some [byte (4 * a + b / 16)]

def twoBytes (a b c : ℕ) : Option (List UInt8) := do
  let a ← sextet a
  let b ← sextet b
  let c ← sextet c
  some [byte (4 * a + b / 16), byte (16 * b + c / 4)]

def threeBytes (a b c d : ℕ) : Option (List UInt8) := do
  let a ← sextet a
  let b ← sextet b
  let c ← sextet c
  let d ← sextet d
  some [byte (4 * a + b / 16), byte (16 * b + c / 4), byte (64 * c + d)]

/-- The last four characters. -/
def lastGroup (a b c d : ℕ) : Option (List UInt8) :=
  if d = pad then if c = pad then oneByte a b else twoBytes a b c
  else threeBytes a b c d

/-- A text without the padding of its last group is refused if the padding is required. -/
def decode (required : Bool) : List ℕ → Option (List UInt8)
  | [] => some []
  | [_] => none
  | [a, b] => if required then none else oneByte a b
  | [a, b, c] => if required then none else twoBytes a b c
  | [a, b, c, d] => lastGroup a b c d
  | a :: b :: c :: d :: e :: rest => do
    let bytes ← threeBytes a b c d
    let others ← decode required (e :: rest)
    some (bytes ++ others)

def encode : List UInt8 → List ℕ
  | [] => []
  | [x] => [character (x.toNat / 4), character (x.toNat % 4 * 16), pad, pad]
  | [x, y] =>
    [character (x.toNat / 4), character (x.toNat % 4 * 16 + y.toNat / 16),
      character (y.toNat % 16 * 4), pad]
  | x :: y :: z :: rest =>
    character (x.toNat / 4) :: character (x.toNat % 4 * 16 + y.toNat / 16) ::
      character (y.toNat % 16 * 4 + z.toNat / 64) :: character (z.toNat % 64) :: encode rest

theorem length_encode (bytes : List UInt8) :
    (encode bytes).length = 4 * ((bytes.length + 2) / 3) := by
  fun_induction encode bytes with
  | case1 => simp
  | case2 => simp
  | case3 => simp
  | case4 x y z rest ih =>
    simp only [length_cons, ih]
    omega

theorem encode_plain (bytes : List UInt8) : ∀ c ∈ encode bytes, IsPlain c := by
  have hcharacter {n : ℕ} (hn : n < 64) : IsPlain (character n) :=
    sextet_plain (sextet_character hn)
  fun_induction encode bytes with
  | case1 => simp
  | case2 x =>
    have hx := x.toNat_lt
    simp only [forall_mem_cons, not_mem_nil, false_imp_iff, implies_true, and_true]
    exact ⟨hcharacter (by omega), hcharacter (by omega), pad_plain, pad_plain⟩
  | case3 x y =>
    have hx := x.toNat_lt
    have hy := y.toNat_lt
    simp only [forall_mem_cons, not_mem_nil, false_imp_iff, implies_true, and_true]
    exact ⟨hcharacter (by omega), hcharacter (by omega), hcharacter (by omega), pad_plain⟩
  | case4 x y z rest ih =>
    have hx := x.toNat_lt
    have hy := y.toNat_lt
    have hz := z.toNat_lt
    simp only [forall_mem_cons]
    exact ⟨hcharacter (by omega), hcharacter (by omega), hcharacter (by omega),
      hcharacter (by omega), ih⟩

theorem byte_eq {x : UInt8} (h : n % 256 = x.toNat) : byte n = x := by
  apply UInt8.toNat.inj
  simpa [byte] using h

section

variable (x y z : UInt8)

theorem oneByte_encode :
    oneByte (character (x.toNat / 4)) (character (x.toNat % 4 * 16)) = some [x] := by
  have hx := x.toNat_lt
  have hbyte : byte (4 * (x.toNat / 4) + x.toNat % 4 * 16 / 16) = x := by
    apply byte_eq
    omega
  simp only [oneByte, sextet_character (show x.toNat / 4 < 64 by omega),
    sextet_character (show x.toNat % 4 * 16 < 64 by omega), bind_eq_bind, bind_some,
    hbyte]

theorem twoBytes_encode :
    twoBytes (character (x.toNat / 4)) (character (x.toNat % 4 * 16 + y.toNat / 16))
      (character (y.toNat % 16 * 4)) = some [x, y] := by
  have hx := x.toNat_lt
  have hy := y.toNat_lt
  have hfirst : byte (4 * (x.toNat / 4) + (x.toNat % 4 * 16 + y.toNat / 16) / 16) = x := by
    apply byte_eq
    omega
  have hsecond : byte (16 * (x.toNat % 4 * 16 + y.toNat / 16) + y.toNat % 16 * 4 / 4) = y := by
    apply byte_eq
    omega
  simp only [twoBytes, sextet_character (show x.toNat / 4 < 64 by omega),
    sextet_character (show x.toNat % 4 * 16 + y.toNat / 16 < 64 by omega),
    sextet_character (show y.toNat % 16 * 4 < 64 by omega), bind_eq_bind, bind_some,
    hfirst, hsecond]

theorem threeBytes_encode :
    threeBytes (character (x.toNat / 4)) (character (x.toNat % 4 * 16 + y.toNat / 16))
      (character (y.toNat % 16 * 4 + z.toNat / 64)) (character (z.toNat % 64)) =
        some [x, y, z] := by
  have hx := x.toNat_lt
  have hy := y.toNat_lt
  have hz := z.toNat_lt
  have hfirst : byte (4 * (x.toNat / 4) + (x.toNat % 4 * 16 + y.toNat / 16) / 16) = x := by
    apply byte_eq
    omega
  have hsecond : byte (16 * (x.toNat % 4 * 16 + y.toNat / 16) +
      (y.toNat % 16 * 4 + z.toNat / 64) / 4) = y := by
    apply byte_eq
    omega
  have hthird : byte (64 * (y.toNat % 16 * 4 + z.toNat / 64) + z.toNat % 64) = z := by
    apply byte_eq
    omega
  simp only [threeBytes, sextet_character (show x.toNat / 4 < 64 by omega),
    sextet_character (show x.toNat % 4 * 16 + y.toNat / 16 < 64 by omega),
    sextet_character (show y.toNat % 16 * 4 + z.toNat / 64 < 64 by omega),
    sextet_character (show z.toNat % 64 < 64 by omega), bind_eq_bind, bind_some,
    hfirst, hsecond, hthird]

end

/-- Every decoder reads back what has been encoded. -/
theorem decode_encode (required : Bool) (bytes : List UInt8) :
    decode required (encode bytes) = some bytes := by
  fun_induction encode bytes with
  | case1 => rfl
  | case2 x => simp [decode, lastGroup, oneByte_encode]
  | case3 x y => simp [decode, lastGroup, twoBytes_encode, character_ne_pad]
  | case4 x y z rest ih =>
    cases hrest : encode rest with
    | nil =>
      rw [hrest] at ih
      cases some.inj ih
      simp [decode, lastGroup, threeBytes_encode, character_ne_pad]
    | cons c others =>
      rw [hrest] at ih
      simp [decode, threeBytes_encode, ih]

variable {bytes : List UInt8} {text : List ℕ}

/-- What a strict decoder reads, a lenient one reads too. -/
theorem decode_lenient (h : decode true text = some bytes) : decode false text = some bytes := by
  fun_induction decode true text generalizing bytes with
  | case1 => exact h
  | case2 => exact h
  | case3 a b hrequired => cases h
  | case4 => contradiction
  | case5 a b c => cases h
  | case6 => contradiction
  | case7 a b c d => exact h
  | case8 a b c d e rest ih =>
    obtain ⟨first, hfirst, h⟩ := bind_eq_some_iff.mp h
    obtain ⟨others, hothers, h⟩ := bind_eq_some_iff.mp h
    simp only [decode, hfirst, ih hothers, bind_eq_bind, bind_some]
    exact h

/-- What a lenient decoder reads, a strict one reads too if the last group is complete. -/
theorem decode_strict (h : decode false text = some bytes)
    (hlength : text.length % 4 = 0) : decode true text = some bytes := by
  fun_induction decode false text generalizing bytes with
  | case1 => exact h
  | case2 => exact h
  | case3 => contradiction
  | case4 => cases hlength
  | case5 => contradiction
  | case6 => cases hlength
  | case7 a b c d => exact h
  | case8 a b c d e rest ih =>
    obtain ⟨first, hfirst, h⟩ := bind_eq_some_iff.mp h
    obtain ⟨others, hothers, h⟩ := bind_eq_some_iff.mp h
    have hrest : (e :: rest).length % 4 = 0 := by
      simp only [length_cons] at hlength ⊢
      omega
    simp only [decode, hfirst, ih hothers hrest, bind_eq_bind, bind_some]
    exact h

variable {a b : ℕ}

theorem oneByte_some (h : oneByte a b = some bytes) : IsPlain a ∧ IsPlain b ∧ bytes.length = 1 := by
  obtain ⟨a', ha, h⟩ := bind_eq_some_iff.mp h
  obtain ⟨b', hb, h⟩ := bind_eq_some_iff.mp h
  cases h
  exact ⟨sextet_plain ha, sextet_plain hb, rfl⟩

theorem twoBytes_some (h : twoBytes a b c = some bytes) :
    IsPlain a ∧ IsPlain b ∧ IsPlain c ∧ bytes.length = 2 := by
  obtain ⟨a', ha, h⟩ := bind_eq_some_iff.mp h
  obtain ⟨b', hb, h⟩ := bind_eq_some_iff.mp h
  obtain ⟨c', hc, h⟩ := bind_eq_some_iff.mp h
  cases h
  exact ⟨sextet_plain ha, sextet_plain hb, sextet_plain hc, rfl⟩

theorem threeBytes_some {d : ℕ} (h : threeBytes a b c d = some bytes) :
    IsPlain a ∧ IsPlain b ∧ IsPlain c ∧ IsPlain d ∧ bytes.length = 3 := by
  obtain ⟨a', ha, h⟩ := bind_eq_some_iff.mp h
  obtain ⟨b', hb, h⟩ := bind_eq_some_iff.mp h
  obtain ⟨c', hc, h⟩ := bind_eq_some_iff.mp h
  obtain ⟨d', hd, h⟩ := bind_eq_some_iff.mp h
  cases h
  exact ⟨sextet_plain ha, sextet_plain hb, sextet_plain hc, sextet_plain hd, rfl⟩

theorem lastGroup_some {d : ℕ} (h : lastGroup a b c d = some bytes) :
    IsPlain a ∧ IsPlain b ∧ IsPlain c ∧ IsPlain d ∧ 1 ≤ bytes.length ∧ bytes.length ≤ 3 := by
  unfold lastGroup at h
  split at h
  · next hd =>
    split at h
    · next hc =>
      obtain ⟨ha, hb, hlength⟩ := oneByte_some h
      exact ⟨ha, hb, hc ▸ pad_plain, hd ▸ pad_plain, by omega, by omega⟩
    · obtain ⟨ha, hb, hc, hlength⟩ := twoBytes_some h
      exact ⟨ha, hb, hc, hd ▸ pad_plain, by omega, by omega⟩
  · obtain ⟨ha, hb, hc, hd, hlength⟩ := threeBytes_some h
    exact ⟨ha, hb, hc, hd, by omega, by omega⟩

/-- The length of a text whose padding is required. -/
theorem length_of_decode (h : decode true text = some bytes) :
    text.length = 4 * ((bytes.length + 2) / 3) := by
  fun_induction decode true text generalizing bytes with
  | case1 =>
    cases h
    rfl
  | case2 => cases h
  | case3 => cases h
  | case4 => contradiction
  | case5 => cases h
  | case6 => contradiction
  | case7 a b c d =>
    obtain ⟨-, -, -, -, hlower, hupper⟩ := lastGroup_some h
    simp only [length_cons, length_nil]
    omega
  | case8 a b c d e rest ih =>
    obtain ⟨first, hfirst, h⟩ := bind_eq_some_iff.mp h
    obtain ⟨others, hothers, h⟩ := bind_eq_some_iff.mp h
    cases h
    have hrest := ih hothers
    obtain ⟨-, -, -, -, hlength⟩ := threeBytes_some hfirst
    simp only [length_cons, length_append] at hrest ⊢
    omega

theorem decode_plain {required : Bool} (h : decode required text = some bytes) : ∀ c ∈ text, IsPlain c := by
  fun_induction decode required text generalizing bytes with
  | case1 => simp
  | case2 => cases h
  | case3 => cases h
  | case4 a b =>
    obtain ⟨ha, hb, -⟩ := oneByte_some h
    simp [ha, hb]
  | case5 => cases h
  | case6 a b c =>
    obtain ⟨ha, hb, hc, -⟩ := twoBytes_some h
    simp [ha, hb, hc]
  | case7 a b c d =>
    obtain ⟨ha, hb, hc, hd, -⟩ := lastGroup_some h
    simp [ha, hb, hc, hd]
  | case8 a b c d e rest ih =>
    obtain ⟨first, hfirst, h⟩ := bind_eq_some_iff.mp h
    obtain ⟨others, hothers, h⟩ := bind_eq_some_iff.mp h
    obtain ⟨ha, hb, hc, hd, -⟩ := threeBytes_some hfirst
    have hrest := ih hothers
    simp only [forall_mem_cons] at hrest ⊢
    exact ⟨ha, hb, hc, hd, hrest⟩

end Simmis.Base64
