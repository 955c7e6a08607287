import Simmis.Library.PythonStrings

/-!
# URL coding of Java strings

`URLEncoder` and `URLDecoder` with UTF-8. The encoder writes the bytes of most characters as escapes
of two hexadecimal digits; the decoder takes the bytes of adjacent escapes together.
-/

namespace Simmis.UrlCoding

open List Option PyString Char Nat
open JavaString (unitsOfChar)

/-- UTF-16 code units. -/
abbrev Text := List UInt16

def percent : UInt16 := 37
def plus : UInt16 := 43
def space : UInt16 := 32

/-- The characters of a text, where a lone surrogate is a question mark. -/
def characters (s : Text) : List Char := (JavaString.decode (s.map UInt16.toNat)).map Char.ofNat

variable (cs : List Char)

/-- The code units of characters. -/
def units : Text := cs.flatMap unitsOfChar

def utf8 : List UInt8 := cs.flatMap String.utf8EncodeChar

/-- Characters are read to the end, with fuel that bounds their number. -/
def isUtf8From : ℕ → List UInt8 → Bool
  | _, [] => true
  | 0, _ => false
  | fuel + 1, bytes =>
    match bytes.toByteArray.utf8DecodeChar? 0 with
    | some c => isUtf8From fuel (bytes.drop c.utf8Size)
    | none => false

variable (bytes : List UInt8)

/-- `decode` of a UTF-8 decoder with `CodingErrorAction/REPORT` returns. -/
def isUtf8 : Bool := isUtf8From bytes.length bytes

def isContinuation (b : Option UInt8) : Bool := b.any fun b ↦ 0x80 ≤ b ∧ b < 0xC0

/-- How many bytes are replaced together where no character is encoded. -/
def malformed : List UInt8 → ℕ
  | b :: bytes =>
    if 0xE0 ≤ b ∧ b < 0xF0 then
      if !isContinuation bytes[0]? || b = 0xE0 && bytes[0]?.any (· < 0xA0) then 1
      else if !isContinuation bytes[1]? then 2
      else 3
    else if 0xF0 ≤ b ∧ b ≤ 0xF4 then
      if !isContinuation bytes[0]? || b = 0xF0 && bytes[0]?.any (· < 0x90) ||
        b = 0xF4 && bytes[0]?.any (0x90 ≤ ·) then 1
      else if !isContinuation bytes[1]? then 2
      else 3
    else 1
  | [] => 1

/-- The string of bytes, where what is malformed is replaced. -/
def newStringFrom : ℕ → List UInt8 → Text
  | 0, _ | _, [] => []
  | fuel + 1, bytes =>
    match bytes.toByteArray.utf8DecodeChar? 0 with
    | some c => unitsOfChar c ++ newStringFrom fuel (bytes.drop c.utf8Size)
    | none => 0xFFFD :: newStringFrom fuel (bytes.drop (malformed bytes))

/-- `new String(bytes, UTF_8)` -/
def newString : Text := newStringFrom bytes.length bytes

/-- A hexadecimal digit in upper case. -/
def hexDigit (n : ℕ) : UInt16 := if n < 10 then (48 + n).toUInt16 else (55 + n).toUInt16

def escape (b : UInt8) : Text := [percent, hexDigit (b.toNat / 16), hexDigit (b.toNat % 16)]

/-- `[a-zA-Z0-9.*_-]` -/
def isUnreserved (u : UInt16) : Bool :=
  97 ≤ u ∧ u ≤ 122 ∨ 65 ≤ u ∧ u ≤ 90 ∨ 48 ≤ u ∧ u ≤ 57 ∨ u = 46 ∨ u = 42 ∨ u = 95 ∨ u = 45

def urlEncodeChar (c : Char) : Text :=
  if c.toNat < 128 ∧ isUnreserved c.toNat.toUInt16 then [c.toNat.toUInt16]
  else if c = ' ' then [plus]
  else (String.utf8EncodeChar c).flatMap escape

/-- `URLEncoder/encode` -/
def urlEncode (s : Text) : Text := (characters s).flatMap urlEncodeChar

/-- The zeros of the decimal digits, each with its digits behind it. -/
def zeros : List ℕ :=
  [0x30, 0x660, 0x6F0, 0x7C0, 0x966, 0x9E6, 0xA66, 0xAE6, 0xB66, 0xBE6, 0xC66, 0xCE6, 0xD66, 0xDE6,
    0xE50, 0xED0, 0xF20, 0x1040, 0x1090, 0x17E0, 0x1810, 0x1946, 0x19D0, 0x1A80, 0x1A90, 0x1B50,
    0x1BB0, 0x1C40, 0x1C50, 0xA620, 0xA8D0, 0xA900, 0xA9D0, 0xA9F0, 0xAA50, 0xABF0, 0xFF10]

/-- `Character/digit` in radix 16. -/
def digit (u : UInt16) : Option ℕ :=
  match zeros.find? fun first ↦ first ≤ u.toNat ∧ u.toNat < first + 10 with
  | some first => some (u.toNat - first)
  | none =>
    match [0x41, 0x61, 0xFF21, 0xFF41].find? fun first ↦ first ≤ u.toNat ∧ u.toNat < first + 6 with
    | some first => some (u.toNat - first + 10)
    | none => none

/-- `Integer/parseInt` of two characters in radix 16, where the number is not negative. -/
def parseInt (u v : UInt16) : Option ℕ :=
  if u = 45 then (digit v).filter (· = 0)
  else if u = plus then digit v
  else do return (← digit u) * 16 + (← digit v)

/-- `[0-9a-fA-F]` -/
def isHex (u : UInt16) : Bool := 48 ≤ u ∧ u ≤ 57 ∨ 65 ≤ u ∧ u ≤ 70 ∨ 97 ≤ u ∧ u ≤ 102

/-- `URLDecoder/decode`, with the bytes of the escapes in front. -/
@[grind] def urlDecodeFrom : List UInt8 → Text → Option Text
  | bytes, 37 :: u :: v :: s => do
    let b ← parseInt u v
    urlDecodeFrom (bytes ++ [b.toUInt8]) s
  | _, 37 :: _ => none
  | bytes, u :: s => do
    let text ← urlDecodeFrom [] s
    return newString bytes ++ (if u = plus then space else u) :: text
  | bytes, [] => some (newString bytes)

/-- `URLDecoder/decode` -/
def urlDecode (s : Text) : Option Text := urlDecodeFrom [] s

/-- The runs of `(?:%[0-9a-fA-F]{2})+` are UTF-8. -/
def runsUtf8From : List UInt8 → Text → Bool
  | bytes, 37 :: u :: v :: s =>
    if isHex u && isHex v then runsUtf8From (bytes ++ [((parseInt u v).getD 0).toUInt8]) s
    else isUtf8 bytes && runsUtf8From [] (u :: v :: s)
  | bytes, _ :: s => isUtf8 bytes && runsUtf8From [] s
  | bytes, [] => isUtf8 bytes

def runsUtf8 (s : Text) : Bool := runsUtf8From [] s

theorem isSurrogate_toNat (c : Char) : isSurrogate c.toNat = false := by
  have hvalid : c.toNat < 0xD800 ∨ 0xDFFF < c.toNat ∧ c.toNat < 0x110000 := c.valid
  simp only [isSurrogate, decide_eq_false_iff_not]
  omega

theorem toNat_lt (c : Char) : c.toNat < 0x110000 := by
  have hvalid : c.toNat < 0xD800 ∨ 0xDFFF < c.toNat ∧ c.toNat < 0x110000 := c.valid
  omega

theorem unitsOfChar_eq (c : Char) : unitsOfChar c = unitsOfPoint c.toNat := rfl

theorem decode_unitsOfChar (c : Char) (rest : List ℕ) :
    JavaString.decode ((unitsOfChar c).map UInt16.toNat ++ rest) =
      c.toNat :: JavaString.decode rest := by
  have hsize := toNat_lt c
  rw [unitsOfChar_eq, code_unitsOfPoint hsize]
  split
  · rw [singleton_append, decode_single (isSurrogate_toNat c)]
  · next hlarge =>
    have hpoint : 0x10000 + (c.toNat - 0x10000) = c.toNat := by omega
    rw [cons_append, singleton_append, decode_pair (by omega), hpoint]

/-- Characters come back from their code units. -/
theorem characters_units : characters (units cs) = cs := by
  induction cs with
  | nil => rfl
  | cons c cs ih =>
    have hrest : (JavaString.decode ((units cs).map UInt16.toNat)).map ofNat = cs := ih
    rw [characters, units, flatMap_cons, map_append, decode_unitsOfChar, map_cons,
      ofNat_toNat, ← units, hrest]

section

variable (c : Char) (cs : List Char)

theorem utf8DecodeChar_utf8 : (utf8 (c :: cs)).toByteArray.utf8DecodeChar? 0 = some c := by
  rw [utf8, flatMap_cons, toByteArray_append]
  exact ByteArray.utf8DecodeChar?_utf8EncodeChar_append

theorem drop_utf8 : (utf8 (c :: cs)).drop c.utf8Size = utf8 cs := by
  rw [utf8, flatMap_cons, drop_left' (String.length_utf8EncodeChar c), utf8]

theorem length_utf8 : (utf8 (c :: cs)).length = c.utf8Size + (utf8 cs).length := by
  rw [utf8, flatMap_cons, length_append, String.length_utf8EncodeChar, utf8]

theorem utf8_ne_nil : utf8 (c :: cs) ≠ [] := by
  refine ne_nil_of_length_pos ?_
  have hsize := c.utf8Size_pos
  rw [length_utf8]
  omega

end

theorem isUtf8From_utf8 {cs : List Char} {fuel : ℕ} (hfuel : (utf8 cs).length ≤ fuel) :
    isUtf8From fuel (utf8 cs) := by
  induction cs generalizing fuel with
  | nil => cases fuel <;> rfl
  | cons c cs ih =>
    have hsize := c.utf8Size_pos
    rw [length_utf8] at hfuel
    obtain ⟨fuel, rfl⟩ := Nat.exists_eq_add_of_le' (show 1 ≤ fuel by omega)
    rw [isUtf8From, utf8DecodeChar_utf8]
    · simpa only [drop_utf8] using ih (by omega)
    · exact utf8_ne_nil c cs

theorem isUtf8_utf8 : isUtf8 (utf8 cs) := isUtf8From_utf8 (le_refl _)

theorem newStringFrom_utf8 {cs : List Char} {fuel : ℕ} (hfuel : (utf8 cs).length ≤ fuel) :
    newStringFrom fuel (utf8 cs) = units cs := by
  induction cs generalizing fuel with
  | nil => cases fuel <;> rfl
  | cons c cs ih =>
    have hsize := c.utf8Size_pos
    rw [length_utf8] at hfuel
    obtain ⟨fuel, rfl⟩ := Nat.exists_eq_add_of_le' (show 1 ≤ fuel by omega)
    rw [newStringFrom, utf8DecodeChar_utf8]
    · simp only [drop_utf8, ih (show (utf8 cs).length ≤ fuel by omega)]
      rw [units, units, flatMap_cons]
    · exact utf8_ne_nil c cs

/-- The string of the bytes of characters. -/
theorem newString_utf8 : newString (utf8 cs) = units cs := newStringFrom_utf8 (le_refl _)

theorem digit_hexDigit {n : ℕ} (hn : n < 16) : digit (hexDigit n) = some n := by
  have hall : ∀ n < 16, digit (hexDigit n) = some n := by decide
  exact hall n hn

/-- The digits are hexadecimal and no other marks. -/
theorem hexDigit_marks {n : ℕ} (hn : n < 16) : isHex (hexDigit n) ∧ isUnreserved (hexDigit n) := by
  have hall : ∀ n < 16, isHex (hexDigit n) ∧ isUnreserved (hexDigit n) := by decide
  exact hall n hn

theorem parseInt_hexDigit {m n : ℕ} (hm : m < 16) (hn : n < 16) :
    parseInt (hexDigit m) (hexDigit n) = some (m * 16 + n) := by
  have hsigns : ∀ m < 16, hexDigit m ≠ 45 ∧ hexDigit m ≠ plus := by decide
  obtain ⟨hminus, hplus⟩ := hsigns m hm
  simp [parseInt, hminus, hplus, digit_hexDigit hm, digit_hexDigit hn]

theorem parseInt_escape (b : UInt8) :
    parseInt (hexDigit (b.toNat / 16)) (hexDigit (b.toNat % 16)) = some b.toNat := by
  have hb : b.toNat < 256 := b.toNat_lt
  rw [parseInt_hexDigit (by omega) (by omega)]
  exact congrArg some (by omega)

variable {u : UInt16}

theorem urlDecodeFrom_cons (hu : u ≠ percent) (bytes : List UInt8) (s : Text) :
    urlDecodeFrom bytes (u :: s) = (urlDecodeFrom [] s).map fun text ↦
      newString bytes ++ (if u = plus then space else u) :: text := by
  cases hrest : urlDecodeFrom [] s <;> simp_all [urlDecodeFrom, percent]

theorem runsUtf8From_cons (hu : u ≠ percent) (bytes : List UInt8) (s : Text) :
    runsUtf8From bytes (u :: s) = (isUtf8 bytes && runsUtf8From [] s) := by
  simp_all [runsUtf8From, percent]

theorem urlDecodeFrom_escape (b : UInt8) (s : Text) :
    urlDecodeFrom bytes (escape b ++ s) = urlDecodeFrom (bytes ++ [b]) s := by
  simp [escape, percent, urlDecodeFrom, parseInt_escape]

theorem runsUtf8From_escape (b : UInt8) (s : Text) :
    runsUtf8From bytes (escape b ++ s) = runsUtf8From (bytes ++ [b]) s := by
  have hb : b.toNat < 256 := b.toNat_lt
  have hhigh := (hexDigit_marks (show b.toNat / 16 < 16 by omega)).1
  have hlow := (hexDigit_marks (show b.toNat % 16 < 16 by omega)).1
  simp [escape, percent, runsUtf8From, parseInt_escape, hhigh, hlow]

theorem urlDecodeFrom_escapes (bytes more : List UInt8) (s : Text) :
    urlDecodeFrom bytes (more.flatMap escape ++ s) = urlDecodeFrom (bytes ++ more) s := by
  induction more generalizing bytes with
  | nil => simp
  | cons b more ih => rw [flatMap_cons, append_assoc, urlDecodeFrom_escape, ih]; simp

theorem runsUtf8From_escapes (bytes more : List UInt8) (s : Text) :
    runsUtf8From bytes (more.flatMap escape ++ s) = runsUtf8From (bytes ++ more) s := by
  induction more generalizing bytes with
  | nil => simp
  | cons b more ih => rw [flatMap_cons, append_assoc, runsUtf8From_escape, ih]; simp

/-- A text whose characters stand for themselves, or else are escaped. -/
def escapeChars (plain : Char → Bool) (cs : List Char) : Text :=
  cs.flatMap fun c ↦ if plain c then unitsOfChar c else (String.utf8EncodeChar c).flatMap escape

theorem escapeChars_cons (plain : Char → Bool) (c : Char) (cs : List Char) :
    escapeChars plain (c :: cs) =
      (if plain c then unitsOfChar c else (String.utf8EncodeChar c).flatMap escape) ++
        escapeChars plain cs := flatMap_cons

/-- Plain characters are single units that are no escapes. -/
def Plain (plain : Char → Bool) : Prop :=
  ∀ c, plain c = true → ∃ u : UInt16, unitsOfChar c = [u] ∧ u ≠ percent ∧ u ≠ plus

section

variable {plain : Char → Bool} (hplain : Plain plain)
include hplain

theorem urlDecodeFrom_escapeChars (front cs : List Char) :
    urlDecodeFrom (utf8 front) (escapeChars plain cs) = some (units (front ++ cs)) := by
  induction cs generalizing front with
  | nil => simp [escapeChars, urlDecodeFrom, newString_utf8]
  | cons c cs ih =>
    rw [escapeChars_cons]
    by_cases hc : plain c
    · obtain ⟨u, hu, hpercent, hplus⟩ := hplain c hc
      have hrest : urlDecodeFrom [] (escapeChars plain cs) = some (units cs) := ih []
      rw [if_pos hc, hu, singleton_append, urlDecodeFrom_cons hpercent, hrest, map_some,
        newString_utf8, if_neg hplus]
      simp [units, hu]
    · have hbytes : utf8 front ++ String.utf8EncodeChar c = utf8 (front ++ [c]) := by
        simp [utf8]
      rw [if_neg hc, urlDecodeFrom_escapes, hbytes, ih, append_assoc, singleton_append]

theorem runsUtf8From_escapeChars (front cs : List Char) :
    runsUtf8From (utf8 front) (escapeChars plain cs) := by
  induction cs generalizing front with
  | nil => exact isUtf8_utf8 front
  | cons c cs ih =>
    rw [escapeChars_cons]
    by_cases hc : plain c
    · obtain ⟨u, hu, hpercent, -⟩ := hplain c hc
      have hrest : runsUtf8From [] (escapeChars plain cs) := ih []
      rw [if_pos hc, hu, singleton_append, runsUtf8From_cons hpercent, isUtf8_utf8, hrest,
        Bool.and_self]
    · have hbytes : utf8 front ++ String.utf8EncodeChar c = utf8 (front ++ [c]) := by
        simp [utf8]
      rw [if_neg hc, runsUtf8From_escapes, hbytes, ih]

/-- Escaped characters are decoded. -/
theorem urlDecode_escapeChars (cs : List Char) :
    runsUtf8 (escapeChars plain cs) ∧ urlDecode (escapeChars plain cs) = some (units cs) :=
  ⟨runsUtf8From_escapeChars hplain [] cs, urlDecodeFrom_escapeChars hplain [] cs⟩

end

theorem mem_escapes {bytes : List UInt8} (h : u ∈ bytes.flatMap escape) :
    u = percent ∨ isUnreserved u := by
  obtain ⟨b, -, hu⟩ := mem_flatMap.mp h
  have hb : b.toNat < 256 := b.toNat_lt
  have hhigh := (hexDigit_marks (show b.toNat / 16 < 16 by omega)).2
  have hlow := (hexDigit_marks (show b.toNat % 16 < 16 by omega)).2
  simp only [escape, mem_cons, not_mem_nil, or_false] at hu
  rcases hu with rfl | rfl | rfl
  · exact .inl rfl
  · exact .inr hhigh
  · exact .inr hlow

/-- The units of an escaped text are plain characters or belong to escapes. -/
theorem mem_escapeChars {plain : Char → Bool} {cs : List Char} (h : u ∈ escapeChars plain cs) :
    (∃ c ∈ cs, plain c ∧ u ∈ unitsOfChar c) ∨ u = percent ∨ isUnreserved u := by
  obtain ⟨c, hc, hu⟩ := mem_flatMap.mp h
  split at hu
  · next hplain => exact .inl ⟨c, hc, hplain, hu⟩
  · exact .inr (mem_escapes hu)

theorem length_escapes : (bytes.flatMap escape).length = 3 * bytes.length := by
  induction bytes with
  | nil => rfl
  | cons b bytes ih =>
    rw [flatMap_cons, length_append, ih, length_cons]
    simp only [escape, length_cons, length_nil]
    omega

theorem length_escapeChar (c : Char) :
    ((String.utf8EncodeChar c).flatMap escape).length ≤ 9 * (unitsOfChar c).length := by
  rw [length_escapes, String.length_utf8EncodeChar]
  unfold unitsOfChar
  split
  · next hsmall =>
    have hval : c.val.toNat < 0x10000 := hsmall
    have hne : c.utf8Size ≠ 4 := by
      rw [ne_eq, utf8Size_eq_four_iff, UInt32.lt_iff_toNat_lt]
      simp only [UInt32.reduceToNat]
      omega
    have hle := c.utf8Size_le_four
    rw [length_singleton]
    omega
  · have hle := c.utf8Size_le_four
    simp only [length_cons, length_nil]
    omega

/-- A code unit is escaped by nine units at most. -/
theorem length_escapeChars (plain : Char → Bool) (cs : List Char) :
    (escapeChars plain cs).length ≤ 9 * (units cs).length := by
  induction cs with
  | nil => simp [escapeChars]
  | cons c cs ih =>
    rw [escapeChars_cons, units, flatMap_cons, ← units, length_append, length_append]
    have hchar := length_escapeChar c
    split <;> omega

theorem utf8EncodeChar_ascii {c : Char} (hc : c.toNat < 128) :
    String.utf8EncodeChar c = [c.toNat.toUInt8] := by
  have hval : c.val.toNat ≤ 0x7F := le_of_lt_succ hc
  exact if_pos hval

/-- The bytes of other characters are no ASCII characters. -/
theorem le_utf8EncodeChar {c : Char} (hc : 128 ≤ c.toNat) :
    ∀ b ∈ String.utf8EncodeChar c, 128 ≤ b.toNat := by
  have hval : ¬ c.val.toNat ≤ 0x7F := not_le.mpr hc
  intro b hb
  simp only [String.utf8EncodeChar, if_neg hval] at hb
  split at hb
  · simp only [mem_cons, not_mem_nil, or_false] at hb
    rcases hb with rfl | rfl <;> simp only [UInt8.toNat_ofNat'] <;> omega
  · split at hb
    · simp only [mem_cons, not_mem_nil, or_false] at hb
      rcases hb with rfl | rfl | rfl <;> simp only [UInt8.toNat_ofNat'] <;> omega
    · simp only [mem_cons, not_mem_nil, or_false] at hb
      rcases hb with rfl | rfl | rfl | rfl <;> simp only [UInt8.toNat_ofNat'] <;> omega

theorem unitsOfChar_small {c : Char} (hc : c.toNat < 0x10000) :
    unitsOfChar c = [c.toNat.toUInt16] := if_pos hc

theorem urlDecodeFrom_plain {s : Text} (hpercent : percent ∉ s) (hplus : plus ∉ s) :
    urlDecodeFrom [] s = some s := by
  induction s with
  | nil => rfl
  | cons u s ih =>
    simp only [mem_cons, not_or] at hpercent hplus
    rw [urlDecodeFrom_cons (Ne.symm hpercent.1), ih hpercent.2 hplus.2, map_some,
      if_neg (Ne.symm hplus.1)]
    rfl

theorem runsUtf8From_plain {s : Text} (hpercent : percent ∉ s) : runsUtf8From [] s := by
  induction s with
  | nil => rfl
  | cons u s ih =>
    simp only [mem_cons, not_or] at hpercent
    rw [runsUtf8From_cons (Ne.symm hpercent.1), ih hpercent.2]
    rfl

theorem toNat_ofNat {n : ℕ} (h : n < 0xD800 ∨ 0xDFFF < n ∧ n < 0x110000) : (ofNat n).toNat = n := by
  have hvalid : n.isValidChar := h
  rw [ofNat, dif_pos hvalid]
  rfl

theorem unitsOfChar_single (hhigh : JavaString.isHigh u.toNat = false)
    (hlow : JavaString.isLow u.toNat = false) : unitsOfChar (ofNat u.toNat) = [u] := by
  have hu : u.toNat < 0x10000 := u.toNat_lt
  simp only [JavaString.isHigh, JavaString.isLow, decide_eq_false_iff_not] at hhigh hlow
  have hchar := toNat_ofNat (show u.toNat < 0xD800 ∨ 0xDFFF < u.toNat ∧ u.toNat < 0x110000 by omega)
  rw [unitsOfChar_small (by omega), hchar]
  simp

theorem unitsOfChar_pair {v : UInt16} (hhigh : JavaString.isHigh u.toNat)
    (hlow : JavaString.isLow v.toNat) :
    unitsOfChar (ofNat (0x10000 + (u.toNat - 0xD800) * 0x400 + (v.toNat - 0xDC00))) = [u, v] := by
  simp only [JavaString.isHigh, JavaString.isLow, decide_eq_true_eq] at hhigh hlow
  have hchar : (ofNat (0x10000 + (u.toNat - 0xD800) * 0x400 + (v.toNat - 0xDC00))).toNat =
      0x10000 + (u.toNat - 0xD800) * 0x400 + (v.toNat - 0xDC00) := toNat_ofNat (by omega)
  have hfirst : 0xD800 + (0x10000 + (u.toNat - 0xD800) * 0x400 + (v.toNat - 0xDC00) - 0x10000) /
      0x400 = u.toNat := by omega
  have hsecond : 0xDC00 + (0x10000 + (u.toNat - 0xD800) * 0x400 + (v.toNat - 0xDC00) - 0x10000) %
      0x400 = v.toNat := by omega
  rw [unitsOfChar, hchar, if_neg (by omega)]
  simp only [hfirst, hsecond]
  simp

theorem exists_char_single (hhigh : JavaString.isHigh u.toNat = false)
    (hlow : JavaString.isLow u.toNat = false) : ∃ c, unitsOfChar c = [u] :=
  ⟨_, unitsOfChar_single hhigh hlow⟩

theorem exists_char_pair {v : UInt16} (hhigh : JavaString.isHigh u.toNat)
    (hlow : JavaString.isLow v.toNat) : ∃ c, unitsOfChar c = [u, v] :=
  ⟨_, unitsOfChar_pair hhigh hlow⟩

end Simmis.UrlCoding
