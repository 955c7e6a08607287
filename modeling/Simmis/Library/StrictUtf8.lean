import Simmis.Library.UrlCoding

/-!
# Strict UTF-8

The bytes of a Java string, which has none if a surrogate stands alone in it. Cutting a string
between two characters cuts its bytes, and different strings have different bytes.
-/

namespace Simmis.JavaString

open Option Bool

/-- `Character/isHighSurrogate` before a cut, `Character/isLowSurrogate` behind. -/
def cutsPair (left right : List UInt16) : Bool :=
  left.getLast?.any (isHigh ·.toNat) && right.head?.any (isLow ·.toNat)

def unpaired (u : UInt16) : Bool := isHigh u.toNat || isLow u.toNat

def pointOfPair (u v : UInt16) : ℕ := 0x10000 + (u.toNat - 0xD800) * 0x400 + (v.toNat - 0xDC00)

/-- `encode` with `CodingErrorAction/REPORT`. -/
@[grind] def encode : List UInt16 → Option (List UInt8)
  | [] => some []
  | [u] => if unpaired u then none else some (String.utf8EncodeChar (Char.ofNat u.toNat))
  | u :: v :: rest =>
    if isHigh u.toNat && isLow v.toNat then
      (encode rest).map (String.utf8EncodeChar (Char.ofNat (pointOfPair u v)) ++ ·)
    else if unpaired u then none
    else (encode (v :: rest)).map (String.utf8EncodeChar (Char.ofNat u.toNat) ++ ·)

/-- A string that can be encoded. -/
def Encodable (units : List UInt16) : Prop := (encode units).isSome

variable {u : UInt16} {left right units : List UInt16}

theorem encode_cons (hu : unpaired u = false) :
    encode (u :: units) = (encode units).map (String.utf8EncodeChar (Char.ofNat u.toNat) ++ ·) := by
  have hhigh : isHigh u.toNat = false := (or_eq_false_iff.mp hu).1
  cases units with
  | nil => simp [encode, hu]
  | cons v units => simp [encode, hu, hhigh]

theorem encodable_cons (hu : unpaired u = false) : Encodable (u :: units) ↔ Encodable units := by
  rw [Encodable, encode_cons hu, isSome_map, Encodable]

theorem not_encodable_cons (hu : unpaired u)
    (hpair : (isHigh u.toNat && units.head?.any (isLow ·.toNat)) = false) :
    ¬Encodable (u :: units) := by
  cases units with
  | nil => simp [Encodable, encode, hu]
  | cons v units =>
    have hno : (isHigh u.toNat && isLow v.toNat) = false := by simpa using hpair
    simp [Encodable, encode, hu, hno]

theorem encodable_pair {v : UInt16} (hpair : (isHigh u.toNat && isLow v.toNat)) :
    Encodable (u :: v :: units) ↔ Encodable units := by
  rw [Encodable, encode, if_pos hpair, isSome_map, Encodable]

theorem Encodable.append (hleft : Encodable left) (hright : Encodable right) :
    Encodable (left ++ right) := by
  fun_induction encode left with
  | case1 => exact hright
  | case2 u hu => simp [Encodable, encode, hu] at hleft
  | case3 u hu => exact (encodable_cons (eq_false_iff.mpr hu)).mpr hright
  | case4 u v rest hpair ih =>
    exact (encodable_pair hpair).mpr (ih ((encodable_pair hpair).mp hleft))
  | case5 u v rest hpair hu =>
    exact absurd hleft (not_encodable_cons hu (by simpa using hpair))
  | case6 u v rest hpair hu ih =>
    have hsingle := eq_false_iff.mpr hu
    exact (encodable_cons hsingle).mpr (ih ((encodable_cons hsingle).mp hleft))

/-- A cut that does not go through a pair leaves two strings that can be encoded. -/
theorem Encodable.cut (h : Encodable (left ++ right)) (hcut : cutsPair left right = false) :
    Encodable left ∧ Encodable right := by
  fun_induction encode left with
  | case1 => exact ⟨rfl, h⟩
  | case2 u hu => exact absurd h (not_encodable_cons hu (by simpa [cutsPair] using hcut))
  | case3 u hu =>
    have hsingle := eq_false_iff.mpr hu
    exact ⟨(encodable_cons hsingle).mpr rfl, (encodable_cons hsingle).mp h⟩
  | case4 u v rest hpair ih =>
    have hcut' : cutsPair rest right = false := by
      cases rest with
      | nil => rfl
      | cons w rest => simpa [cutsPair] using hcut
    obtain ⟨hleft, hright⟩ := ih ((encodable_pair hpair).mp h) hcut'
    exact ⟨(encodable_pair hpair).mpr hleft, hright⟩
  | case5 u v rest hpair hu => exact absurd h (not_encodable_cons hu (by simpa using hpair))
  | case6 u v rest hpair hu ih =>
    have hsingle := eq_false_iff.mpr hu
    have hcut' : cutsPair (v :: rest) right = false := by simpa [cutsPair] using hcut
    obtain ⟨hleft, hright⟩ := ih ((encodable_cons hsingle).mp h) hcut'
    exact ⟨(encodable_cons hsingle).mpr hleft, hright⟩

theorem toNat_toUInt16 {n : ℕ} (h : n < 0x10000) : n.toUInt16.toNat = n := by
  rw [Nat.toUInt16, UInt16.toNat_ofNat_of_lt' (by simpa [UInt16.size] using h)]

/-- A text of characters can be encoded. -/
theorem encodable_ofString (s : String) : Encodable (ofString s).units := by
  unfold ofString
  induction s.toList with
  | nil => rfl
  | cons c cs ih =>
    refine @Encodable.append (unitsOfChar c) _ ?_ ih
    have hvalid : c.toNat < 0xD800 ∨ 0xDFFF < c.toNat ∧ c.toNat < 0x110000 := c.valid
    unfold unitsOfChar
    split
    · refine (encodable_cons ?_).mpr rfl
      rw [unpaired, toNat_toUInt16 (by omega)]
      simp only [isHigh, isLow, or_eq_false_iff, decide_eq_false_iff_not]
      omega
    · refine (encodable_pair ?_).mpr rfl
      rw [toNat_toUInt16 (by omega), toNat_toUInt16 (by omega)]
      simp only [isHigh, isLow, and_eq_true, decide_eq_true_eq]
      omega

end Simmis.JavaString
