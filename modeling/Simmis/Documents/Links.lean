import Simmis.Library.CodeUnits
import Simmis.Library.Cuts
import Simmis.Library.Lists
import Simmis.Library.UrlCoding

/-!
# Memory links

A file, a block or a frozen source of a room is addressed by an origin-relative URL. What is written
for a target is read back as the target's address.
-/

namespace Simmis.Documents.Links

open List Option Lists

open Cuts CodeUnits UrlCoding
open JavaString (unitsOfChar)

/-- `unicode?` -/
def isUnicode : Text → Bool
  | [] => true
  | u :: s =>
    if JavaString.isHigh u.toNat then
      match s with
      | v :: s => JavaString.isLow v.toNat && isUnicode s
      | [] => false
    else if JavaString.isLow u.toNat then false
    else isUnicode s

/-- `[\\\u0000-\u001f\u007f]` -/
def isForbidden (u : UInt16) : Bool := u = 92 ∨ u ≤ 0x1F ∨ u = 0x7F

/-- `path?` of a string. -/
def isPath (path : Text) : Bool :=
  1 ≤ path.length && path.length ≤ 512 && isUnicode path && !path.any isForbidden &&
    (path.splitOn 47).all fun segment ↦ !isBlank segment && segment ≠ [46] && segment ≠ [46, 46]

/-- `(str/replace text "+" "%20")` -/
def replacePlus (s : Text) : Text := s.flatMap fun u ↦ if u = plus then [37, 50, 48] else [u]

/-- `(str/replace text "%7E" "~")` -/
def replaceTilde : Text → Text
  | 37 :: 55 :: 69 :: s => 126 :: replaceTilde s
  | u :: s => u :: replaceTilde s
  | [] => []

def encode (text : Text) : Text := replaceTilde (replacePlus (urlEncode text))

def decode (raw : Text) : Option Text :=
  let raw := replacePlus raw
  if runsUtf8 raw then (urlDecode raw).filter isUnicode else none

/-- The values that `parameters` has assoc'd. -/
structure Fields where
  path : Option Text
  repo : Option Text
  block : Option Text
deriving DecidableEq

inductive Name
  | path
  | repo
  | block

def pathName : Text := units ['p', 'a', 't', 'h']
def repoName : Text := units ['r', 'e', 'p', 'o']
def blockName : Text := units ['b', 'l', 'o', 'c', 'k']

/-- `#{"path" "repo" "block"}` -/
def name (key : Text) : Option Name :=
  if key = pathName then some .path
  else if key = repoName then some .repo
  else if key = blockName then some .block
  else none

namespace Fields

def empty : Fields := ⟨none, none, none⟩

def get (out : Fields) : Name → Option Text
  | .path => out.path
  | .repo => out.repo
  | .block => out.block

def assoc (out : Fields) (value : Text) : Name → Fields
  | .path => { out with path := some value }
  | .repo => { out with repo := some value }
  | .block => { out with block := some value }

end Fields

/-- `(str/split field #"=" 2)` -/
def splitField (field : Text) : Text × Option Text :=
  match cut 61 field with
  | some (rawKey, rawValue) => (rawKey, some rawValue)
  | none => (field, none)

/-- One pass of the reduction in `parameters`. -/
def addField (out : Fields) (field : Text) : Option Fields :=
  match (decode (splitField field).1).bind name, (splitField field).2.bind decode with
  | some key, some value => if (out.get key).isSome then none else some (out.assoc value key)
  | _, _ => none

def parameters (query : Text) : Option Fields :=
  if 1 ≤ query.length ∧ query.length ≤ 8192 then (query.splitOn 38).foldlM addField Fields.empty
  else none

/-- A value under a key of a target. An object is known by what `str` prints. -/
inductive Value
  | nil
  | text (value : Text)
  | keyword (name : String)
  | object (printed : Text)
deriving DecidableEq

inductive Key
  | kind
  | room
  | path
  | repository
  | block
  | proposal
  | component
  | request
deriving DecidableEq

/-- The values of a target under the keys that are read. -/
abbrev Target := Key → Option Value

namespace Value

/-- `str` -/
def str : Value → Text
  | nil => []
  | text value => value
  | keyword name => 58 :: units name.toList
  | object printed => printed

/-- The string that satisfies `path?`. -/
def path : Value → Option Text
  | text value => if isPath value then some value else none
  | _ => none

end Value

def Target.get (t : Target) (key : Key) : Value := (t key).getD .nil

def memoryFile (room path : Text) : Target
  | .kind => some (.keyword "memory-file")
  | .room => some (.text room)
  | .path => some (.text path)
  | _ => none

def memoryBlock (room repository block : Text) (path : Option Text) : Target
  | .kind => some (.keyword "memory-block")
  | .room => some (.text room)
  | .repository => some (.text repository)
  | .block => some (.text block)
  | .path => path.map .text
  | _ => none

def roomPrefix : Text := units ['/', 'r', 'o', 'o', 'm', '/']
def filesInfix : Text := units ['/', 'f', 'i', 'l', 'e', 's', '?']
def parseQuery (room query : Text) : Option Target :=
  if isUuid room then
    match (parameters query).getD Fields.empty with
    | ⟨some path, none, none⟩ => if isPath path then some (memoryFile room path) else none
    | ⟨path, some repository, some block⟩ =>
      if isUuid repository && isUuid block && path.all isPath then
        some (memoryBlock room repository block path)
      else none
    | _ => none
  else none

def fileQuery (path : Text) : Text := pathName ++ 61 :: encode path

def blockQuery (repository block : Text) (path : Option Text) : Text :=
  repoName ++ 61 :: (repository ++ 38 :: (blockName ++ 61 :: (block ++
    path.elim [] fun path ↦ 38 :: fileQuery path)))

def route (t : Target) : Option Text :=
  let room := (t.get .room).str
  let repository := (t.get .repository).str
  let block := (t.get .block).str
  if isUuid room then
    match t.get .kind with
    | .keyword "memory-file" =>
      (t.get .path).path.map fun path ↦ roomPrefix ++ room ++ filesInfix ++ fileQuery path
    | .keyword "memory-block" =>
      if isUuid repository && isUuid block && (t.get .path = .nil || (t.get .path).path.isSome) then
        some (roomPrefix ++ room ++ filesInfix ++ blockQuery repository block (t.get .path).path)
      else none
    | _ => none
  else none

/-- The identities of a target as texts, without what its kind does not name. -/
def address (t : Target) : Target
  | .kind => some (t.get .kind)
  | .room => some (.text (t.get .room).str)
  | .path => if t.get .path = .nil then none else some (t.get .path)
  | .repository =>
    if t.get .kind = .keyword "memory-block" then some (.text (t.get .repository).str) else none
  | .block =>
    if t.get .kind = .keyword "memory-block" then some (.text (t.get .block).str) else none
  | _ => none

/-- `/room/([^/?#]+)/files\?([^#]+)`, whose room goes up to the first slash. -/
def parseRoute (url : Text) : Option Target :=
  if url.length ≤ 9000 then do
    let rest ← url.dropPrefix? roomPrefix
    let (room, _) ← cut 47 rest
    let query ← (rest.drop room.length).dropPrefix? filesInfix
    if room ≠ [] ∧ 63 ∉ room ∧ 35 ∉ room ∧ query ≠ [] ∧ 35 ∉ query then parseQuery room query
    else none
  else none

variable {u : UInt16}

theorem isUnicode_single (hhigh : JavaString.isHigh u.toNat = false)
    (hlow : JavaString.isLow u.toNat = false) (s : Text) : isUnicode (u :: s) = isUnicode s := by
  cases s <;> simp [isUnicode, hhigh, hlow]

variable {s : Text}

/-- A text without lone surrogates is made of characters. -/
theorem exists_units (h : isUnicode s) : ∃ cs, s = units cs := by
  fun_induction isUnicode s with
  | case1 => exact ⟨[], rfl⟩
  | case2 u hhigh v s ih =>
    rw [Bool.and_eq_true] at h
    obtain ⟨cs, rfl⟩ := ih h.2
    obtain ⟨c, hc⟩ := exists_char_pair hhigh h.1
    exact ⟨c :: cs, by rw [units, units, flatMap_cons, hc]; rfl⟩
  | case3 => cases h
  | case4 => cases h
  | case5 u s hhigh hlow ih =>
    obtain ⟨cs, rfl⟩ := ih h
    obtain ⟨c, hc⟩ := exists_char_single (Bool.eq_false_iff.mpr hhigh) (Bool.eq_false_iff.mpr hlow)
    exact ⟨c :: cs, by rw [units, units, flatMap_cons, hc]; rfl⟩

/-- What `URLEncoder` leaves as it is. -/
def unreserved (c : Char) : Bool := c.toNat < 128 ∧ isUnreserved c.toNat.toUInt16

/-- What `encode` leaves as it is. -/
def plain (c : Char) : Bool := unreserved c ∨ c = '~'

theorem isUnreserved_marks (h : isUnreserved u) :
    u ≠ percent ∧ u ≠ plus ∧ u ∉ [38, 61, 63, 35, 47] := by
  refine ⟨?_, ?_, ?_⟩
  · rintro rfl
    revert h
    decide
  · rintro rfl
    revert h
    decide
  · intro hmem
    simp only [mem_cons, not_mem_nil, or_false] at hmem
    rcases hmem with rfl | rfl | rfl | rfl | rfl <;> revert h <;> decide

variable {c : Char}

theorem units_unreserved (h : unreserved c) :
    unitsOfChar c = [c.toNat.toUInt16] ∧ isUnreserved c.toNat.toUInt16 := by
  simp only [unreserved, decide_eq_true_eq] at h
  exact ⟨unitsOfChar_small (by omega), h.2⟩

theorem plain_units (h : plain c) : ∃ u, unitsOfChar c = [u] ∧ (isUnreserved u ∨ u = 126) := by
  simp only [plain, decide_eq_true_eq] at h
  rcases h with h | rfl
  · exact ⟨_, (units_unreserved h).1, .inl (units_unreserved h).2⟩
  · exact ⟨126, rfl, .inr rfl⟩

theorem plain_plain : Plain plain := by
  intro c hc
  obtain ⟨u, hu, hmark | rfl⟩ := plain_units hc
  · exact ⟨u, hu, (isUnreserved_marks hmark).1, (isUnreserved_marks hmark).2.1⟩
  · exact ⟨126, hu, by decide, by decide⟩

theorem replacePlus_of_not_mem (h : plus ∉ s) : replacePlus s = s := by
  induction s with
  | nil => rfl
  | cons u s ih =>
    simp only [mem_cons, not_or] at h
    rw [replacePlus, flatMap_cons, ← replacePlus, ih h.2, if_neg (Ne.symm h.1)]
    rfl

theorem plus_not_mem_escapes (bytes : List UInt8) : plus ∉ bytes.flatMap escape := by
  intro hmem
  obtain hpercent | hmark := mem_escapes hmem
  · revert hpercent
    decide
  · exact (isUnreserved_marks hmark).2.1 rfl

/-- A space is written as any other character. -/
theorem replacePlus_urlEncodeChar (c : Char) : replacePlus (urlEncodeChar c) =
      if unreserved c then unitsOfChar c else (String.utf8EncodeChar c).flatMap escape := by
  unfold urlEncodeChar
  by_cases hc : c.toNat < 128 ∧ isUnreserved c.toNat.toUInt16
  · have hplain : unreserved c := by simpa [unreserved] using hc
    rw [if_pos hc, if_pos hplain, (units_unreserved hplain).1, replacePlus_of_not_mem]
    simpa using Ne.symm (isUnreserved_marks hc.2).2.1
  · have hplain : ¬ unreserved c := by simpa [unreserved] using hc
    rw [if_neg hc, if_neg hplain]
    split
    · next hspace =>
      subst hspace
      rfl
    · exact replacePlus_of_not_mem (plus_not_mem_escapes _)

theorem replacePlus_append (s t : Text) : replacePlus (s ++ t) = replacePlus s ++ replacePlus t :=
  flatMap_append

theorem replacePlus_urlEncode (cs : List Char) :
    replacePlus (urlEncode (units cs)) = escapeChars unreserved cs := by
  rw [urlEncode, characters_units]
  induction cs with
  | nil => rfl
  | cons c cs ih =>
    rw [flatMap_cons, replacePlus_append, ih, replacePlus_urlEncodeChar, escapeChars_cons]

theorem replaceTilde_cons (h : ∀ t, u :: s ≠ 37 :: 55 :: 69 :: t) :
    replaceTilde (u :: s) = u :: replaceTilde s := by
  rw [replaceTilde]
  rintro t rfl rfl
  exact h t rfl

theorem replaceTilde_cons_of_ne (hu : u ≠ percent) (s : Text) :
    replaceTilde (u :: s) = u :: replaceTilde s :=
  replaceTilde_cons fun _ ht ↦ hu (cons.inj ht).1

theorem replaceTilde_escape {b : UInt8} (hb : b ≠ 126) (s : Text) :
    replaceTilde (escape b ++ s) = escape b ++ replaceTilde s := by
  have hsize : b.toNat < 256 := b.toNat_lt
  have hdigits : ∀ m < 16, hexDigit m ≠ percent ∧ (hexDigit m = 55 → m = 7) ∧
      (hexDigit m = 69 → m = 14) := by decide
  obtain ⟨hhigh, hseven, -⟩ := hdigits (b.toNat / 16) (by omega)
  obtain ⟨hlow, -, hfourteen⟩ := hdigits (b.toNat % 16) (by omega)
  have hother : ∀ t, percent :: hexDigit (b.toNat / 16) :: hexDigit (b.toNat % 16) :: s ≠
      37 :: 55 :: 69 :: t := by
    intro t ht
    injection ht with _ ht
    injection ht with hfirst ht
    injection ht with hsecond _
    have hdiv := hseven hfirst
    have hmod := hfourteen hsecond
    exact hb (UInt8.toNat_inj.mp (show b.toNat = 126 by omega))
  simp only [escape, cons_append, nil_append]
  rw [replaceTilde_cons hother, replaceTilde_cons_of_ne hhigh, replaceTilde_cons_of_ne hlow]

theorem replaceTilde_escapes {bytes : List UInt8} (h : ∀ b ∈ bytes, b ≠ 126) (s : Text) :
    replaceTilde (bytes.flatMap escape ++ s) = bytes.flatMap escape ++ replaceTilde s := by
  induction bytes with
  | nil => rfl
  | cons b bytes ih =>
    obtain ⟨hb, hbytes⟩ := forall_mem_cons.mp h
    rw [flatMap_cons, append_assoc, replaceTilde_escape hb, ih hbytes, append_assoc]

theorem ne_tilde_of_mem (hc : c ≠ '~') : ∀ b ∈ String.utf8EncodeChar c, b ≠ 126 := by
  rintro b hb rfl
  by_cases hascii : c.toNat < 128
  · rw [utf8EncodeChar_ascii hascii, mem_singleton] at hb
    have hnat := congrArg UInt8.toNat hb
    have hsmall : c.toNat.toUInt8.toNat = c.toNat := by
      simpa using Nat.mod_eq_of_lt (show c.toNat < 256 by omega)
    rw [hsmall] at hnat
    exact hc (Char.toNat_inj.mp hnat.symm)
  · have hlarge := le_utf8EncodeChar (Nat.not_lt.mp hascii) 126 hb
    revert hlarge
    decide

theorem replaceTilde_escapeChars (cs : List Char) :
    replaceTilde (escapeChars unreserved cs) = escapeChars plain cs := by
  induction cs with
  | nil => rfl
  | cons c cs ih =>
    rw [escapeChars_cons, escapeChars_cons]
    by_cases hc : unreserved c
    · have hplain : plain c := by simp [plain, hc]
      obtain ⟨hunit, hmark⟩ := units_unreserved hc
      rw [if_pos hc, if_pos hplain, hunit, singleton_append,
        replaceTilde_cons_of_ne (isUnreserved_marks hmark).1, ih, singleton_append]
    · rw [if_neg hc]
      by_cases htilde : c = '~'
      · subst htilde
        have hrest := congrArg ((126 : UInt16) :: ·) ih
        exact hrest
      · have hplain : ¬ plain c := by simp [plain, hc, htilde]
        rw [if_neg hplain, replaceTilde_escapes (ne_tilde_of_mem htilde), ih]

/-- Texts are written as plain characters and escapes. -/
theorem encode_units (cs : List Char) : encode (units cs) = escapeChars plain cs := by
  rw [encode, replacePlus_urlEncode, replaceTilde_escapeChars]

section

variable {path : Text} (hpath : isUnicode path = true)
include hpath

theorem encode_marks : ∀ u ∈ encode path, u ≠ plus ∧ u ∉ [38, 61, 63, 35, 47] := by
  obtain ⟨cs, rfl⟩ := exists_units hpath
  rw [encode_units]
  intro u hu
  obtain ⟨c, -, hc, hmem⟩ | rfl | hmark := mem_escapeChars hu
  · obtain ⟨v, hv, hmark⟩ := plain_units hc
    rw [hv, mem_singleton] at hmem
    subst hmem
    rcases hmark with hmark | rfl
    · exact (isUnreserved_marks hmark).2
    · decide
  · decide
  · exact (isUnreserved_marks hmark).2

/-- What is encoded is decoded. -/
theorem decode_encode : decode (encode path) = some path := by
  have hplus : plus ∉ encode path := fun hmem ↦ (encode_marks hpath plus hmem).1 rfl
  obtain ⟨cs, rfl⟩ := exists_units hpath
  obtain ⟨hruns, hdecode⟩ := urlDecode_escapeChars plain_plain cs
  rw [decode, replacePlus_of_not_mem hplus, encode_units, if_pos hruns, hdecode,
    filter_some, if_pos hpath]

theorem length_encode : (encode path).length ≤ 9 * path.length := by
  obtain ⟨cs, rfl⟩ := exists_units hpath
  rw [encode_units]
  exact length_escapeChars plain cs

end

/-- A text without escapes is decoded to itself. -/
theorem decode_plain (hs : ∀ u ∈ s, isUnreserved u) (hunicode : isUnicode s) :
    decode s = some s := by
  have hpercent : percent ∉ s := fun hmem ↦ (isUnreserved_marks (hs _ hmem)).1 rfl
  have hplus : plus ∉ s := fun hmem ↦ (isUnreserved_marks (hs _ hmem)).2.1 rfl
  rw [decode, replacePlus_of_not_mem hplus, runsUtf8, urlDecode, runsUtf8From_plain hpercent,
    urlDecodeFrom_plain hpercent hplus, if_pos rfl, filter_some, if_pos hunicode]

theorem isUnicode_append (hs : ∀ u ∈ s, u.toNat < 0xD800) (t : Text) :
    isUnicode (s ++ t) = isUnicode t := by
  induction s with
  | nil => rfl
  | cons u s ih =>
    obtain ⟨hu, hs⟩ := forall_mem_cons.mp hs
    have hhigh : JavaString.isHigh u.toNat = false := by
      simp only [JavaString.isHigh, decide_eq_false_iff_not]
      omega
    have hlow : JavaString.isLow u.toNat = false := by
      simp only [JavaString.isLow, decide_eq_false_iff_not]
      omega
    rw [cons_append, isUnicode_single hhigh hlow, ih hs]

theorem isUnicode_small (hs : ∀ u ∈ s, u.toNat < 0xD800) : isUnicode s := by
  simpa [isUnicode] using isUnicode_append hs []

theorem uuid_marks (h : isUuid s) : ∀ u ∈ s, isUnreserved u ∧ u.toNat < 0xD800 := by
  intro u hu
  rcases marks_of_isUuid h u hu with rfl | hhex
  · decide
  · simp only [isHexDigit, decide_eq_true_eq, UInt16.le_iff_toNat_le, UInt16.reduceToNat] at hhex
    constructor
    · simp only [isUnreserved, decide_eq_true_eq, UInt16.le_iff_toNat_le, UInt16.reduceToNat]
      omega
    · omega

theorem decode_uuid (h : isUuid s) : decode s = some s :=
  decode_plain (fun u hu ↦ (uuid_marks h u hu).1)
    (isUnicode_small fun u hu ↦ (uuid_marks h u hu).2)

theorem not_mem_uuid (h : isUuid s) (hu : u ∈ ([38, 61, 63, 35, 47] : Text)) : u ∉ s :=
  fun hmem ↦ (isUnreserved_marks (uuid_marks h u hmem).1).2.2 hu

theorem not_mem_encode {path : Text} (hpath : isUnicode path)
    (hu : u ∈ ([38, 61, 63, 35, 47] : Text)) : u ∉ encode path :=
  fun hmem ↦ (encode_marks hpath u hmem).2 hu

/-- A key of the three names is its own escape. -/
theorem decode_names :
    (decode pathName).bind name = some .path ∧ (decode repoName).bind name = some .repo ∧
      (decode blockName).bind name = some .block := by
  rw [decode_plain (s := pathName) (forall_of_all (by decide)) (by decide),
    decode_plain (s := repoName) (forall_of_all (by decide)) (by decide),
    decode_plain (s := blockName) (forall_of_all (by decide)) (by decide)]
  exact ⟨rfl, rfl, rfl⟩

theorem addField_assoc {out : Fields} {key raw value : Text} {n : Name} (hkey : 61 ∉ key)
    (hname : (decode key).bind name = some n) (hraw : decode raw = some value)
    (hnew : out.get n = none) : addField out (key ++ 61 :: raw) = some (out.assoc value n) := by
  have hsplit : splitField (key ++ 61 :: raw) = (key, some raw) := by
    rw [splitField, cut_mark hkey]
  rw [addField, hsplit]
  simp [hname, hraw, hnew]

section

variable {path : Text} (hpath : isUnicode path = true)
include hpath

theorem addField_path {out : Fields} (hnew : out.path = none) :
    addField out (fileQuery path) = some { out with path := some path } :=
  addField_assoc (by decide) decode_names.1 (decode_encode hpath) hnew

theorem not_mem_fileQuery (hu : u ∈ ([38, 63, 35, 47] : Text)) : u ∉ fileQuery path := by
  have hencode : u ∉ encode path := not_mem_encode hpath (by simp at hu ⊢; tauto)
  have hname : ∀ u ∈ ([38, 63, 35, 47] : Text), u ∉ pathName ∧ u ≠ 61 :=
    forall_of_all (by decide)
  simp [fileQuery, hencode, hname u hu]

theorem length_fileQuery : (fileQuery path).length ≤ 5 + 9 * path.length := by
  have hencode := length_encode hpath
  have hname : pathName.length = 4 := rfl
  simp only [fileQuery, length_append, length_cons, hname]
  omega

theorem parameters_fileQuery (hlength : path.length ≤ 900) :
    parameters (fileQuery path) = some ⟨some path, none, none⟩ := by
  have hbound := length_fileQuery hpath
  have hpositive : 1 ≤ (fileQuery path).length := by
    rw [fileQuery, length_append, length_cons]
    omega
  have hsplit := splitOn_eq_singleton (not_mem_fileQuery hpath (u := 38) (by decide))
  rw [parameters, if_pos ⟨hpositive, by omega⟩, hsplit, foldlM_cons, addField_path hpath rfl]
  rfl

end

section

variable {repository block : Text} {path : Option Text} (hrepository : isUuid repository = true)
  (hblock : isUuid block = true)
include hrepository hblock

theorem splitOn_blockQuery (hpath : ∀ text, path = some text → isUnicode text) :
    (blockQuery repository block path).splitOn 38 =
      (repoName ++ 61 :: repository) :: (blockName ++ 61 :: block) ::
        path.elim [] fun path ↦ [fileQuery path] := by
  have hrepo : 38 ∉ repoName ++ 61 :: repository := by
    simp [repoName, units, JavaString.unitsOfChar, not_mem_uuid hrepository]
  have hname : 38 ∉ blockName ++ 61 :: block := by
    simp [blockName, units, JavaString.unitsOfChar, not_mem_uuid hblock]
  have hquery : blockQuery repository block path = (repoName ++ 61 :: repository) ++ 38 ::
      ((blockName ++ 61 :: block) ++ path.elim [] fun path ↦ 38 :: fileQuery path) := by
    simp [blockQuery]
  rw [hquery, splitOn_append_cons_self_of_not_mem hrepo]
  cases path with
  | none => rw [elim_none, append_nil, splitOn_eq_singleton hname]; rfl
  | some path =>
    rw [elim_some, splitOn_append_cons_self_of_not_mem hname,
      splitOn_eq_singleton (not_mem_fileQuery (hpath path rfl) (u := 38) (by decide))]
    rfl

theorem length_blockQuery (hpath : ∀ text, path = some text → isUnicode text ∧ text.length ≤ 512) :
    1 ≤ (blockQuery repository block path).length ∧
      (blockQuery repository block path).length ≤ 4698 := by
  have hfirst := length_of_isUuid hrepository
  have hsecond := length_of_isUuid hblock
  have hrepo : repoName.length = 4 := rfl
  have hname : blockName.length = 5 := rfl
  simp only [blockQuery, length_append, length_cons, hrepo, hname, hfirst, hsecond]
  cases path with
  | none =>
    rw [elim_none, length_nil]
    omega
  | some path =>
    obtain ⟨hunicode, hsize⟩ := hpath path rfl
    have hbound := length_fileQuery hunicode
    rw [elim_some, length_cons]
    omega

theorem parameters_blockQuery
    (hpath : ∀ text, path = some text → isUnicode text ∧ text.length ≤ 512) :
    parameters (blockQuery repository block path) = some ⟨path, some repository, some block⟩ := by
  have hbound := length_blockQuery hrepository hblock hpath
  have hrepo : addField Fields.empty (repoName ++ 61 :: repository) =
      some ⟨none, some repository, none⟩ :=
    addField_assoc (by decide) decode_names.2.1 (decode_uuid hrepository) rfl
  have hblock' : addField ⟨none, some repository, none⟩ (blockName ++ 61 :: block) =
      some ⟨none, some repository, some block⟩ :=
    addField_assoc (by decide) decode_names.2.2 (decode_uuid hblock) rfl
  rw [parameters, if_pos ⟨hbound.1, by omega⟩,
    splitOn_blockQuery hrepository hblock fun text htext ↦ (hpath text htext).1, foldlM_cons,
    hrepo, bind_eq_bind, bind_some, foldlM_cons, hblock', bind_eq_bind,
    bind_some]
  cases path with
  | none => rfl
  | some path =>
    rw [elim_some, foldlM_cons, addField_path (hpath path rfl).1 rfl]
    rfl

end

theorem isPath_bounds {path : Text} (h : isPath path) :
    isUnicode path ∧ 1 ≤ path.length ∧ path.length ≤ 512 := by
  simp only [isPath, Bool.and_eq_true, decide_eq_true_eq] at h
  tauto

theorem bounds_of_all {path : Option Text} (h : path.all isPath) :
    ∀ text, path = some text → isUnicode text ∧ text.length ≤ 512 := by
  rintro text rfl
  obtain ⟨hunicode, -, hlength⟩ := isPath_bounds (by simpa using h)
  exact ⟨hunicode, hlength⟩

variable {room : Text}

theorem parseQuery_fileQuery {path : Text} (hroom : isUuid room) (hpath : isPath path) :
    parseQuery room (fileQuery path) = some (memoryFile room path) := by
  obtain ⟨hunicode, -, hlength⟩ := isPath_bounds hpath
  rw [parseQuery, if_pos hroom, parameters_fileQuery hunicode (by omega), getD_some]
  exact if_pos hpath

theorem parseQuery_blockQuery {repository block : Text} {path : Option Text}
    (hroom : isUuid room) (hrepository : isUuid repository)
    (hblock : isUuid block) (hpath : path.all isPath) :
    parseQuery room (blockQuery repository block path) =
      some (memoryBlock room repository block path) := by
  rw [parseQuery, if_pos hroom, parameters_blockQuery hrepository hblock (bounds_of_all hpath),
    getD_some]
  cases path <;> simp_all

/-- An address is taken apart into its room and its query. -/
theorem parseRoute_url {query : Text} (hroom : isUuid room) (hquery : query ≠ [])
    (hhash : 35 ∉ query) (hlength : query.length ≤ 8000) :
    parseRoute (roomPrefix ++ room ++ filesInfix ++ query) = parseQuery room query := by
  have hsize := length_of_isUuid hroom
  have hprefix : roomPrefix.length = 6 := rfl
  have hinfix : filesInfix.length = 7 := rfl
  have hmark : ∀ u ∈ ([38, 61, 63, 35, 47] : Text), u ∉ room := fun u hu ↦ not_mem_uuid hroom hu
  have hne : room ≠ [] := by
    rintro rfl
    cases hsize
  have hcut : cut 47 (room ++ (filesInfix ++ query)) = some (room, filesInfix.tail ++ query) :=
    cut_mark (hmark 47 (by decide))
  rw [parseRoute, if_pos (by simp only [length_append, hsize, hprefix, hinfix]; omega),
    append_assoc, append_assoc, dropPrefix?_append_of_beq _ (BEq.rfl)]
  simp only [bind_eq_bind, bind_some, hcut, drop_left,
    dropPrefix?_append_of_beq query (BEq.rfl (a := filesInfix))]
  exact if_pos ⟨hne, hmark 63 (by decide), hmark 35 (by decide), hquery, hhash⟩

variable {t : Target}

/-- What a query names is a path that is allowed, or a block by UUIDs. -/
theorem parseQuery_eq_some {query : Text} (h : parseQuery room query = some t) :
    isUuid room ∧ ((∃ path, isPath path ∧ t = memoryFile room path) ∨
      ∃ repository block path, isUuid repository ∧ isUuid block ∧
        path.all isPath ∧ t = memoryBlock room repository block path) := by
  unfold parseQuery at h
  split at h
  · next hroom =>
    refine ⟨hroom, ?_⟩
    split at h
    · next path hfields =>
      split at h
      · next hpath =>
        cases h
        exact .inl ⟨path, hpath, rfl⟩
      · cases h
    · next path repository block hfields =>
      split at h
      · next hall =>
        cases h
        simp only [Bool.and_eq_true] at hall
        exact .inr ⟨repository, block, path, hall.1.1, hall.1.2, hall.2, rfl⟩
      · cases h
    · cases h
  · cases h

theorem Value.path_eq_some {v : Value} {path : Text} :
    v.path = some path ↔ v = .text path ∧ isPath path := by
  cases v with
  | text value =>
    by_cases hvalue : isPath value
    · simp only [Value.path, if_pos hvalue, some.injEq, Value.text.injEq]
      exact ⟨fun h ↦ ⟨h, h ▸ hvalue⟩, fun h ↦ h.1⟩
    · simp only [Value.path, if_neg hvalue, Value.text.injEq, reduceCtorEq, false_iff, not_and]
      exact fun h ↦ h ▸ hvalue
  | _ => simp [Value.path]

variable {url : Text}

/-- What a route is written from. -/
theorem route_eq_some (h : route t = some url) : ∃ room, isUuid room ∧
      ((∃ path, isPath path ∧ address t = memoryFile room path ∧
        url = roomPrefix ++ room ++ filesInfix ++ fileQuery path) ∨
      ∃ repository block path, isUuid repository ∧ isUuid block ∧
        path.all isPath ∧ address t = memoryBlock room repository block path ∧
        url = roomPrefix ++ room ++ filesInfix ++ blockQuery repository block path) := by
  unfold route at h
  simp only at h
  split at h
  · next hroom =>
    refine ⟨(t.get .room).str, hroom, ?_⟩
    split at h
    · next hkind =>
      obtain ⟨path, hpath, hurl⟩ := map_eq_some_iff.mp h
      obtain ⟨hvalue, hvalid⟩ := Value.path_eq_some.mp hpath
      refine .inl ⟨path, hvalid, ?_, hurl.symm⟩
      funext key
      cases key <;> simp [address, memoryFile, hkind, hvalue]
    · next hkind =>
      split at h
      · next hall =>
        simp only [Bool.and_eq_true, Bool.or_eq_true, decide_eq_true_eq] at hall
        obtain ⟨⟨hrepository, hblock⟩, hpath⟩ := hall
        cases h
        refine .inr ⟨(t.get .repository).str, (t.get .block).str, (t.get .path).path, hrepository,
          hblock, ?_, ?_, rfl⟩
        · cases hvalue : (t.get .path).path with
          | none => rfl
          | some path => exact (Value.path_eq_some.mp hvalue).2
        · funext key
          cases hvalue : (t.get .path).path with
          | none =>
            have hnil : t.get .path = .nil := by simpa [hvalue] using hpath
            cases key <;> simp [address, memoryBlock, hkind, hnil]
          | some path =>
            have htext := (Value.path_eq_some.mp hvalue).1
            cases key <;> simp [address, memoryBlock, hkind, htext]
      · cases h
    · cases h
  · cases h

theorem length_fileQuery_path {path : Text} (hpath : isPath path) :
    fileQuery path ≠ [] ∧ 35 ∉ fileQuery path ∧ (fileQuery path).length ≤ 8000 := by
  obtain ⟨hunicode, -, hlength⟩ := isPath_bounds hpath
  have hbound := length_fileQuery hunicode
  exact ⟨by simp [fileQuery], not_mem_fileQuery hunicode (by decide), by omega⟩

theorem hash_not_mem_blockQuery {repository block : Text} {path : Option Text}
    (hrepository : isUuid repository) (hblock : isUuid block)
    (hpath : path.all isPath) : 35 ∉ blockQuery repository block path := by
  have hfirst := not_mem_uuid hrepository (u := 35) (by decide)
  have hsecond := not_mem_uuid hblock (u := 35) (by decide)
  have hnames : 35 ∉ repoName ∧ 35 ∉ blockName := by decide
  cases path with
  | none => simp [blockQuery, hfirst, hsecond, hnames]
  | some path =>
    have hquery := (length_fileQuery_path (show isPath path by simpa using hpath)).2.1
    simp [blockQuery, hfirst, hsecond, hnames, hquery]

/-- The route of a target is read as its address. -/
theorem parseRoute_route (h : route t = some url) : parseRoute url = some (address t) := by
  obtain ⟨room, hroom, ⟨path, hpath, haddress, rfl⟩ |
    ⟨repository, block, path, hrepository, hblock, hpath, haddress, rfl⟩⟩ := route_eq_some h
  · obtain ⟨hne, hhash, hlength⟩ := length_fileQuery_path hpath
    rw [parseRoute_url hroom hne hhash hlength, parseQuery_fileQuery hroom hpath, haddress]
  · obtain ⟨hpositive, hlength⟩ := length_blockQuery hrepository hblock (bounds_of_all hpath)
    have hhash := hash_not_mem_blockQuery hrepository hblock hpath
    rw [parseRoute_url hroom (ne_nil_of_length_pos hpositive) hhash (by omega),
      parseQuery_blockQuery hroom hrepository hblock hpath, haddress]

theorem route_memoryFile {path : Text} (hroom : isUuid room) (hpath : isPath path) :
    route (memoryFile room path) = some (roomPrefix ++ room ++ filesInfix ++ fileQuery path) := by
  simp [route, Target.get, memoryFile, Value.str, Value.path, hroom, hpath]

theorem route_memoryBlock {repository block : Text} {path : Option Text}
    (hroom : isUuid room) (hrepository : isUuid repository)
    (hblock : isUuid block) (hpath : path.all isPath) :
    route (memoryBlock room repository block path) =
      some (roomPrefix ++ room ++ filesInfix ++ blockQuery repository block path) := by
  cases path with
  | none =>
    simp [route, Target.get, memoryBlock, Value.str, Value.path, hroom, hrepository, hblock]
  | some path =>
    have hvalid : isPath path := by simpa using hpath
    simp [route, Target.get, memoryBlock, Value.str, Value.path, hroom, hrepository, hblock, hvalid]

theorem address_memoryFile (room path : Text) :
    address (memoryFile room path) = memoryFile room path := by
  funext key
  cases key <;> simp [address, Target.get, memoryFile, Value.str]

theorem address_memoryBlock (room repository block : Text) (path : Option Text) :
    address (memoryBlock room repository block path) = memoryBlock room repository block path := by
  funext key
  cases path <;> cases key <;> simp [address, Target.get, memoryBlock, Value.str]

/-- What is read from an address is written as an address of the same target. -/
theorem route_parseRoute (h : parseRoute url = some t) :
    address t = t ∧ ∃ url', route t = some url' ∧ parseRoute url' = some t := by
  have hread : ∃ room query, parseQuery room query = some t := by
    unfold parseRoute at h
    split at h
    · simp only [bind_eq_bind, bind_eq_some_iff] at h
      obtain ⟨rest, -, ⟨room, after⟩, -, query, -, h⟩ := h
      split at h
      · exact ⟨room, query, h⟩
      · cases h
    · cases h
  obtain ⟨room, query, hquery⟩ := hread
  obtain ⟨hroom, ⟨path, hpath, rfl⟩ | ⟨repository, block, path, hrepository, hblock, hpath, rfl⟩⟩ :=
    parseQuery_eq_some hquery
  · have hroute := route_memoryFile hroom hpath
    have hparse := parseRoute_route hroute
    rw [address_memoryFile] at hparse
    exact ⟨address_memoryFile room path, _, hroute, hparse⟩
  · have hroute := route_memoryBlock hroom hrepository hblock hpath
    have hparse := parseRoute_route hroute
    rw [address_memoryBlock] at hparse
    exact ⟨address_memoryBlock room repository block path, _, hroute, hparse⟩

end Simmis.Documents.Links
