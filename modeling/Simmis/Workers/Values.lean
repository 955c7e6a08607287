import Simmis.Library.JavaStrings
import Mathlib.Data.Prod.Lex

/-!
# Values of the worker protocol

Clojure values, as far as they can be JSON. The entries of a map stand in the order of their keys. A
value that is never sent, such as a function or a list, is kept apart.
-/

namespace Simmis.Workers

open List Option JavaString

inductive Key where
  | keyword (namespace_ : Option JavaString) (name : JavaString)
  | string (s : JavaString)
deriving DecidableEq

/-- A double by its bits. -/
structure Double where
  bits : UInt64
deriving DecidableEq

/-- `Double/isFinite` -/
def Double.isFinite (d : Double) : Bool := d.bits &&& 0x7FF0000000000000 ≠ 0x7FF0000000000000

inductive Value where
  | nil
  | bool (b : Bool)
  | str (s : JavaString)
  | keyword (namespace_ : Option JavaString) (name : JavaString)
  | int (n : ℤ)
  | double (d : Double)
  | vector (items : List Value)
  | map (entries : List (Key × Value))
  | other (tag : ℕ)

namespace Value

mutual

def decEq : (a b : Value) → Decidable (a = b)
  | nil, nil => isTrue rfl
  | bool a, bool b => decidable_of_iff (a = b) (by simp)
  | str a, str b => decidable_of_iff (a = b) (by simp)
  | keyword a a', keyword b b' => decidable_of_iff (a = b ∧ a' = b') (by simp)
  | int a, int b => decidable_of_iff (a = b) (by simp)
  | double a, double b => decidable_of_iff (a = b) (by simp)
  | other a, other b => decidable_of_iff (a = b) (by simp)
  | vector a, vector b =>
    have := decEqItems a b
    decidable_of_iff (a = b) (by simp)
  | map a, map b =>
    have := decEqEntries a b
    decidable_of_iff (a = b) (by simp)
  | nil, bool _ | nil, str _ | nil, keyword _ _ | nil, int _ | nil, double _ | nil, vector _
  | nil, map _ | nil, other _ | bool _, nil | bool _, str _ | bool _, keyword _ _ | bool _, int _
  | bool _, double _ | bool _, vector _ | bool _, map _ | bool _, other _ | str _, nil
  | str _, bool _ | str _, keyword _ _ | str _, int _ | str _, double _ | str _, vector _
  | str _, map _ | str _, other _ | keyword _ _, nil | keyword _ _, bool _ | keyword _ _, str _
  | keyword _ _, int _ | keyword _ _, double _ | keyword _ _, vector _ | keyword _ _, map _
  | keyword _ _, other _ | int _, nil | int _, bool _ | int _, str _ | int _, keyword _ _
  | int _, double _ | int _, vector _ | int _, map _ | int _, other _ | double _, nil
  | double _, bool _ | double _, str _ | double _, keyword _ _ | double _, int _
  | double _, vector _ | double _, map _ | double _, other _ | vector _, nil | vector _, bool _
  | vector _, str _ | vector _, keyword _ _ | vector _, int _ | vector _, double _
  | vector _, map _ | vector _, other _ | map _, nil | map _, bool _ | map _, str _
  | map _, keyword _ _ | map _, int _ | map _, double _ | map _, vector _ | map _, other _
  | other _, nil | other _, bool _ | other _, str _ | other _, keyword _ _ | other _, int _
  | other _, double _ | other _, vector _ | other _, map _ =>
    isFalse (by simp)

def decEqItems : (a b : List Value) → Decidable (a = b)
  | [], [] => isTrue rfl
  | x :: a, y :: b =>
    have := decEq x y
    have := decEqItems a b
    decidable_of_iff (x = y ∧ a = b) (by simp)
  | [], _ :: _ | _ :: _, [] => isFalse (by simp)

def decEqEntries : (a b : List (Key × Value)) → Decidable (a = b)
  | [], [] => isTrue rfl
  | (k, x) :: a, (l, y) :: b =>
    have := decEq x y
    have := decEqEntries a b
    decidable_of_iff (k = l ∧ x = y ∧ a = b) (by simp [and_assoc])
  | [], _ :: _ | _ :: _, [] => isFalse (by simp)

end

instance : DecidableEq Value := decEq

end Value

/-- `:name` -/
def Key.named (name : String) : Key := .keyword none name

/-- A keyword as it is printed without its colon, a string as it is. -/
def Key.wire : Key → JavaString
  | .keyword none name => name
  | .keyword (some ns) name => ns ++ "/" ++ name
  | .string s => s

/-- The wire name of a key, and what tells apart the keys that have it. -/
def Key.code (k : Key) : List ℕ ×ₗ List ℕ :=
  toLex (k.wire.code, match k with
    | .keyword none _ => [0]
    | .keyword (some ns) _ => [0, ns.count]
    | .string _ => [1])

theorem Key.code_injective : Function.Injective Key.code := by
  intro k l h
  obtain ⟨hwire, htag⟩ := Prod.mk.inj (toLex_inj.mp h)
  have hwire : k.wire = l.wire := JavaString.code_injective hwire
  match k, l with
  | .keyword none name, .keyword none name' => exact congrArg (Key.keyword none) hwire
  | .string s, .string s' => exact congrArg Key.string hwire
  | .keyword (some ns) name, .keyword (some ns') name' =>
    have hcount : ns.units.length = ns'.units.length := (cons.inj (cons.inj htag).2).1
    have hunits : ns.units ++ (ofString "/").units ++ name.units =
        ns'.units ++ (ofString "/").units ++ name'.units := congrArg units hwire
    obtain ⟨hns, hname⟩ := append_inj (by simpa using hunits) hcount
    obtain ⟨-, hname⟩ := append_inj hname rfl
    obtain ⟨ns⟩ := ns
    obtain ⟨name⟩ := name
    dsimp only at hns hname
    rw [hns, hname]

instance : LinearOrder Key := LinearOrder.lift' Key.code Key.code_injective

namespace Value

def get? : Value → Key → Option Value
  | map entries, k => (entries.find? fun entry ↦ entry.1 = k).map Prod.snd
  | _, _ => none

/-- Put an entry in its place, instead of one with its key. -/
def insert (k : Key) (v : Value) : List (Key × Value) → List (Key × Value)
  | [] => [(k, v)]
  | (l, w) :: entries =>
    if k < l then (k, v) :: (l, w) :: entries
    else if k = l then (k, v) :: entries
    else (l, w) :: insert k v entries

/-- A map of the given entries, of which a later one replaces an earlier one. -/
def ofFields (fields : List (Key × Value)) : Value :=
  map (fields.foldl (fun entries field ↦ insert field.1 field.2 entries) [])

theorem get?_insert (k l : Key) (v : Value) (entries : List (Key × Value)) :
    (map (insert k v entries)).get? l = if k = l then some v else (map entries).get? l := by
  induction entries with
  | nil => by_cases hkl : k = l <;> simp [insert, get?, hkl]
  | cons entry entries ih =>
    obtain ⟨m, w⟩ := entry
    by_cases hkl : k = l
    · subst hkl
      unfold insert
      split
      · simp [get?]
      split
      · simp [get?]
      · next hkm =>
        have hmk : ¬ m = k := fun h ↦ hkm h.symm
        simpa [get?, hmk] using ih
    · rw [if_neg hkl] at ih ⊢
      unfold insert
      split
      · simp [get?, hkl]
      split
      · next hkm =>
        subst hkm
        simp [get?, hkl]
      · by_cases hml : m = l
        · simp [get?, hml]
        · simpa [get?, hml] using ih

def assoc (value : Value) (k : Key) (v : Value) : Value :=
  match value with
  | map entries => map (insert k v entries)
  | unchanged => unchanged

def isMap : Value → Bool
  | map _ => true
  | _ => false

/-- All keys of a map satisfy `p`. -/
def allKeys (value : Value) (p : Key → Bool) : Bool :=
  match value with
  | map entries => entries.all fun entry ↦ p entry.1
  | _ => false

/-- `closed!`: a map with exactly these keys. -/
def closed (value : Value) (fields : List Key) : Bool :=
  value.allKeys (· ∈ fields) && fields.all fun k ↦ (value.get? k).isSome

/-- What is neither `nil` nor `false`. -/
def truthy : Option Value → Bool
  | none | some nil | some (bool false) => false
  | some _ => true

variable (entries : List (Key × Value))

/-- The entries stand in the order of their keys. -/
def Sorted : Prop := entries.Pairwise fun a b ↦ a.1 < b.1

variable {v : Value}

theorem mem_insert {k : Key} {entries : List (Key × Value)} {e : Key × Value}
    (he : e ∈ insert k v entries) : e = (k, v) ∨ e ∈ entries := by
  induction entries with
  | nil => exact .inl (mem_singleton.mp he)
  | cons entry entries ih =>
    unfold insert at he
    split at he
    · exact mem_cons.mp he
    split at he
    · exact (mem_cons.mp he).imp_right (mem_cons_of_mem _)
    · obtain rfl | hlater := mem_cons.mp he
      · exact .inr (mem_cons_self ..)
      · exact (ih hlater).imp_right (mem_cons_of_mem _)

theorem Sorted.insert {entries : List (Key × Value)} (h : Sorted entries) (k : Key) (v : Value) :
    Sorted (insert k v entries) := by
  induction entries with
  | nil => exact pairwise_singleton _ _
  | cons entry entries ih =>
    obtain ⟨hhead, htail⟩ := pairwise_cons.mp h
    unfold Value.insert
    split
    · next hlt =>
      apply pairwise_cons.mpr ⟨_, h⟩
      intro e he
      obtain rfl | hlater := mem_cons.mp he
      · exact hlt
      · exact lt_trans hlt (hhead e hlater)
    split
    · next heq => exact pairwise_cons.mpr ⟨fun e he ↦ heq ▸ hhead e he, htail⟩
    · next hlt hne =>
      apply pairwise_cons.mpr ⟨_, ih htail⟩
      intro e he
      obtain rfl | hold := mem_insert he
      · exact lt_of_le_of_ne (not_lt.mp hlt) (Ne.symm hne)
      · exact hhead e hold

theorem insert_last {k : Key} {entries : List (Key × Value)} (h : ∀ e ∈ entries, e.1 < k) :
    insert k v entries = entries ++ [(k, v)] := by
  induction entries with
  | nil => rfl
  | cons entry entries ih =>
    obtain ⟨hentry, hentries⟩ := forall_mem_cons.mp h
    rw [insert, if_neg hentry.not_gt, if_neg hentry.ne', ih hentries]
    rfl

theorem get?_of_mem {entries : List (Key × Value)} (h : Sorted entries) {e : Key × Value}
    (he : e ∈ entries) : (map entries).get? e.1 = some e.2 := by
  induction entries with
  | nil => cases he
  | cons entry entries ih =>
    obtain ⟨hhead, htail⟩ := pairwise_cons.mp h
    obtain rfl | hlater := mem_cons.mp he
    · simp [get?]
    · have hne : ¬ entry.1 = e.1 := (hhead e hlater).ne
      simpa [get?, hne] using ih htail hlater

theorem mem_of_get? {entries : List (Key × Value)} {k : Key} (h : (map entries).get? k = some v) :
    (k, v) ∈ entries := by
  obtain ⟨e, he, rfl⟩ := map_eq_some_iff.mp h
  have hkey : e.1 = k := by simpa using find?_some he
  rw [← hkey]
  exact mem_of_find?_eq_some he

/-- Sorted maps with the same entries are the same. -/
theorem sorted_ext {a b : List (Key × Value)} (ha : Sorted a) (hb : Sorted b)
    (h : ∀ k, (map a).get? k = (map b).get? k) : a = b := by
  have hmem {a b : List (Key × Value)} (ha : Sorted a)
      (h : ∀ k, (map a).get? k = (map b).get? k) {e : Key × Value} (he : e ∈ a) : e ∈ b := by
    apply mem_of_get?
    rw [← h, get?_of_mem ha he]
  have hnodup {a : List (Key × Value)} (ha : Sorted a) : a.Nodup :=
    ha.imp fun hlt heq ↦ hlt.ne (congrArg Prod.fst heq)
  apply List.Perm.eq_of_pairwise _ ha hb
  · apply (perm_ext_iff_of_nodup (hnodup ha) (hnodup hb)).mpr
    exact fun e ↦ ⟨hmem ha h, hmem hb fun k ↦ (h k).symm⟩
  · exact fun x y _ _ hxy hyx ↦ absurd hyx hxy.not_gt

/-- Fields that say what `g` says of their keys. -/
theorem get?_ofFields {fields : List (Key × Value)} {g : Key → Option Value}
    (hg : ∀ f ∈ fields, g f.1 = some f.2) (k : Key) :
    (ofFields fields).get? k = if k ∈ fields.map Prod.fst then g k else none := by
  have hfold : ∀ (fields acc : List (Key × Value)), (∀ f ∈ fields, g f.1 = some f.2) →
      (map (fields.foldl (fun entries f ↦ insert f.1 f.2 entries) acc)).get? k =
        if k ∈ fields.map Prod.fst then g k else (map acc).get? k := by
    intro fields
    induction fields with
    | nil => simp
    | cons f fields ih =>
      intro acc hg
      obtain ⟨hf, hfields⟩ := forall_mem_cons.mp hg
      rw [foldl_cons, ih _ hfields, get?_insert]
      by_cases hfk : f.1 = k
      · simp [← hfk, hf]
      · have hkf : ¬ k = f.1 := fun h ↦ hfk h.symm
        simp only [map_cons, mem_cons, hkf, false_or, if_neg hfk]
  have hempty := hfold fields [] hg
  simpa [ofFields, get?] using hempty

theorem ofFields_sorted (fields : List (Key × Value)) :
    Sorted (fields.foldl (fun entries field ↦ insert field.1 field.2 entries) []) := by
  apply foldlRecOn fields _ List.Pairwise.nil
  exact fun entries h field _ ↦ Sorted.insert h field.1 field.2

mutual

/-- Every map of a value is sorted. -/
def Canonical : Value → Prop
  | vector items => CanonicalItems items
  | map entries => Sorted entries ∧ CanonicalEntries entries
  | nil | bool _ | str _ | keyword _ _ | int _ | double _ | other _ => True

def CanonicalItems : List Value → Prop
  | [] => True
  | item :: items => item.Canonical ∧ CanonicalItems items

def CanonicalEntries : List (Key × Value) → Prop
  | [] => True
  | (_, item) :: entries => item.Canonical ∧ CanonicalEntries entries

end

theorem canonical_of_mem {items : List Value} (h : CanonicalItems items) {item : Value}
    (hitem : item ∈ items) : item.Canonical := by
  induction items with
  | nil => cases hitem
  | cons x items ih =>
    obtain rfl | hlater := mem_cons.mp hitem
    · exact h.1
    · exact ih h.2 hlater

theorem canonical_of_entry {entries : List (Key × Value)} (h : CanonicalEntries entries)
    {e : Key × Value} (he : e ∈ entries) : e.2.Canonical := by
  induction entries with
  | nil => cases he
  | cons x entries ih =>
    obtain rfl | hlater := mem_cons.mp he
    · exact h.1
    · exact ih h.2 hlater

theorem Canonical.get? (h : v.Canonical) {k : Key} {item : Value} (hitem : v.get? k = some item) :
    item.Canonical := by
  cases v with
  | map entries => exact canonical_of_entry h.2 (mem_of_get? hitem)
  | _ => cases hitem

/-- A map with `f` of the value under `k`. -/
def mapAt (k : Key) (f : Value → Value) : Value → Value
  | map entries => map (entries.map fun e ↦ if e.1 = k then (e.1, f e.2) else e)
  | unchanged => unchanged

def mapValues (f : Value → Value) : Value → Value
  | map entries => map (entries.map fun e ↦ (e.1, f e.2))
  | unchanged => unchanged

def mapItems (f : Value → Value) : Value → Value
  | vector items => vector (items.map f)
  | unchanged => unchanged

theorem get?_rekeyed (g : Key × Value → Key × Value) (f : Key → Value → Value)
    (hg : ∀ e, g e = (e.1, f e.1 e.2)) (k : Key) :
    (map (entries.map g)).get? k = ((map entries).get? k).map (f k) := by
  induction entries with
  | nil => rfl
  | cons e entries ih =>
    by_cases hek : e.1 = k
    · simp [Value.get?, hg, hek]
    · simpa [Value.get?, hg, hek] using ih

theorem get?_mapAt (v : Value) (k l : Key) (f : Value → Value) :
    (v.mapAt k f).get? l = if l = k then (v.get? l).map f else v.get? l := by
  cases v with
  | map entries =>
    unfold mapAt
    rw [get?_rekeyed entries _ (fun l item ↦ if l = k then f item else item)
      fun e ↦ by by_cases hek : e.1 = k <;> simp [hek]]
    by_cases hlk : l = k <;> simp [hlk]
  | _ => simp [mapAt, Value.get?]

theorem get?_mapValues (v : Value) (f : Value → Value) (l : Key) :
    (v.mapValues f).get? l = (v.get? l).map f := by
  cases v with
  | map entries => exact get?_rekeyed entries _ (fun _ item ↦ f item) (fun e ↦ rfl) l
  | _ => rfl

/-- A map in the order of its keys. -/
def IsSorted (v : Value) : Prop := ∃ entries, v = map entries ∧ Sorted entries

theorem eq_of_get? {a b : Value} (ha : a.IsSorted) (hb : b.IsSorted)
    (h : ∀ k, a.get? k = b.get? k) : a = b := by
  obtain ⟨a, rfl, ha⟩ := ha
  obtain ⟨b, rfl, hb⟩ := hb
  rw [sorted_ext ha hb h]

theorem IsSorted.assoc (h : v.IsSorted) (k : Key) (item : Value) : (v.assoc k item).IsSorted := by
  obtain ⟨entries, rfl, h⟩ := h
  exact ⟨_, rfl, Sorted.insert h k item⟩

theorem sorted_rekeyed {entries : List (Key × Value)} (h : Sorted entries)
    {g : Key × Value → Key × Value} (hg : ∀ e, (g e).1 = e.1) : Sorted (entries.map g) := by
  apply pairwise_map.mpr
  apply List.Pairwise.imp _ h
  intro a b hab
  rwa [hg, hg]

theorem IsSorted.mapAt (h : v.IsSorted) (k : Key) (f : Value → Value) : (v.mapAt k f).IsSorted := by
  obtain ⟨entries, rfl, h⟩ := h
  exact ⟨_, rfl, sorted_rekeyed h fun e ↦ by split <;> rfl⟩

theorem IsSorted.mapValues (h : v.IsSorted) (f : Value → Value) : (v.mapValues f).IsSorted := by
  obtain ⟨entries, rfl, h⟩ := h
  exact ⟨_, rfl, sorted_rekeyed h fun _ ↦ rfl⟩

theorem IsSorted.get?_assoc (h : v.IsSorted) (k l : Key) (item : Value) :
    (v.assoc k item).get? l = if k = l then some item else v.get? l := by
  obtain ⟨entries, rfl, -⟩ := h
  exact get?_insert k l item entries

theorem Canonical.isSorted (h : v.Canonical) (hmap : v.isMap) : v.IsSorted := by
  cases v with
  | map entries => exact ⟨entries, rfl, h.1⟩
  | _ => cases hmap

mutual

/-- A value with strings for all keywords. -/
def strings : Value → Value
  | keyword namespace_ name => str (Key.keyword namespace_ name).wire
  | vector items => vector (stringsItems items)
  | map entries => map (stringsEntries entries)
  | nil => nil
  | bool b => bool b
  | str s => str s
  | int n => int n
  | double d => double d
  | other tag => other tag

def stringsItems : List Value → List Value
  | [] => []
  | item :: items => item.strings :: stringsItems items

def stringsEntries : List (Key × Value) → List (Key × Value)
  | [] => []
  | (k, item) :: entries => (.string k.wire, item.strings) :: stringsEntries entries

end

theorem stringsItems_eq (items : List Value) : stringsItems items = items.map strings := by
  induction items with
  | nil => rfl
  | cons item items ih => rw [stringsItems, ih, map_cons]

theorem stringsEntries_eq :
    stringsEntries entries = entries.map fun e ↦ (.string e.1.wire, e.2.strings) := by
  induction entries with
  | nil => rfl
  | cons e entries ih => rw [stringsEntries, ih, map_cons]

/-- A map with keywords for its keys. -/
def keyed : Value → Value
  | map entries => map (entries.map fun e ↦ (.keyword none e.1.wire, e.2))
  | unchanged => unchanged

mutual

/-- The containers that stand in one another. -/
def nesting : Value → ℕ
  | vector items => nestingItems items + 1
  | map entries => nestingEntries entries + 1
  | nil | bool _ | str _ | keyword _ _ | int _ | double _ | other _ => 0

def nestingItems : List Value → ℕ
  | [] => 0
  | item :: items => max item.nesting (nestingItems items)

def nestingEntries : List (Key × Value) → ℕ
  | [] => 0
  | (_, item) :: entries => max item.nesting (nestingEntries entries)

end

mutual

/-- The tokens of the text of a value. -/
def tokens : Value → ℕ
  | vector items => tokensItems items + 2
  | map entries => tokensEntries entries + 2
  | nil | bool _ | str _ | keyword _ _ | int _ | double _ | other _ => 1

def tokensItems : List Value → ℕ
  | [] => 0
  | item :: items => item.tokens + tokensItems items

def tokensEntries : List (Key × Value) → ℕ
  | [] => 0
  | (_, item) :: entries => item.tokens + 1 + tokensEntries entries

end

end Value

end Simmis.Workers
