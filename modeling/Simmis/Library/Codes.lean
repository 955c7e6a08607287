import Mathlib.Data.Nat.Digits.Defs

/-!
# Self-delimiting codes

A code writes values as sequences of numbers and reads them back from the front of longer sequences,
so that the codes of parts make up codes of wholes. Sequences of numbers are packed into symbols
below 128.
-/

namespace Simmis.Codes

open List Option

variable {α β : Type}

structure Code (α : Type) where
  write : α → List ℕ
  read : List ℕ → Option (α × List ℕ)
  read_write : ∀ a rest, read (write a ++ rest) = some (a, rest)

variable (c : Code α)

theorem Code.write_injective : Function.Injective c.write := by
  intro a b h
  have hread := c.read_write a []
  rw [h, c.read_write] at hread
  exact (congrArg Prod.fst (some.inj hread)).symm

def nat : Code ℕ where
  write n := [n]
  read
    | [] => none
    | n :: rest => some (n, rest)
  read_write _ _ := rfl

def Code.pair (d : Code β) : Code (α × β) where
  write p := c.write p.1 ++ d.write p.2
  read l := (c.read l).bind fun p ↦ (d.read p.2).map fun q ↦ ((p.1, q.1), q.2)
  read_write p rest := by
    rw [List.append_assoc, c.read_write, Option.bind_some, d.read_write]
    rfl

/-- The code of values that a coded value determines. -/
def Code.via (c : Code β) (f : α → β) (g : β → α) (h : ∀ a, g (f a) = a) : Code α where
  write a := c.write (f a)
  read l := (c.read l).map fun p ↦ (g p.1, p.2)
  read_write a rest := by
    rw [c.read_write, Option.map_some, h]

def Code.option : Code (Option α) where
  write
    | none => [0]
    | some a => 1 :: c.write a
  read
    | [] => none
    | 0 :: rest => some (none, rest)
    | _ :: rest => (c.read rest).map fun p ↦ (some p.1, p.2)
  read_write o rest := by
    cases o with
    | none => rfl
    | some a =>
      change (c.read (c.write a ++ rest)).map _ = _
      rw [c.read_write]
      rfl

def Code.readMany (c : Code α) : ℕ → List ℕ → Option (List α × List ℕ)
  | 0, l => some ([], l)
  | n + 1, l => (c.read l).bind fun p ↦ (c.readMany n p.2).map fun q ↦ (p.1 :: q.1, q.2)

theorem Code.readMany_write (l : List α) (rest : List ℕ) :
    c.readMany l.length (l.flatMap c.write ++ rest) = some (l, rest) := by
  induction l with
  | nil => rfl
  | cons a l ih =>
    rw [length_cons, readMany, flatMap_cons, append_assoc, c.read_write, bind_some, ih]
    rfl

/-- A list is written behind its length. -/
def Code.list : Code (List α) where
  write l := l.length :: l.flatMap c.write
  read
    | [] => none
    | n :: rest => c.readMany n rest
  read_write l rest := c.readMany_write l rest

def int : Code ℤ :=
  (nat.pair nat).via (fun z ↦ (z.toNat, (-z).toNat)) (fun p ↦ p.1 - p.2) fun z ↦ by
    change ((z.toNat : ℤ) - ((-z).toNat : ℤ)) = z
    omega

def string : Code String :=
  nat.list.via (fun s ↦ s.toList.map Char.toNat) (fun l ↦ String.ofList (l.map Char.ofNat)) fun s ↦ by
    have hchars : s.toList.map (Char.ofNat ∘ Char.toNat) = s.toList.map id :=
      List.map_congr_left fun c _ ↦ Char.ofNat_toNat c
    rw [List.map_map, hchars, List.map_id, String.ofList_toList]

/-- The digits of a number to the base 62, the lowest first; the last one counts from 63. -/
def packOne : ℕ → ℕ → List ℕ
  | 0, _ => [63]
  | fuel + 1, n => if n < 62 then [n + 63] else (n % 62 + 1) :: packOne fuel (n / 62)

variable (l : List ℕ)

def pack : List ℕ := l.flatMap fun n ↦ packOne (n.log2 + 1) n

def unpack : List ℕ → List ℕ
  | [] => []
  | symbol :: rest =>
    if 63 ≤ symbol then (symbol - 63) :: unpack rest
    else match unpack rest with
      | [] => []
      | n :: l => (symbol - 1 + 62 * n) :: l

theorem mem_packOne {fuel n symbol : ℕ} (h : symbol ∈ packOne fuel n) :
    0 < symbol ∧ symbol < 128 := by
  induction fuel generalizing n with
  | zero =>
    obtain rfl := mem_singleton.mp h
    omega
  | succ fuel ih =>
    unfold packOne at h
    split at h
    · obtain rfl := mem_singleton.mp h
      omega
    · obtain rfl | h := mem_cons.mp h
      · omega
      · exact ih h

theorem unpack_packOne {fuel n : ℕ} (h : n < 2 ^ fuel) (rest : List ℕ) :
    unpack (packOne fuel n ++ rest) = n :: unpack rest := by
  induction fuel generalizing n with
  | zero =>
    obtain rfl : n = 0 := by omega
    rfl
  | succ fuel ih =>
    unfold packOne
    split
    · rw [singleton_append, unpack, if_pos (by omega), Nat.add_sub_cancel]
    · rw [cons_append, unpack, if_neg (by omega), ih (by omega)]
      change (n % 62 + 1 - 1 + 62 * (n / 62)) :: _ = _
      congr 1
      omega

theorem unpack_pack : unpack (pack l) = l := by
  induction l with
  | nil => rfl
  | cons n l ih =>
    unfold pack
    rw [flatMap_cons, unpack_packOne Nat.lt_log2_self]
    exact congrArg _ ih

theorem pack_append (l l' : List ℕ) : pack (l ++ l') = pack l ++ pack l' := flatMap_append

theorem mem_pack {l : List ℕ} {symbol : ℕ} (h : symbol ∈ pack l) : 0 < symbol ∧ symbol < 128 := by
  obtain ⟨n, -, h⟩ := mem_flatMap.mp h
  exact mem_packOne h

/-- All symbols as the characters of a text. -/
def toText : String := String.ofList ((pack l).map Char.ofNat)

def ofText (text : String) : List ℕ := unpack (text.toList.map Char.toNat)

theorem toNat_symbol {symbol : ℕ} (h : symbol < 128) : (Char.ofNat symbol).toNat = symbol := by
  have hvalid : Nat.isValidChar symbol := .inl (by omega)
  unfold Char.ofNat
  rw [dif_pos hvalid]
  rfl

theorem ofText_toText : ofText (toText l) = l := by
  have hsymbols : (pack l).map (Char.toNat ∘ Char.ofNat) = (pack l).map id :=
    map_congr_left fun _ hsymbol ↦ toNat_symbol (mem_pack hsymbol).2
  unfold ofText toText
  rw [String.toList_ofList, List.map_map, hsymbols, List.map_id, unpack_pack]

theorem toText_append (l l' : List ℕ) : toText (l ++ l') = toText l ++ toText l' := by
  unfold toText
  rw [pack_append, map_append, String.ofList_append]

/-- Every symbol is one byte. -/
theorem utf8ByteSize_toText : (toText l).utf8ByteSize = (pack l).length := by
  have hbytes : ∀ symbols : List ℕ, (∀ symbol ∈ symbols, symbol < 128) →
      (String.ofList (symbols.map Char.ofNat)).utf8ByteSize = symbols.length := by
    intro symbols
    induction symbols with
    | nil => exact fun _ ↦ rfl
    | cons symbol symbols ih =>
      intro h
      obtain ⟨hsymbol, h⟩ := forall_mem_cons.mp h
      have hsize : (Char.ofNat symbol).utf8Size = 1 := by
        rw [Char.utf8Size_eq_one_iff, UInt32.le_iff_toNat_le]
        exact (toNat_symbol hsymbol).trans_le (Nat.lt_succ_iff.mp hsymbol)
      rw [map_cons, String.ofList_cons, String.utf8ByteSize_append, String.utf8ByteSize_singleton,
        hsize, ih h, length_cons, Nat.add_comm]
  exact hbytes _ fun _ h ↦ (mem_pack h).2

/-- All symbols as the digits of one number. -/
def toNumber : ℕ := Nat.ofDigits 128 (pack l)

theorem toNumber_injective : Function.Injective toNumber := by
  have hdigits : ∀ l, Nat.digits 128 (toNumber l) = pack l := by
    intro l
    apply Nat.digits_ofDigits 128 (by decide)
    · exact fun symbol hsymbol ↦ (mem_pack hsymbol).2
    · intro hne
      exact (mem_pack (getLast_mem hne)).1.ne'
  intro l l' h
  have hpack : pack l = pack l' := by rw [← hdigits l, ← hdigits l', h]
  rw [← unpack_pack l, ← unpack_pack l', hpack]

def Code.print (a : α) : String := toText (c.write a)

def Code.parse (text : String) : Option α :=
  (c.read (ofText text)).bind fun p ↦ if p.2 = [] then some p.1 else none

theorem Code.parse_print (a : α) : c.parse (c.print a) = some a := by
  unfold parse print
  have hread := c.read_write a []
  rw [append_nil] at hread
  rw [ofText_toText, hread]
  rfl

def Code.number (a : α) : ℕ := toNumber (c.write a)

theorem Code.number_injective : Function.Injective c.number :=
  toNumber_injective.comp c.write_injective

end Simmis.Codes
