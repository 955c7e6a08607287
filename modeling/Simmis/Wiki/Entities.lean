import Simmis.Wiki.Outline

/-!
# Entities with their references

What the outline shows of an entity is its parent, its key and its title. The entity also has links
to other entities. An entity that is retracted takes the links that name it with it.
-/

namespace Simmis.Wiki

open List Option Forest Relation Table

/-- An entity: its place, its links by their attributes, and what else it has. -/
structure Entity (U K T R V : Type) where
  block : Block U K T
  links : List (R × U)
  attributes : V
deriving DecidableEq, Repr

section

variable {U K T R V : Type}

def Entity.id (e : Entity U K T R V) : U := e.block.id

variable [DecidableEq U]

/-- The entity without what named entities that are gone. -/
def Entity.forget (gone : List U) (e : Entity U K T R V) : Entity U K T R V :=
  { e with
    block := { e.block with parent := e.block.parent.filter (· ∉ gone) }
    links := e.links.filter (·.2 ∉ gone) }

end

abbrev Store (U K T R V : Type) [DecidableEq U] :=
  Table (Entity.id (U := U) (K := K) (T := T) (R := R) (V := V))

namespace Store

variable {U K T R V : Type} [DecidableEq U]

section

variable (s : Store U K T R V)

def parent (u : U) : Option U := (s.get u).bind (·.block.parent)

def outline : Outline U K T where
  rows := s.rows.map Entity.block
  nodup := by
    rw [List.map_map]
    exact s.nodup

/-- The store without some entities, and without the links that name them. -/
def without (gone : List U) : Store U K T R V where
  rows := (s.rows.filter (·.id ∉ gone)).map (Entity.forget gone)
  nodup := by
    rw [List.map_map]
    exact s.nodup.sublist (List.filter_sublist.map Entity.id)

/-- `:db/retractEntity`; an id that names nothing makes the transaction throw. -/
def retractEntity (u : U) : Option (Store U K T R V) :=
  if (s.get u).isSome then some (s.without [u]) else none

end

/-- `list-blocks` below a parent: the query answers the children in any order. -/
structure ListBlocks (U K T R V : Type) [DecidableEq U] where
  list : Store U K T R V → U → List U
  perm : ∀ s p, (list s p).Perm ((s.select (·.block.parent = some p)).map Entity.id)

variable {s : Store U K T R V} {u p : U} {e : Entity U K T R V} {gone : List U}

theorem parent_eq_some : s.parent u = some p ↔ ∃ e, s.get u = some e ∧ e.block.parent = some p := by
  simp [parent, bind_eq_some_iff]

theorem isSome_of_parent (h : s.parent u = some p) : (s.get u).isSome := by
  obtain ⟨e, he, -⟩ := parent_eq_some.mp h
  rw [he]
  rfl

theorem mem_list (listing : ListBlocks U K T R V) : u ∈ listing.list s p ↔ s.parent u = some p := by
  rw [(listing.perm s p).mem_iff, List.mem_map, parent_eq_some]
  constructor
  · rintro ⟨e, he, rfl⟩
    obtain ⟨hget, hparent⟩ := mem_select.mp he
    exact ⟨e, hget, by simpa using hparent⟩
  · rintro ⟨e, hget, hparent⟩
    obtain rfl := key_of_get hget
    exact ⟨e, mem_select.mpr ⟨hget, by simpa using hparent⟩, rfl⟩

theorem nodup_list (listing : ListBlocks U K T R V) (s : Store U K T R V) (p : U) :
    (listing.list s p).Nodup := by
  rw [(listing.perm s p).nodup_iff]
  exact s.nodup_select _

theorem get_without (s : Store U K T R V) (gone : List U) (u : U) :
    (s.without gone).get u = if u ∈ gone then none else (s.get u).map (Entity.forget gone) := by
  split
  · next hu =>
    rw [get_eq_none_iff]
    intro e he heq
    obtain ⟨old, hold, rfl⟩ := mem_map.mp he
    have hkept : old.id ∉ gone := by simpa using (mem_filter.mp hold).2
    exact hkept ((show old.id = u from heq) ▸ hu)
  · next hu =>
    cases hget : s.get u with
    | none =>
      rw [map_none, get_eq_none_iff]
      intro e he heq
      obtain ⟨old, hold, rfl⟩ := mem_map.mp he
      exact get_eq_none_iff.mp hget old (mem_filter.mp hold).1 heq
    | some e =>
      obtain ⟨hmem, rfl⟩ := get_eq_some_iff.mp hget
      rw [map_some, get_eq_some_iff]
      refine ⟨mem_map.mpr ⟨e, mem_filter.mpr ⟨hmem, by simpa using hu⟩, rfl⟩, rfl⟩

theorem forget_nil (e : Entity U K T R V) : e.forget [] = e := by
  obtain ⟨⟨id, parent, order, title⟩, links, attributes⟩ := e
  cases parent <;> simp [Entity.forget]

theorem without_nil (s : Store U K T R V) : s.without [] = s := by
  apply eq_of_rows
  have hforget : (Entity.forget [] : Entity U K T R V → Entity U K T R V) = id := funext forget_nil
  simp [without, hforget]

theorem forget_forget (a b : List U) (e : Entity U K T R V) :
    (e.forget a).forget b = e.forget (a ++ b) := by
  simp only [Entity.forget, List.filter_filter, Option.filter_filter, List.mem_append, not_or,
    Bool.decide_and, Bool.and_comm]

theorem without_without (s : Store U K T R V) (a b : List U) :
    (s.without a).without b = s.without (a ++ b) := by
  have hid : (fun e : Entity U K T R V ↦ decide ((e.forget a).id ∉ b)) =
      fun e ↦ decide (e.id ∉ b) := rfl
  apply eq_of_rows
  simp only [without, List.filter_map, List.map_map, List.filter_filter, Function.comp_def,
    forget_forget, hid, List.mem_append, not_or, Bool.decide_and, Bool.and_comm]

theorem parent_without (s : Store U K T R V) (gone : List U) (u : U) :
    (s.without gone).parent u = if u ∈ gone then none else (s.parent u).filter (· ∉ gone) := by
  unfold parent
  rw [get_without]
  split
  · rfl
  · cases s.get u <;> rfl

/-- A subtree that nothing is taken from is the same as before. -/
theorem within_without {c : U} (hdisjoint : ∀ x, Within s.parent x c → x ∉ gone) {x : U} :
    Within (s.without gone).parent x c ↔ Within s.parent x c := by
  have hedge {a b : U} (h : (s.without gone).parent a = some b) : s.parent a = some b := by
    rw [parent_without] at h
    split at h
    · exact nomatch h
    · exact (filter_eq_some_iff.mp h).1
  constructor
  · exact fun h ↦ ReflTransGen.mono (fun _ _ hab ↦ hedge hab) _ _ h
  · intro h
    induction h using ReflTransGen.head_induction_on with
    | refl => exact .refl
    | @head a b hab hbc ih =>
      refine .head ?_ ih
      change (s.without gone).parent a = some b
      rw [parent_without, if_neg (hdisjoint a (.head hab hbc)), hab]
      simp [hdisjoint b hbc]

end Store

end Simmis.Wiki
