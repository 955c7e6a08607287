import Simmis.Library.Runs
import Simmis.Order.FractionalIndex

/-!
# Insertions into a list of order keys

The keys of a list stay strictly increasing exactly as long as no insertion falls between a key and
the same key followed by `!` characters. Such a neighbour is the `increment-string` of a key that
ends in `~`.
-/

namespace Simmis.FractionalIndex

open List Option Runs

/-- Insert a generated key at `position`, with the neighbours that the list has there. -/
def insertKey (keys : List Key) (position : ℕ) : Except KeyError (List Key) := do
  let key ← generateKeyBetween (keys.take position).getLast? (keys.drop position).head?
  pure (keys.take position ++ key :: keys.drop position)

variable (keys : Except KeyError (List Key))

/-- A thrown error ends the run. -/
def insertStep (position : ℕ) : Except KeyError (List Key) := keys >>= (insertKey · position)

/-- The list after the insertions at `positions` into the empty list. -/
def insertions (positions : List ℕ) : Except KeyError (List Key) :=
  run insertStep (.ok []) positions

/-- The two neighbours are not crowded. -/
def room (keys : List Key) (position : ℕ) : Bool :=
  match (keys.take position).getLast?, (keys.drop position).head? with
  | some a, some b => !crowded a b
  | _, _ => true

def HasRoom (position : ℕ) : Prop := ∀ list, keys = .ok list → room list position

/-- No call threw, and the stored strings are strictly increasing. -/
def Ordered : Prop := ∃ list, keys = .ok list ∧ (list.map render).Pairwise (· < ·)

theorem pairwise_render {keys : List Key} :
    (keys.map render).Pairwise (· < ·) ↔ keys.Pairwise (· < ·) := by
  rw [pairwise_map]
  simp only [render_lt_render]

/-- What every insertion with room preserves. -/
structure Keys (keys : List Key) : Prop where
  increasing : keys.Pairwise (· < ·)
  sound : ∀ key ∈ keys, Sound key

theorem Keys.nil : Keys [] := ⟨.nil, by simp⟩

theorem pairwise_insert {left right : List Key} {key : Key}
    (h : (left ++ right).Pairwise (· < ·)) (hleft : ∀ a ∈ left.getLast?, a < key)
    (hright : ∀ b ∈ right.head?, key < b) : (left ++ key :: right).Pairwise (· < ·) := by
  rw [pairwise_append] at h ⊢
  obtain ⟨hl, hr, hlr⟩ := h
  have hbelow : ∀ a ∈ left, a < key := by
    intro a ha
    obtain rfl | ⟨init, last, rfl⟩ := left.eq_nil_or_concat'
    · simp at ha
    · have hlast : last < key := hleft last (by simp)
      rcases mem_append.mp ha with hinit | hlast'
      · exact ((pairwise_append.mp hl).2.2 a hinit last (by simp)).trans hlast
      · exact (mem_singleton.mp hlast') ▸ hlast
  have habove : ∀ b ∈ right, key < b := by
    intro b hb
    cases right with
    | nil => simp at hb
    | cons head tail =>
      have hhead : key < head := hright head (by simp)
      rcases mem_cons.mp hb with rfl | htail
      · exact hhead
      · exact hhead.trans ((pairwise_cons.mp hr).1 b htail)
  refine ⟨hl, pairwise_cons.mpr ⟨habove, hr⟩, fun a ha b hb ↦ ?_⟩
  rcases mem_cons.mp hb with rfl | hb
  · exact hbelow a ha
  · exact hlr a ha b hb

section

variable {keys : List Key} (h : Keys keys) {position : ℕ}
include h

theorem Keys.insert {key : Key} (hleft : ∀ a ∈ (keys.take position).getLast?, a < key)
    (hright : ∀ b ∈ (keys.drop position).head?, key < b) (hsound : Sound key) :
    Keys (keys.take position ++ key :: keys.drop position) where
  increasing := pairwise_insert (by simpa using h.increasing) hleft hright
  sound k hk := by
    rcases mem_append.mp hk with hk | hk
    · exact h.sound k (mem_of_mem_take hk)
    · rcases mem_cons.mp hk with rfl | hk
      · exact hsound
      · exact h.sound k (mem_of_mem_drop hk)

/-- Neighbours in an increasing list are in order. -/
theorem Keys.neighbours_lt {a b : Key} (ha : (keys.take position).getLast? = some a)
    (hb : (keys.drop position).head? = some b) : a < b := by
  have hpair : (keys.take position ++ keys.drop position).Pairwise (· < ·) := by
    simpa using h.increasing
  exact (pairwise_append.mp hpair).2.2 a (mem_of_getLast? ha) b (mem_of_head? hb)

/-- An insertion with room returns, and keeps the keys. -/
theorem Keys.insertKey_of_room (hroom : room keys position) :
    ∃ list, insertKey keys position = .ok list ∧ Keys list := by
  have hgenerated : ∃ key, generateKeyBetween (keys.take position).getLast?
      (keys.drop position).head? = .ok key ∧ (∀ a ∈ (keys.take position).getLast?, a < key) ∧
      (∀ b ∈ (keys.drop position).head?, key < b) ∧ Sound key := by
    rcases hl : (keys.take position).getLast? with - | a <;>
      rcases hr : (keys.drop position).head? with - | b
    · exact ⟨_, rfl, by simp, by simp, baseHalf, by simp, by decide⟩
    · have hb := h.sound b (mem_of_mem_drop (mem_of_head? hr))
      obtain ⟨key, hkey, hlt, hsound⟩ := below_spec hb
      exact ⟨key, hkey, by simp, by simpa using hlt, hsound⟩
    · have ha := h.sound a (mem_of_mem_take (mem_of_getLast? hl))
      exact ⟨_, rfl, by simpa using lt_append_singleton a baseHalf, by simp, ha.append _⟩
    · have hlt := h.neighbours_lt hl hr
      have hcrowded : crowded a b = false := by simpa [room, hl, hr] using hroom
      have hspec := (between_spec hlt).mpr hcrowded
      exact ⟨_, rfl, by simpa using hspec.1, by simpa using hspec.2, between_sound hlt⟩
  obtain ⟨key, hkey, hleft, hright, hsound⟩ := hgenerated
  exact ⟨_, by rw [insertKey, hkey]; rfl, h.insert hleft hright hsound⟩

/-- An insertion without room returns a list that is out of order. -/
theorem Keys.not_ordered_of_crowded (hroom : room keys position = false) :
    ¬ Ordered (insertKey keys position) := by
  rcases hl : (keys.take position).getLast? with - | a
  · simp [room, hl] at hroom
  rcases hr : (keys.drop position).head? with - | b
  · simp [room, hl, hr] at hroom
  have hcrowded : crowded a b := by simpa [room, hl, hr] using hroom
  have hinsert : insertKey keys position =
      .ok (keys.take position ++ between a b :: keys.drop position) := by
    rw [insertKey, hl, hr]
    rfl
  rintro ⟨list, hlist, hpair⟩
  rw [hinsert] at hlist
  obtain rfl := Except.ok.inj hlist
  rw [pairwise_render, pairwise_append] at hpair
  have hbetween : a < between a b ∧ between a b < b :=
    ⟨hpair.2.2 a (mem_of_getLast? hl) _ mem_cons_self,
      (pairwise_cons.mp hpair.2.1).1 b (mem_of_head? hr)⟩
  simpa [hcrowded] using (between_spec (h.neighbours_lt hl hr)).mp hbetween

end

theorem Keys.ordered {keys : List Key} (h : Keys keys) : Ordered (.ok keys) :=
  ⟨keys, rfl, pairwise_render.mpr h.increasing⟩

theorem ordered_iff_along {keys : List Key} (h : Keys keys) (positions : List ℕ) :
    (∀ n, Ordered (run insertStep (.ok keys) (positions.take n))) ↔
      Along insertStep HasRoom (.ok keys) positions := by
  induction positions generalizing keys with
  | nil => simpa using h.ordered
  | cons position positions ih =>
    have hstep : insertStep (.ok keys) position = insertKey keys position := rfl
    cases hroom : room keys position with
    | true =>
      obtain ⟨list, hlist, hkeys⟩ := h.insertKey_of_room hroom
      have hhere : HasRoom (.ok keys) position := fun list hlist ↦ Except.ok.inj hlist ▸ hroom
      rw [along_cons, hstep, hlist, ← ih hkeys]
      constructor
      · intro hall
        exact ⟨hhere, fun n ↦ by simpa [hstep, hlist] using hall (n + 1)⟩
      · rintro ⟨-, hall⟩ (- | n)
        · simpa using h.ordered
        · simpa [hstep, hlist] using hall n
    | false =>
      refine iff_of_false (fun hall ↦ ?_) fun halong ↦ ?_
      · refine h.not_ordered_of_crowded hroom ?_
        simpa [hstep] using hall 1
      · have hhere : room keys position := halong.1 keys rfl
        rw [hroom] at hhere
        exact absurd hhere Bool.false_ne_true

/-- The keys stay strictly increasing exactly when every insertion has room. -/
theorem insertions_ordered_iff (positions : List ℕ) :
    (∀ n, Ordered (insertions (positions.take n))) ↔ Along insertStep HasRoom (.ok []) positions :=
  ordered_iff_along .nil positions

/-- Two keys, ninety-nine insertions before the last, and one before the newest. -/
def crowdedPositions : List ℕ := 0 :: 0 :: (List.range' 1 99 ++ [99])

/-- The last two insertions generate `O~!` and, to its left, `O~!P`. -/
theorem insertions_not_ordered : ¬ ∀ positions, Ordered (insertions positions) := by
  intro h
  obtain ⟨list, hlist, hpair⟩ := h crowdedPositions
  have hdisorder : (insertions crowdedPositions).toOption.map
      (fun keys ↦ decide (keys.Pairwise (· < ·))) = some false := by decide +kernel
  rw [hlist] at hdisorder
  exact absurd (pairwise_render.mp hpair) (of_decide_eq_false (some.inj hdisorder))

end Simmis.FractionalIndex
