import Mathlib.Data.Set.Finite.List

/-!
# Forests

A forest is given by the parent of each node. The first part moves one node below another parent.
The second part flattens the ordered children of a node to document order, and compares the
flattenings of two forests.
-/

namespace Simmis.Forest

open List Option Relation Nat

variable {U : Type*} {parent parent' : U → Option U}

def Edge (parent : U → Option U) (b a : U) : Prop := parent b = some a

/-- `a` is a proper ancestor of `b`. -/
abbrev Below (parent : U → Option U) : U → U → Prop := TransGen (Edge parent)

/-- `b` is in the subtree of `a`. -/
abbrev Within (parent : U → Option U) : U → U → Prop := ReflTransGen (Edge parent)

def Acyclic (parent : U → Option U) : Prop := ∀ b, ¬ Below parent b b

variable {b a : U}

theorem below_iff : Below parent b a ↔ ∃ p, parent b = some p ∧ Within parent p a :=
  TransGen.head'_iff

theorem within_iff : Within parent b a ↔ a = b ∨ Below parent b a := reflTransGen_iff_eq_or_transGen

theorem within_of_below (h : Below parent b a) : Within parent b a := TransGen.to_reflTransGen h

theorem edge_unique : Relator.RightUnique (Edge parent) :=
  fun _ _ _ hb hc ↦ some.inj (hb.symm.trans hc)

theorem within_root {r : U} (hroot : parent r = none) (h : Within parent r a) : a = r := by
  rcases within_iff.mp h with heq | hbelow
  · exact heq
  · obtain ⟨p, hp, -⟩ := below_iff.mp hbelow
    exact nomatch hroot.symm.trans hp

/-- A node has one root at most. -/
theorem root_unique {r r' : U} (hroot : parent r = none) (hroot' : parent r' = none)
    (h : Within parent b r) (h' : Within parent b r') : r = r' := by
  rcases ReflTransGen.total_of_right_unique edge_unique h h' with hle | hle
  · exact (within_root hroot hle).symm
  · exact within_root hroot' hle

/-- Of two subtrees with a common node one contains the other. -/
theorem within_total {x : U} (ha : Within parent x a) (hb : Within parent x b) :
    Within parent a b ∨ Within parent b a :=
  ReflTransGen.total_of_right_unique edge_unique ha hb

/-- The parents differ at `b` only. -/
def Moved (parent parent' : U → Option U) (b : U) : Prop := ∀ x, x ≠ b → parent' x = parent x

theorem Moved.symm (h : Moved parent parent' b) : Moved parent' parent b :=
  fun x hx ↦ (h x hx).symm

/-- Every node that is reached from a cycle is on it. -/
theorem cycle_within {x y : U} (hcycle : Below parent x x) (h : Within parent x y) :
    Below parent y y := by
  induction h with
  | refl => exact hcycle
  | tail _ hedge ih =>
    obtain ⟨p, hp, hwithin⟩ := below_iff.mp ih
    obtain rfl := edge_unique hp hedge
    exact TransGen.tail' hwithin hedge

/-- A walk up a cycle comes back. -/
theorem cycle_back {x y : U} (hcycle : Below parent x x) (h : Within parent x y) :
    Within parent y x := by
  induction h with
  | refl => exact .refl
  | @tail z _ _ hedge ih =>
    have hbelow : Below parent z x := by
      rcases within_iff.mp ih with rfl | hbelow
      · exact hcycle
      · exact hbelow
    obtain ⟨p, hp, hwithin⟩ := below_iff.mp hbelow
    exact edge_unique hp hedge ▸ hwithin

/-- Within finitely many nodes, a way up that does not end runs into a cycle. -/
theorem exists_cycle {nodes : List U} {x : U}
    (hnodes : ∀ y, Within parent x y → y ∈ nodes ∧ parent y ≠ none) :
    ∃ z, Below parent x z ∧ Below parent z z := by
  by_contra hnone
  have hacyclic {z : U} (hz : Within parent x z) : ¬ Below parent z z :=
    fun hcycle ↦ hnone ⟨z, hcycle.trans_right hz, hcycle⟩
  let Above := {y // Within parent x y}
  have hfinite : Finite Above := (nodes.finite_toSet.subset fun y hy ↦ (hnodes y hy).1).to_subtype
  have hirrefl : Std.Irrefl fun a b : Above ↦ Below parent b.1 a.1 := ⟨fun a ↦ hacyclic a.2⟩
  obtain ⟨⟨y, hy⟩, -, hlast⟩ := (Finite.wellFounded_of_trans_of_irrefl
    fun a b : Above ↦ Below parent b.1 a.1).has_min Set.univ ⟨⟨x, .refl⟩, trivial⟩
  obtain ⟨p, hp⟩ := Option.ne_none_iff_exists'.mp (hnodes y hy).2
  exact hlast ⟨p, hy.tail hp⟩ trivial (.single hp)
section

variable (hmoved : Moved parent parent' b)
include hmoved

theorem within_to {x : U} (h : Within parent x b) : Within parent' x b := by
  induction h using ReflTransGen.head_induction_on with
  | refl => exact .refl
  | @head x y hedge _ ih =>
    by_cases hx : x = b
    · exact hx ▸ .refl
    · exact ReflTransGen.head ((hmoved x hx).trans hedge) ih

theorem within_avoid {x : U} (h : Within parent x a) (havoid : ¬ Within parent x b) :
    Within parent' x a := by
  induction h using ReflTransGen.head_induction_on with
  | refl => exact .refl
  | @head x y hedge _ ih =>
    have hx : x ≠ b := by
      rintro rfl
      exact havoid .refl
    exact ReflTransGen.head ((hmoved x hx).trans hedge) (ih fun hy ↦ havoid (.head hedge hy))

theorem below_avoid {x : U} (h : Below parent x a) (havoid : ¬ Within parent x b) :
    Below parent' x a := by
  obtain ⟨p, hp, hwithin⟩ := below_iff.mp h
  have hx : x ≠ b := by
    rintro rfl
    exact havoid .refl
  exact below_iff.mpr ⟨p, (hmoved x hx).trans hp,
    within_avoid hmoved hwithin fun hy ↦ havoid (.head hp hy)⟩

/-- A node can be moved below any node that is not in its subtree. -/
theorem acyclic_moved (hacyclic : Acyclic parent)
    (hnew : ∀ s, parent' b = some s → ¬ Within parent s b) : Acyclic parent' := by
  intro x hcycle
  by_cases hx : Within parent' x b
  · obtain ⟨s, hs, hsb⟩ := below_iff.mp (cycle_within hcycle hx)
    exact hnew s hs (within_to hmoved.symm hsb)
  · exact hacyclic x (below_avoid hmoved.symm hcycle hx)

/-- The subtree of the moved node goes where its new parent is. -/
theorem below_moved {s x : U} (hs : parent' b = some s) (hnew : ¬ Within parent s b)
    (hx : Within parent x b) (ha : Within parent s a) : Below parent' x a :=
  TransGen.trans_right (within_to hmoved hx) (below_iff.mpr ⟨s, hs, within_avoid hmoved ha hnew⟩)

end

/-- In a finite forest the nodes have ranks that grow towards the roots. -/
theorem exists_rank {nodes : List U} (hacyclic : Acyclic parent)
    (hnodes : ∀ {c p}, parent c = some p → c ∈ nodes) :
    ∃ rank : U → ℕ, (∀ {c p}, parent c = some p → rank c < rank p) ∧
      ∀ b ∈ nodes, rank b < nodes.length := by
  classical
  refine ⟨fun x ↦ {u ∈ nodes.toFinset | Below parent u x}.card, ?_, ?_⟩
  · intro c p hparent
    apply Finset.card_lt_card
    refine Finset.ssubset_iff_of_subset (fun u hu ↦ ?_) |>.mpr ⟨c, ?_, ?_⟩
    · rw [Finset.mem_filter] at hu ⊢
      exact ⟨hu.1, hu.2.tail hparent⟩
    · rw [Finset.mem_filter, List.mem_toFinset]
      exact ⟨hnodes hparent, .single hparent⟩
    · exact fun hmem ↦ hacyclic c (Finset.mem_filter.mp hmem).2
  · intro b hb
    apply lt_of_lt_of_le _ nodes.toFinset_card_le
    apply Finset.card_lt_card
    refine Finset.ssubset_iff_of_subset (Finset.filter_subset _ _) |>.mpr ⟨b, ?_, ?_⟩
    · exact mem_toFinset.mpr hb
    · exact fun hmem ↦ hacyclic b (Finset.mem_filter.mp hmem).2

/-- The subtrees of two children of one node have no common node. -/
theorem children_disjoint (hacyclic : Acyclic parent) {x p c : U} (hb : parent b = some p)
    (hc : parent c = some p) (hxb : Within parent x b) (hxc : Within parent x c) : b = c := by
  have hbelow {a d : U} (ha : parent a = some p) (hd : parent d = some p)
      (h : Within parent a d) : d = a := by
    refine (within_iff.mp h).resolve_right fun hlow ↦ ?_
    obtain ⟨q, hq, hqd⟩ := below_iff.mp hlow
    obtain rfl := some.inj (ha.symm.trans hq)
    exact hacyclic d (below_iff.mpr ⟨p, hd, hqd⟩)
  rcases within_total hxb hxc with h | h
  · exact (hbelow hb hc h).symm
  · exact hbelow hc hb h

section

variable (kids : U → List U)

/-- The nodes below `x` in document order, with their depths, up to the fuel. -/
def flatten : ℕ → ℕ → U → List (U × ℕ)
  | 0, _, _ => []
  | n + 1, d, x => (kids x).flatMap fun c ↦ (c, d) :: flatten n (d + 1) c

/-- A bound on the height of the tree below a node. -/
def Ranks (rank : U → ℕ) : Prop := ∀ x, ∀ c ∈ kids x, rank c < rank x

variable {kids} {rank : U → ℕ}

theorem flatten_stable (hrank : Ranks kids rank) {n m d : ℕ} {x : U} (hn : rank x ≤ n)
    (hm : rank x ≤ m) : flatten kids n d x = flatten kids m d x := by
  have hempty (y : U) (hy : rank y = 0) : kids y = [] := by
    apply eq_nil_iff_forall_not_mem.mpr
    intro c hc
    exact not_lt_zero _ (hy ▸ hrank y c hc)
  induction n generalizing m d x with
  | zero =>
    have hnone := hempty x (le_zero.mp hn)
    cases m with
    | zero => rfl
    | succ m => simp [flatten, hnone]
  | succ n ih =>
    cases m with
    | zero =>
      have hnone := hempty x (le_zero.mp hm)
      simp [flatten, hnone]
    | succ m =>
      apply flatMap_congr
      intro c hc
      have hlt := hrank x c hc
      rw [ih (m := m) (d := d + 1) (by omega) (by omega)]

theorem depth_le_of_mem_flatten {n d : ℕ} {x : U} {y : U × ℕ} (h : y ∈ flatten kids n d x) :
    d ≤ y.2 := by
  induction n generalizing d x with
  | zero => cases h
  | succ n ih =>
    obtain ⟨c, -, hy⟩ := mem_flatMap.mp h
    obtain rfl | hlower := mem_cons.mp hy
    · exact le_refl d
    · exact le_of_succ_le (ih hlower)

/-- The siblings are read off from their flattened subtrees. -/
theorem siblings_eq_iff {n d : ℕ} {l r : List U} :
    (l.flatMap fun c ↦ (c, d) :: flatten kids n (d + 1) c) =
      (r.flatMap fun c ↦ (c, d) :: flatten kids n (d + 1) c) ↔ l = r := by
  have hread (l : List U) :
      ((l.flatMap fun c ↦ (c, d) :: flatten kids n (d + 1) c).filter (·.2 = d)).map (·.1) = l := by
    induction l with
    | nil => rfl
    | cons c l ih =>
      have hlower : (flatten kids n (d + 1) c).filter (·.2 = d) = [] := by
        apply filter_eq_nil_iff.mpr
        intro y hy
        have hdepth := depth_le_of_mem_flatten hy
        simp
        omega
      rw [flatMap_cons, filter_append, filter_cons_of_pos (by simp), hlower, map_append, ih]
      rfl
  constructor
  · intro h
    rw [← hread l, h, hread]
  · exact fun h ↦ congrArg _ h

/-- The flattening looks at the children of the nodes below the root only. -/
theorem flatten_congr {kids' : U → List U} (inside : U → Prop)
    (hinside : ∀ x, inside x → kids' x = kids x ∧ ∀ c ∈ kids x, inside c) {x : U} (hx : inside x)
    (n d : ℕ) : flatten kids' n d x = flatten kids n d x := by
  induction n generalizing x d with
  | zero => rfl
  | succ n ih =>
    obtain ⟨hsame, hkids⟩ := hinside x hx
    rw [flatten, flatten, hsame]
    apply flatMap_congr
    intro c hc
    rw [ih (hkids c hc)]

end

end Simmis.Forest

namespace Simmis

open Forest Relation

/-- A forest with an order on the children of each node, and a bound on its height. -/
structure OrderedForest (U : Type*) where
  parent : U → Option U
  kids : U → List U
  mem_kids : ∀ {x c}, c ∈ kids x ↔ parent c = some x
  nodup_kids : ∀ x, (kids x).Nodup
  rank : U → ℕ
  rank_lt : Ranks kids rank
  bound : ℕ
  rank_le : ∀ x, rank x ≤ bound

namespace OrderedForest

variable {U : Type*} (F G : OrderedForest U)

def doc (d : ℕ) (x : U) : List (U × ℕ) := flatten F.kids F.bound d x

/-- The subtrees of some siblings in document order. -/
def seg (d : ℕ) (l : List U) : List (U × ℕ) := l.flatMap fun c ↦ (c, d) :: F.doc (d + 1) c

theorem doc_eq (d : ℕ) (x : U) : F.doc d x = F.seg d (F.kids x) := by
  have hstable : F.doc d x = flatten F.kids (F.bound + 1) d x :=
    flatten_stable F.rank_lt (F.rank_le x) (Nat.le_succ_of_le (F.rank_le x))
  exact hstable

@[simp] theorem seg_nil (d : ℕ) : F.seg d [] = [] := rfl

@[simp] theorem seg_cons (d : ℕ) (c : U) (l : List U) :
    F.seg d (c :: l) = (c, d) :: F.doc (d + 1) c ++ F.seg d l := rfl

@[simp] theorem seg_append (d : ℕ) (l r : List U) : F.seg d (l ++ r) = F.seg d l ++ F.seg d r :=
  List.flatMap_append

variable {F G}

theorem below_rank {b a : U} (h : Below F.parent b a) : F.rank b < F.rank a := by
  induction h with
  | single hedge => exact F.rank_lt _ _ (F.mem_kids.mpr hedge)
  | tail _ hedge ih => exact lt_trans ih (F.rank_lt _ _ (F.mem_kids.mpr hedge))

theorem acyclic (F : OrderedForest U) : Acyclic F.parent :=
  fun _ h ↦ lt_irrefl _ (below_rank h)

variable {p : U}

/-- Siblings have no common node. -/
theorem sibling_disjoint {x y c : U} (hy : y ∈ F.kids x) (hc : c ∈ F.kids x) (hne : c ≠ y)
    (hpy : Within F.parent p y) : ¬ Within F.parent p c := by
  intro hpc
  have hup {a b : U} (ha : a ∈ F.kids x) (hb : b ∈ F.kids x) (h : Within F.parent a b) : b = a := by
    rcases within_iff.mp h with heq | hbelow
    · exact heq
    · obtain ⟨q, hq, hqb⟩ := below_iff.mp hbelow
      obtain rfl := Option.some.inj (hq.symm.trans (F.mem_kids.mp ha))
      have hcycle : Below F.parent q q := TransGen.tail' hqb (F.mem_kids.mp hb)
      exact absurd hcycle (F.acyclic q)
  rcases within_total hpy hpc with h | h
  · exact hne (hup hy hc h)
  · exact hne (hup hc hy h).symm

/-- The flattening of a subtree depends on the children of its nodes only. -/
theorem doc_congr {x : U} (hsame : ∀ y, Within F.parent y x → G.kids y = F.kids y) (d : ℕ) :
    G.doc d x = F.doc d x := by
  induction hn : F.rank x using Nat.strongRecOn generalizing x d with
  | ind n ih =>
    rw [G.doc_eq, F.doc_eq, hsame x .refl]
    apply List.flatMap_congr
    intro c hc
    have hlt := F.rank_lt x c hc
    have hc' := F.mem_kids.mp hc
    rw [ih _ (hn ▸ hlt) (fun y hy ↦ hsame y (hy.tail hc')) (d + 1) rfl]

variable {l : List U}

theorem seg_congr (hsame : ∀ c ∈ l, ∀ y, Within F.parent y c → G.kids y = F.kids y) (d : ℕ) :
    G.seg d l = F.seg d l := by
  apply List.flatMap_congr
  intro c hc
  rw [doc_congr (hsame c hc)]

/-- A subtree lies one level deeper under a deeper node. -/
theorem doc_shift (d : ℕ) (x : U) :
    F.doc (d + 1) x = (F.doc d x).map fun entry ↦ (entry.1, entry.2 + 1) := by
  induction hn : F.rank x using Nat.strongRecOn generalizing x d with
  | ind n ih =>
    rw [F.doc_eq, F.doc_eq, seg, seg, List.map_flatMap]
    apply List.flatMap_congr
    intro c hc
    rw [List.map_cons, ih _ (hn ▸ F.rank_lt x c hc) (d + 1) c rfl]

/-- A change in the subtree of one node changes one stretch of the document. -/
theorem doc_edit {x : U} (hsame : ∀ y, ¬ Within F.parent y p → G.kids y = F.kids y)
    (hp : Within F.parent p x) (d : ℕ) :
    ∃ before after e, F.doc d x = before ++ F.doc e p ++ after ∧
      G.doc d x = before ++ G.doc e p ++ after := by
  induction hp generalizing d with
  | refl => exact ⟨[], [], d, by simp, by simp⟩
  | @tail y z hpy hedge ih =>
    have hz : ¬ Within F.parent z p := fun h ↦
      F.acyclic _ (TransGen.trans_right h (TransGen.tail' hpy hedge))
    have hy : y ∈ F.kids z := F.mem_kids.mpr hedge
    obtain ⟨l, r, hsplit⟩ := List.append_of_mem hy
    have hnodup := F.nodup_kids z
    rw [hsplit] at hnodup
    have hother (c : U) (hc : c ∈ l ∨ c ∈ r) (u : U) (hu : Within F.parent u c) :
        G.kids u = F.kids u := by
      apply hsame
      intro hup
      have hne : c ≠ y := by
        rintro rfl
        simp only [List.nodup_append, List.nodup_cons] at hnodup
        rcases hc with hc | hc
        · exact hnodup.2.2 c hc c List.mem_cons_self rfl
        · exact hnodup.2.1.1 hc
      refine sibling_disjoint hy ?_ hne (hup.trans hpy) hu
      rw [hsplit]
      rcases hc with hc | hc <;> simp [hc]
    obtain ⟨before, after, e, hF, hG⟩ := ih (d + 1)
    refine ⟨F.seg d l ++ (y, d) :: before, after ++ F.seg d r, e, ?_, ?_⟩
    · rw [F.doc_eq, hsplit]
      simp [hF]
    · rw [G.doc_eq, hsame z hz, hsplit]
      simp [hG, seg_congr (G := G) (fun c hc ↦ hother c (.inl hc)),
        seg_congr (G := G) (fun c hc ↦ hother c (.inr hc))]

theorem not_within_kid {c : U} (hc : c ∈ F.kids p) : ¬ Within F.parent p c := fun h ↦
  F.acyclic p (TransGen.tail' h (F.mem_kids.mp hc))

/-- The subtrees of the children stay when the order of the children changes. -/
theorem seg_kids (hsame : ∀ y, y ≠ p → G.kids y = F.kids y) (hl : ∀ c ∈ l, c ∈ F.kids p) (e : ℕ) :
    G.seg e l = F.seg e l := by
  refine seg_congr (fun c hc y hy ↦ hsame y ?_) e
  rintro rfl
  exact not_within_kid (hl c hc) hy

/-- Two neighbours change places. -/
theorem doc_swap {x a b : U} {r : List U} (hF : F.kids p = l ++ a :: b :: r)
    (hG : G.kids p = l ++ b :: a :: r) (hsame : ∀ y, y ≠ p → G.kids y = F.kids y)
    (hp : Within F.parent p x) (d : ℕ) :
    ∃ before after e, F.doc d x = before ++ F.seg e [a] ++ F.seg e [b] ++ after ∧
      G.doc d x = before ++ F.seg e [b] ++ F.seg e [a] ++ after := by
  obtain ⟨before, after, e, hdoc, hdoc'⟩ := doc_edit (G := G)
    (fun y hy ↦ hsame y fun heq ↦ hy (heq ▸ .refl)) hp d
  have hkids : G.seg e (G.kids p) = F.seg e (G.kids p) := by
    refine seg_kids hsame (fun c hc ↦ ?_) e
    grind
  refine ⟨before ++ F.seg e l, F.seg e r ++ after, e, ?_, ?_⟩
  · rw [hdoc, F.doc_eq e p, hF]
    simp
  · rw [hdoc', G.doc_eq e p, hkids, hG]
    simp

/-- A leaf comes in after `l`. -/
theorem doc_insert {x n : U} {r : List U} (hF : F.kids p = l ++ r) (hG : G.kids p = l ++ n :: r)
    (hleaf : G.kids n = []) (hsame : ∀ y, y ≠ p → G.kids y = F.kids y) (hp : Within F.parent p x)
    (d : ℕ) : ∃ before after e, F.doc d x = before ++ F.seg e l ++ F.seg e r ++ after ∧
      G.doc d x = before ++ F.seg e l ++ (n, e) :: F.seg e r ++ after := by
  obtain ⟨before, after, e, hdoc, hdoc'⟩ := doc_edit (G := G)
    (fun y hy ↦ hsame y fun heq ↦ hy (heq ▸ .refl)) hp d
  have hl : G.seg e l = F.seg e l := by
    refine seg_kids hsame (fun c hc ↦ ?_) e
    rw [hF]
    exact List.mem_append_left _ hc
  have hr : G.seg e r = F.seg e r := by
    refine seg_kids hsame (fun c hc ↦ ?_) e
    rw [hF]
    exact List.mem_append_right _ hc
  have hn : G.doc (e + 1) n = [] := by rw [G.doc_eq, hleaf, seg_nil]
  refine ⟨before, after, e, ?_, ?_⟩
  · rw [hdoc, F.doc_eq e p, hF]
    simp
  · rw [hdoc', G.doc_eq e p, hG]
    simp [hl, hr, hn]

/-- A node becomes the last child of its neighbour: its subtree goes one level deeper. -/
theorem doc_indent {x a b : U} {r : List U} (hF : F.kids p = l ++ a :: b :: r)
    (hG : G.kids p = l ++ a :: r) (hkids : G.kids a = F.kids a ++ [b])
    (hsame : ∀ y, y ≠ p → y ≠ a → G.kids y = F.kids y) (hp : Within F.parent p x) (d : ℕ) :
    ∃ before after e, F.doc d x = before ++ F.seg e [b] ++ after ∧
      G.doc d x = before ++ (F.seg e [b]).map (fun entry ↦ (entry.1, entry.2 + 1)) ++ after := by
  have ha : a ∈ F.kids p := by simp [hF]
  have hinside (y : U) (hy : ¬ Within F.parent y p) : G.kids y = F.kids y := by
    refine hsame y (fun heq ↦ hy (heq ▸ .refl)) fun heq ↦ hy ?_
    exact heq ▸ .single (F.mem_kids.mp ha)
  obtain ⟨before, after, e, hdoc, hdoc'⟩ := doc_edit (G := G) hinside hp d
  have hnodup := F.nodup_kids p
  rw [hF] at hnodup
  have hleft (c : U) (hc : c ∈ l) : c ∈ F.kids p ∧ c ≠ a := by
    refine ⟨by simp [hF, hc], ?_⟩
    rintro rfl
    exact (List.nodup_append.mp hnodup).2.2 c hc c List.mem_cons_self rfl
  have hright (c : U) (hc : c ∈ b :: r) : c ∈ F.kids p ∧ c ≠ a := by
    refine ⟨by simp only [hF, List.mem_append, List.mem_cons] at hc ⊢; grind, ?_⟩
    rintro rfl
    exact (List.nodup_cons.mp (List.nodup_append.mp hnodup).2.1).1 hc
  have hdocs {c : U} (hc : c ∈ F.kids p ∧ c ≠ a) (e : ℕ) : G.doc e c = F.doc e c := by
    refine doc_congr (fun y hy ↦ hsame y ?_ ?_) e
    · rintro rfl
      exact not_within_kid hc.1 hy
    · rintro rfl
      exact sibling_disjoint ha hc.1 hc.2 .refl hy
  have hsegs {l' : List U} (hl' : ∀ c ∈ l', c ∈ F.kids p ∧ c ≠ a) (e : ℕ) :
      G.seg e l' = F.seg e l' := by
    apply List.flatMap_congr
    intro c hc
    rw [hdocs (hl' c hc)]
  have hbelow : G.seg (e + 1) (F.kids a) = F.seg (e + 1) (F.kids a) := by
    refine seg_congr (fun c hc y hy ↦ hsame y ?_ ?_) (e + 1)
    · rintro rfl
      exact not_within_kid ha (hy.tail (F.mem_kids.mp hc))
    · rintro rfl
      exact not_within_kid hc hy
  have hinner : G.doc (e + 1) a = F.doc (e + 1) a ++ (b, e + 1) :: F.doc (e + 2) b := by
    rw [G.doc_eq, F.doc_eq (e + 1) a, hkids, seg_append, hbelow, seg_cons, seg_nil,
      hdocs (hright b List.mem_cons_self), List.append_nil]
  refine ⟨before ++ F.seg e l ++ F.seg e [a], F.seg e r ++ after, e, ?_, ?_⟩
  · rw [hdoc, F.doc_eq e p, hF]
    simp
  · have hr := hsegs (fun c hc ↦ hright c (List.mem_cons_of_mem b hc)) e
    rw [hdoc', G.doc_eq e p, hG]
    simp [hsegs hleft, hr, hinner, doc_shift (e + 1) b]

/-- A node comes out of its parent, as the next sibling of it. -/
theorem doc_outdent {x a b : U} {r l' r' : List U} (hF : F.kids p = l ++ a :: r)
    (hG : G.kids p = l ++ a :: b :: r) (hFa : F.kids a = l' ++ b :: r') (hGa : G.kids a = l' ++ r')
    (hsame : ∀ y, y ≠ p → y ≠ a → G.kids y = F.kids y) (hp : Within F.parent p x) (d : ℕ) :
    ∃ before after e, F.doc d x = before ++ (a, e) :: F.seg (e + 1) l' ++ F.seg (e + 1) [b] ++
        F.seg (e + 1) r' ++ after ∧
      G.doc d x = before ++ (a, e) :: F.seg (e + 1) l' ++ F.seg (e + 1) r' ++ F.seg e [b] ++
        after := by
  have ha : a ∈ F.kids p := by simp [hF]
  have hinside (y : U) (hy : ¬ Within F.parent y p) : G.kids y = F.kids y := by
    refine hsame y (fun heq ↦ hy (heq ▸ .refl)) fun heq ↦ hy ?_
    exact heq ▸ .single (F.mem_kids.mp ha)
  obtain ⟨before, after, e, hdoc, hdoc'⟩ := doc_edit (G := G) hinside hp d
  have hnodup := F.nodup_kids p
  rw [hF] at hnodup
  have hbelow {c : U} (hc : c ∈ F.kids a) (e : ℕ) : G.doc e c = F.doc e c := by
    refine doc_congr (fun y hy ↦ hsame y ?_ ?_) e
    · rintro rfl
      exact not_within_kid ha (hy.tail (F.mem_kids.mp hc))
    · rintro rfl
      exact not_within_kid hc hy
  have hsiblings {c : U} (hc : c ∈ l ∨ c ∈ r) (e : ℕ) : G.doc e c = F.doc e c := by
    have hmem : c ∈ F.kids p := by
      rw [hF]
      rcases hc with hc | hc <;> simp [hc]
    have hne : c ≠ a := by
      rintro rfl
      rcases hc with hc | hc
      · exact (List.nodup_append.mp hnodup).2.2 c hc c List.mem_cons_self rfl
      · exact (List.nodup_cons.mp (List.nodup_append.mp hnodup).2.1).1 hc
    refine doc_congr (fun y hy ↦ hsame y ?_ ?_) e
    · rintro rfl
      exact not_within_kid hmem hy
    · rintro rfl
      exact sibling_disjoint ha hmem hne .refl hy
  have hsegs {l' : List U} (hl' : ∀ c ∈ l', ∀ e, G.doc e c = F.doc e c) (e : ℕ) :
      G.seg e l' = F.seg e l' := by
    apply List.flatMap_congr
    intro c hc
    rw [hl' c hc]
  have hl := hsegs (fun c hc ↦ hsiblings (.inl hc)) e
  have hr := hsegs (fun c hc ↦ hsiblings (.inr hc)) e
  have hl' : G.seg (e + 1) l' = F.seg (e + 1) l' :=
    hsegs (fun c hc ↦ hbelow (by simp [hFa, hc])) (e + 1)
  have hr' : G.seg (e + 1) r' = F.seg (e + 1) r' :=
    hsegs (fun c hc ↦ hbelow (by simp [hFa, hc])) (e + 1)
  have hb := hbelow (c := b) (by simp [hFa]) (e + 1)
  refine ⟨before ++ F.seg e l, F.seg e r ++ after, e, ?_, ?_⟩
  · rw [hdoc, F.doc_eq e p, hF]
    simp [F.doc_eq (e + 1) a, hFa]
  · rw [hdoc', G.doc_eq e p, hG]
    simp [G.doc_eq (e + 1) a, hGa, hl, hr, hl', hr', hb]

end OrderedForest

open Classical in
/-- The forest that consists of the tree below `root`. -/
noncomputable def OrderedForest.ofRoot {U : Type*} (parent : U → Option U) (kids : U → List U)
    (root : U) (nodes : List U) (hroot : parent root = none)
    (hkids : ∀ x, Within parent x root → ∀ c, c ∈ kids x ↔ parent c = some x)
    (hnodup : ∀ x, Within parent x root → (kids x).Nodup)
    (hnodes : ∀ x, Below parent x root → x ∈ nodes) : OrderedForest U where
  parent c := if Below parent c root then parent c else none
  kids x := if Within parent x root then kids x else []
  mem_kids := by
    intro x c
    have hparent (hc : parent c = some x) : Below parent c root ↔ Within parent x root := by
      rw [below_iff]
      constructor
      · rintro ⟨p, hp, hwithin⟩
        exact Option.some.inj (hc.symm.trans hp) ▸ hwithin
      · exact fun hwithin ↦ ⟨x, hc, hwithin⟩
    by_cases hx : Within parent x root
    · rw [if_pos hx, hkids x hx]
      constructor
      · intro hc
        rw [if_pos ((hparent hc).mpr hx), hc]
      · intro hc
        split at hc
        · exact hc
        · exact nomatch hc
    · rw [if_neg hx]
      constructor
      · exact fun hc ↦ nomatch hc
      · intro hc
        split at hc
        · next hbelow => exact absurd ((hparent hc).mp hbelow) hx
        · exact nomatch hc
  nodup_kids := by
    intro x
    split
    · next hx => exact hnodup x hx
    · exact List.nodup_nil
  rank x := if Within parent x root then {u ∈ nodes.toFinset | Below parent u x}.card else 0
  rank_lt := by
    intro x c hc
    dsimp only at hc ⊢
    split at hc
    · next hx =>
      have hparent := (hkids x hx c).mp hc
      have hbelow : Below parent c root := below_iff.mpr ⟨x, hparent, hx⟩
      rw [if_pos hx, if_pos (within_of_below hbelow)]
      apply Finset.card_lt_card
      refine Finset.ssubset_iff_of_subset (fun u hu ↦ ?_) |>.mpr ⟨c, ?_, ?_⟩
      · rw [Finset.mem_filter] at hu ⊢
        exact ⟨hu.1, hu.2.tail hparent⟩
      · rw [Finset.mem_filter, List.mem_toFinset]
        exact ⟨hnodes c hbelow, .single hparent⟩
      · intro hmem
        have hcycle := (Finset.mem_filter.mp hmem).2
        have hroots := cycle_within hcycle (within_of_below hbelow)
        obtain ⟨p, hp, -⟩ := below_iff.mp hroots
        exact nomatch hroot.symm.trans hp
    · exact nomatch hc
  bound := nodes.length
  rank_le := by
    intro x
    split
    · exact (Finset.card_filter_le _ _).trans nodes.toFinset_card_le
    · exact Nat.zero_le _

section

variable {U : Type*} {parent : U → Option U} {kids : U → List U} {root : U} {nodes : List U}
  {hroot : parent root = none}
  {hkids : ∀ x, Within parent x root → ∀ c, c ∈ kids x ↔ parent c = some x}
  {hnodup : ∀ x, Within parent x root → (kids x).Nodup}
  {hnodes : ∀ x, Below parent x root → x ∈ nodes}

namespace OrderedForest

theorem ofRoot_kids {x : U} (hx : Within parent x root) :
    (ofRoot parent kids root nodes hroot hkids hnodup hnodes).kids x = kids x := if_pos hx

theorem ofRoot_kids_outside {x : U} (hx : ¬ Within parent x root) :
    (ofRoot parent kids root nodes hroot hkids hnodup hnodes).kids x = [] := if_neg hx

theorem ofRoot_within {x y : U} (hy : Within parent y root) (h : Within parent x y) :
    Within (ofRoot parent kids root nodes hroot hkids hnodup hnodes).parent x y := by
  induction h using ReflTransGen.head_induction_on with
  | refl => exact .refl
  | @head x z hedge hzy ih =>
    have hx : Below parent x root := below_iff.mpr ⟨z, hedge, hzy.trans hy⟩
    exact .head ((if_pos hx).trans hedge) ih

theorem ofRoot_doc {x : U} (hx : Within parent x root) (d : ℕ) :
    (ofRoot parent kids root nodes hroot hkids hnodup hnodes).doc d x =
      flatten kids nodes.length d x := by
  refine flatten_congr (fun x ↦ Within parent x root) (fun y hy ↦ ?_) hx _ d
  refine ⟨ofRoot_kids hy, fun c hc ↦ ?_⟩
  exact .head ((hkids y hy c).mp hc) hy

end OrderedForest

end

end Simmis
