import Simmis.Library.Forest
import Simmis.Library.JavaStrings
import Simmis.Library.Maps
import Mathlib.Data.Prod.Lex

/-!
# The forest of runs

Runs are shown below the run that started them, newest first. A walk from the runs without a
parent, and then from every run, puts each where it is met first.
-/

namespace Simmis.RunForest

open List Forest Relation

/-- A summary. Ids are taken as `str` prints them. -/
structure Run where
  id : Option JavaString
  parentId : Option JavaString := none
  startedAt : Option ℤ := none
  createdAt : Option ℤ := none
deriving DecidableEq

def runSortKey (run : Run) : ℤ ×ₗ JavaString :=
  toLex ((run.startedAt.or run.createdAt).getD 0, run.id.getD "")

/-- Newest first. -/
def ordered (runs : List Run) : List Run :=
  (runs.filter (·.id.isSome)).insertionSort fun a b ↦ runSortKey b ≤ runSortKey a

def ids (rs : List Run) : List JavaString := rs.filterMap Run.id

/-- A later run of the same id replaces an earlier one. -/
def byId (rs : List Run) (id : JavaString) : Option Run :=
  rs.reverse.find? (·.id = some id)

/-- The parent, if it is another run of the list. -/
def parentOf (rs : List Run) (run : Run) : Option JavaString :=
  run.parentId.filter fun p ↦ p ∈ ids rs ∧ run.id ≠ some p

def childrenByParent (rs : List Run) (id : JavaString) : List JavaString :=
  (rs.filter fun run ↦ parentOf rs run = some id).filterMap Run.id

def roots (rs : List Run) : List JavaString :=
  (rs.filter fun run ↦ parentOf rs run = none).filterMap Run.id

/-- A node, with the id that it was met under. -/
structure Node where
  id : JavaString
  run : Option Run
  children : List Node
  parentMissing : Bool

def parentMissing (rs : List Run) (run : Option Run) : Bool :=
  (run.bind Run.parentId).any (· ∉ ids rs)

theorem parentOf_eq_some {rs : List Run} {run : Run} {p : JavaString} :
    parentOf rs run = some p ↔ run.parentId = some p ∧ p ∈ ids rs ∧ run.id ≠ some p := by
  simp [parentOf, Option.filter_eq_some_iff]

/-- Going down makes the path longer, unless there is nothing below. -/
theorem walk_down {rs : List Run} {path rest : List JavaString} {id : JavaString}
    (hpath : id ∉ path) : Prod.Lex (· < ·) (· < ·)
      (((ids rs).toFinset \ (id :: path).toFinset).card, (childrenByParent rs id).length)
      (((ids rs).toFinset \ path.toFinset).card, (id :: rest).length) := by
  rw [toFinset_cons, Finset.sdiff_insert]
  by_cases hid : id ∈ ids rs
  · exact .left _ _ (Finset.card_erase_lt_of_mem (by simp [hid, hpath]))
  · have hnone : childrenByParent rs id = [] := by
      refine filterMap_eq_nil_iff.mpr fun run hrun ↦ absurd (mem_filter.mp hrun).2 ?_
      simp [parentOf_eq_some, hid]
    rw [hnone, Finset.erase_eq_of_notMem (by simp [hid])]
    exact .right _ (Nat.succ_pos _)

/-- `walk`, over the ids of a list one after the other. -/
def walk (rs : List Run) (ids seen path : List JavaString) : List Node × List JavaString :=
  match ids with
  | [] => ([], seen)
  | id :: rest =>
    if id ∈ seen ∨ id ∈ path then walk rs rest seen path
    else
      let (children, seen') := walk rs (childrenByParent rs id) (seen ++ [id]) (id :: path)
      let (nodes, seen'') := walk rs rest seen' path
      let run := byId rs id
      (⟨id, run, children, parentMissing rs run⟩ :: nodes, seen'')
termination_by (((RunForest.ids rs).toFinset \ path.toFinset).card, ids.length)
decreasing_by
  · exact .right _ (Nat.lt_succ_self _)
  · exact walk_down (by simp_all)
  · exact .right _ (Nat.lt_succ_self _)

def causalForest (runs : List Run) : List Node :=
  let rs := ordered runs
  (walk rs (roots rs ++ ids rs) [] []).1

/-- The node and those below it. -/
def Node.all : Node → List Node
  | ⟨id, run, children, missing⟩ => ⟨id, run, children, missing⟩ :: children.flatMap fun n ↦ n.all
termination_by n => sizeOf n
decreasing_by
  have hless := sizeOf_lt_of_mem ‹_ ∈ children›
  rw [Node.mk.sizeOf_spec]
  omega

def nodeIds (nodes : List Node) : List JavaString := (nodes.flatMap Node.all).map Node.id

def parent (rs : List Run) (id : JavaString) : Option JavaString :=
  (byId rs id).bind (parentOf rs)

variable {rs : List Run}

/-- A node is what the run under its id makes it. -/
def Node.Sound (rs : List Run) (n : Node) : Prop :=
  n.run = byId rs n.id ∧ n.parentMissing = RunForest.parentMissing rs n.run ∧
    n.children.map Node.id <+ childrenByParent rs n.id ∧ ∀ c ∈ n.children, c.run = byId rs c.id

/-- What a walk over `todo` does. -/
structure Walked (rs : List Run) (todo seen path : List JavaString)
    (out : List Node × List JavaString) : Prop where
  eq : out.2 = seen ++ nodeIds out.1
  fresh : ∀ a ∈ nodeIds out.1, a ∉ seen
  nodup : (nodeIds out.1).Nodup
  covers : path ⊆ seen → todo ⊆ out.2
  closed : path ⊆ seen → ∀ a ∈ nodeIds out.1, childrenByParent rs a ⊆ out.2
  below : ∀ a ∈ nodeIds out.1, ∃ b ∈ todo, Within (parent rs) a b
  top : out.1.map Node.id <+ todo
  sound : ∀ n ∈ out.1.flatMap Node.all, n.Sound rs

theorem nodeIds_cons (n : Node) (nodes : List Node) :
    nodeIds (n :: nodes) = n.id :: nodeIds n.children ++ nodeIds nodes := by
  obtain ⟨id, run, children, missing⟩ := n
  simp [nodeIds, Node.all]

theorem mem_all {n : Node} {nodes : List Node} (hn : n ∈ nodes) : n ∈ nodes.flatMap Node.all := by
  refine mem_flatMap.mpr ⟨n, hn, ?_⟩
  obtain ⟨id, run, children, missing⟩ := n
  simp [Node.all]

theorem walked (hchildren : ∀ p, ∀ c ∈ childrenByParent rs p, parent rs c = some p)
    (todo seen path : List JavaString) : Walked rs todo seen path (walk rs todo seen path) := by
  fun_induction walk rs todo seen path with
  | case1 seen path =>
    exact
      { eq := (append_nil _).symm, fresh := nofun, nodup := nodup_nil,
        covers := fun _ ↦ nil_subset _, closed := nofun, below := nofun, top := .slnil,
        sound := nofun }
  | case2 seen path i rest hmet ih =>
    refine { ih with covers := ?_, below := ?_, top := ih.top.cons _ }
    · intro hpath
      have hi : i ∈ seen := hmet.elim id (hpath ·)
      rw [cons_subset, ih.eq]
      exact ⟨mem_append_left _ hi, ih.eq ▸ ih.covers hpath⟩
    · intro a ha
      obtain ⟨b, hb, hwithin⟩ := ih.below a ha
      exact ⟨b, mem_cons_of_mem _ hb, hwithin⟩
  | case3 seen path i rest hmet children seen' hdown nodes seen'' hrest run ih₁ ih₂ =>
    rw [hdown] at ih₁
    rw [hrest] at ih₂
    rw [not_or] at hmet
    have heq : seen' = seen ++ [i] ++ nodeIds children := ih₁.eq
    have heq' : seen'' = seen' ++ nodeIds nodes := ih₂.eq
    have hi : seen ++ [i] ⊆ seen' := heq ▸ subset_append_left _ _
    have hseen : seen ⊆ seen' := Subset.trans (subset_append_left _ _) hi
    have hlater : seen' ⊆ seen'' := heq' ▸ subset_append_left _ _
    have hpath (h : path ⊆ seen) : i :: path ⊆ seen ++ [i] :=
      cons_subset.mpr ⟨by simp, Subset.trans h (subset_append_left _ _)⟩
    have hdown (a : JavaString) (ha : a ∈ nodeIds children) : a ∉ seen ∧ a ≠ i := by
      simpa using ih₁.fresh a ha
    have hafter (a : JavaString) (ha : a ∈ nodeIds nodes) : a ∉ seen' := ih₂.fresh a ha
    have hat (a : JavaString) (ha : a ∈ nodeIds (⟨i, run, children, parentMissing rs run⟩ :: nodes)) :
        a = i ∨ a ∈ nodeIds children ∨ a ∈ nodeIds nodes := by
      simpa [nodeIds_cons] using ha
    refine
      { eq := by simp [nodeIds_cons, heq', heq]
        fresh := fun a ha ↦ ?_, nodup := ?_
        covers := fun h ↦ cons_subset.mpr ⟨hlater (hi (by simp)), ih₂.covers (Subset.trans h hseen)⟩
        closed := fun h a ha ↦ ?_, below := fun a ha ↦ ?_, top := ih₂.top.cons_cons i
        sound := fun n hn ↦ ?_ }
    · rcases hat a ha with rfl | ha | ha
      · exact hmet.1
      · exact (hdown a ha).1
      · exact fun h ↦ hafter a ha (hseen h)
    · rw [nodeIds_cons, cons_append, nodup_cons, mem_append, nodup_append]
      refine ⟨?_, ih₁.nodup, ih₂.nodup, fun a ha b hb hab ↦ ?_⟩
      · rintro (h | h)
        · exact (hdown i h).2 rfl
        · exact hafter i h (hi (by simp))
      · rw [heq] at hafter
        exact hafter b hb (hab ▸ mem_append_right _ ha)
    · rcases hat a ha with rfl | ha | ha
      · exact Subset.trans (ih₁.covers (hpath h)) hlater
      · exact Subset.trans (ih₁.closed (hpath h) a ha) hlater
      · exact ih₂.closed (Subset.trans h hseen) a ha
    · rcases hat a ha with rfl | ha | ha
      · exact ⟨a, mem_cons_self, .refl⟩
      · obtain ⟨b, hb, hwithin⟩ := ih₁.below a ha
        exact ⟨i, mem_cons_self, hwithin.tail (hchildren i b hb)⟩
      · obtain ⟨b, hb, hwithin⟩ := ih₂.below a ha
        exact ⟨b, mem_cons_of_mem _ hb, hwithin⟩
    · rw [flatMap_cons, Node.all, cons_append, mem_cons, mem_append] at hn
      rcases hn with rfl | hn | hn
      · exact ⟨rfl, rfl, ih₁.top, fun c hc ↦ (ih₁.sound c (mem_all hc)).1⟩
      · exact ih₁.sound n hn
      · exact ih₂.sound n hn

theorem walk_append (first second seen path : List JavaString) :
    walk rs (first ++ second) seen path =
      ((walk rs first seen path).1 ++ (walk rs second (walk rs first seen path).2 path).1,
        (walk rs second (walk rs first seen path).2 path).2) := by
  induction first generalizing seen with
  | nil => simp [walk]
  | cons i first ih =>
    rw [cons_append, walk, walk]
    split
    · exact ih seen
    · simp only [ih, cons_append]

/-- Whether a run stands at the top is decided by the runs that are walked before it. -/
theorem mem_top_iff (hchildren : ∀ p, ∀ c, c ∈ childrenByParent rs p ↔ parent rs c = some p)
    {before after : List JavaString} {x : JavaString} (hx : x ∉ before) :
    x ∈ (walk rs (before ++ x :: after) [] []).1.map Node.id ↔
      ∀ y ∈ before, ¬Within (parent rs) x y := by
  have hwalk := walked fun p c ↦ (hchildren p c).mp
  have hfirst := hwalk before [] []
  rw [walk_append]
  generalize walk rs before [] [] = first at *
  have hmet : x ∈ first.2 ↔ ∃ y ∈ before, Within (parent rs) x y := by
    rw [hfirst.eq, nil_append]
    refine ⟨hfirst.below x, fun ⟨y, hy, hwithin⟩ ↦ ?_⟩
    have hy' := hfirst.covers (nil_subset _) hy
    rw [hfirst.eq, nil_append] at hy'
    have hdown {z : JavaString} (h : Within (parent rs) z y) : z ∈ nodeIds first.1 := by
      induction h using ReflTransGen.head_induction_on with
      | refl => exact hy'
      | head hedge _ ih =>
        have hc := hfirst.closed (nil_subset _) _ ih ((hchildren _ _).mpr hedge)
        rwa [hfirst.eq, nil_append] at hc
    exact hdown hwithin
  by_cases hin : x ∈ first.2
  · refine iff_of_false (fun hmem ↦ ?_) fun h ↦ ?_
    · rw [map_append, mem_append] at hmem
      rcases hmem with hmem | hmem
      · exact hx (hfirst.top.subset hmem)
      · obtain ⟨n, hn, hid⟩ := mem_map.mp hmem
        rw [← hid] at hin
        exact (hwalk (x :: after) first.2 []).fresh _ (mem_map_of_mem (mem_all hn)) hin
    · obtain ⟨y, hy, hwithin⟩ := hmet.mp hin
      exact h y hy hwithin
  · refine iff_of_true ?_ fun y hy hwithin ↦ hin (hmet.mpr ⟨y, hy, hwithin⟩)
    rw [walk, if_neg (by simpa using hin)]
    simp

/-- Runs with distinct ids, newest first. -/
structure Listed (rs : List Run) : Prop where
  distinct : (rs.map Run.id).Nodup
  newest : rs.Pairwise fun a b ↦ runSortKey b < runSortKey a

theorem mem_ordered {runs : List Run} {run : Run} :
    run ∈ ordered runs ↔ run ∈ runs ∧ run.id.isSome := by
  rw [ordered, mem_insertionSort, mem_filter]

theorem listed_ordered {runs : List Run}
    (hdistinct : ((runs.filter (·.id.isSome)).map Run.id).Nodup) : Listed (ordered runs) := by
  have hperm : ordered runs ~ runs.filter (·.id.isSome) := perm_insertionSort _ _
  have hid : ((ordered runs).map Run.id).Nodup := (hperm.map _).nodup_iff.mpr hdistinct
  refine ⟨hid, ?_⟩
  have hsorted : (ordered runs).Pairwise fun a b ↦ runSortKey b ≤ runSortKey a :=
    pairwise_insertionSort _ _
  refine (hsorted.and (pairwise_map.mp hid)).imp_of_mem fun {a b} ha hb h ↦ ?_
  refine lt_of_le_of_ne h.1 fun hkey ↦ h.2 ?_
  have hname : b.id.getD "" = a.id.getD "" := (Prod.ext_iff.mp (toLex.injective hkey)).2
  obtain ⟨x, hx⟩ := Option.isSome_iff_exists.mp (mem_ordered.mp ha).2
  obtain ⟨y, hy⟩ := Option.isSome_iff_exists.mp (mem_ordered.mp hb).2
  rw [hx, hy] at hname ⊢
  exact congrArg some hname.symm

/-- One run is shown before another. -/
def Newer (rs : List Run) (y x : JavaString) : Prop :=
  ∃ r ∈ byId rs y, ∃ s ∈ byId rs x, runSortKey s < runSortKey r

theorem Newer.asymm {x y : JavaString} (h : Newer rs y x) : ¬Newer rs x y := by
  rintro ⟨r', hr', s', hs', hlt'⟩
  obtain ⟨r, hr, s, hs, hlt⟩ := h
  obtain rfl := Option.mem_unique hr hs'
  obtain rfl := Option.mem_unique hs hr'
  exact lt_asymm hlt hlt'

theorem within_mem {x y : JavaString} (hx : x ∈ ids rs) (h : Within (parent rs) x y) :
    y ∈ ids rs := by
  rcases within_iff.mp h with rfl | hbelow
  · exact hx
  · obtain ⟨z, -, hedge⟩ := TransGen.tail'_iff.mp hbelow
    obtain ⟨run, -, hparent⟩ := Option.bind_eq_some_iff.mp hedge
    exact (parentOf_eq_some.mp hparent).2.1

section

variable (hrs : Listed rs)
include hrs

theorem byId_eq_some {x : JavaString} {run : Run} :
    byId rs x = some run ↔ run ∈ rs ∧ run.id = some x := by
  have hsound {run : Run} (h : byId rs x = some run) : run ∈ rs ∧ run.id = some x := by
    have hp := find?_some h
    exact ⟨mem_reverse.mp (mem_of_find?_eq_some h), of_decide_eq_true hp⟩
  refine ⟨hsound, fun ⟨hrun, hid⟩ ↦ ?_⟩
  rw [byId, ← hid]
  exact Maps.find?_of_mem Run.id (by simpa using hrs.distinct) (mem_reverse.mpr hrun)

theorem mem_ids {x : JavaString} : x ∈ ids rs ↔ ∃ run, byId rs x = some run := by
  simp only [ids, mem_filterMap, byId_eq_some hrs]

theorem mem_childrenByParent {p c : JavaString} :
    c ∈ childrenByParent rs p ↔ parent rs c = some p := by
  simp only [childrenByParent, mem_filterMap, mem_filter, decide_eq_true_eq, parent,
    Option.bind_eq_some_iff, byId_eq_some hrs]
  exact exists_congr fun run ↦ by tauto

theorem mem_roots {x : JavaString} : x ∈ roots rs ↔ x ∈ ids rs ∧ parent rs x = none := by
  simp only [roots, ids, mem_filterMap, mem_filter, decide_eq_true_eq]
  constructor
  · rintro ⟨run, ⟨hrun, hparent⟩, hid⟩
    exact ⟨⟨run, hrun, hid⟩, by rw [parent, (byId_eq_some hrs).mpr ⟨hrun, hid⟩]; exact hparent⟩
  · rintro ⟨⟨run, hrun, hid⟩, hparent⟩
    rw [parent, (byId_eq_some hrs).mpr ⟨hrun, hid⟩] at hparent
    exact ⟨run, ⟨hrun, hparent⟩, hid⟩

theorem ids_newest : (ids rs).Pairwise (Newer rs) := by
  refine pairwise_filterMap.mpr (hrs.newest.imp_of_mem fun {a b} ha hb h x hx y hy ↦ ?_)
  exact ⟨a, (byId_eq_some hrs).mpr ⟨ha, hx⟩, b, (byId_eq_some hrs).mpr ⟨hb, hy⟩, h⟩

/-- The runs before one in the list are the newer ones. -/
theorem mem_before {x y : JavaString} {before after : List JavaString}
    (hsplit : ids rs = before ++ x :: after) : y ∈ before ↔ Newer rs y x := by
  have hnewest := ids_newest hrs
  rw [hsplit, pairwise_append, pairwise_cons] at hnewest
  refine ⟨fun hy ↦ hnewest.2.2 y hy x mem_cons_self, fun hy ↦ ?_⟩
  have hmem : y ∈ before ++ x :: after := by
    obtain ⟨r, hr, -⟩ := hy
    exact hsplit ▸ (mem_ids hrs).mpr ⟨r, hr⟩
  rcases mem_append.mp hmem with hbefore | hlater
  · exact hbefore
  · rcases mem_cons.mp hlater with rfl | hafter
    · exact absurd hy (hy.asymm)
    · exact absurd (hnewest.2.1.1 y hafter) (hy.asymm)

def top (rs : List Run) : List JavaString := (walk rs (roots rs ++ ids rs) [] []).1.map Node.id

theorem mem_top {x : JavaString} (hx : x ∈ ids rs) : x ∈ top rs ↔ parent rs x = none ∨
    (∀ r ∈ roots rs, ¬Within (parent rs) x r) ∧ ∀ y, Newer rs y x → ¬Within (parent rs) x y := by
  have hchildren (p c) := mem_childrenByParent hrs (p := p) (c := c)
  by_cases hroot : parent rs x = none
  · refine iff_of_true ?_ (.inl hroot)
    obtain ⟨before, after, hsplit, hnew⟩ := eq_append_cons_of_mem ((mem_roots hrs).mpr ⟨hx, hroot⟩)
    rw [top, hsplit, append_assoc, cons_append, mem_top_iff hchildren hnew]
    exact fun y hy hwithin ↦ hnew (within_root hroot hwithin ▸ hy)
  · obtain ⟨before, after, hsplit⟩ := append_of_mem hx
    have hbefore {y} := mem_before hrs hsplit (y := y)
    have hnew : x ∉ roots rs ++ before := by
      rw [mem_append, mem_roots hrs, hbefore]
      rintro (⟨-, h⟩ | h)
      · exact hroot h
      · exact h.asymm h
    rw [top, hsplit, ← append_assoc, mem_top_iff hchildren hnew, forall_mem_append]
    simp only [hroot, false_or, hbefore]

end

/-- Every run that hangs below a cycle has a newer run above it. -/
def Hung (rs : List Run) : Prop :=
  ∀ x, ¬Below (parent rs) x x → (∃ z, Below (parent rs) x z ∧ Below (parent rs) z z) →
    ∃ y, Below (parent rs) x y ∧ Newer rs y x

theorem parent_ne_none {x y : JavaString} (h : Below (parent rs) x y) : parent rs x ≠ none := by
  obtain ⟨p, hp, -⟩ := below_iff.mp h
  simp [hp]

theorem mem_of_parent (hrs : Listed rs) {x : JavaString} (h : parent rs x ≠ none) : x ∈ ids rs := by
  obtain ⟨p, hp⟩ := Option.ne_none_iff_exists'.mp h
  obtain ⟨run, hrun, -⟩ := Option.bind_eq_some_iff.mp hp
  exact (mem_ids hrs).mpr ⟨run, hrun⟩

/-- Nothing that leads into a cycle has a root above it. -/
theorem not_within_root (hrs : Listed rs) {x z r : JavaString} (hz : Within (parent rs) x z)
    (hcycle : Below (parent rs) z z) (hr : r ∈ roots rs) : ¬Within (parent rs) x r := by
  intro h
  have hroot := ((mem_roots hrs).mp hr).2
  rcases within_total h hz with hrz | hzr
  · rw [within_root hroot hrz] at hcycle
    exact parent_ne_none hcycle hroot
  · exact parent_ne_none (cycle_within hcycle hzr) hroot

theorem hung_iff (hrs : Listed rs) : Hung rs ↔
    ∀ x ∈ top rs, x ∈ ids rs → parent rs x ≠ none → Below (parent rs) x x := by
  constructor
  · intro hhung x htop hx hparent
    by_contra hcycle
    obtain ⟨hroots, hnewer⟩ := ((mem_top hrs hx).mp htop).resolve_left hparent
    have habove (y : JavaString) (hy : Within (parent rs) x y) : y ∈ ids rs ∧ parent rs y ≠ none :=
      ⟨within_mem hx hy, fun hnone ↦ hroots y ((mem_roots hrs).mpr ⟨within_mem hx hy, hnone⟩) hy⟩
    obtain ⟨y, hbelow, hy⟩ := hhung x hcycle (exists_cycle habove)
    exact hnewer y hy (within_of_below hbelow)
  · intro htop x hcycle ⟨z, hz, hzz⟩
    by_contra hnone
    have hparent := parent_ne_none hz
    have hx := mem_of_parent hrs hparent
    refine hcycle (htop x ((mem_top hrs hx).mpr (.inr ⟨fun r hr ↦ ?_, fun y hy hwithin ↦ ?_⟩)) hx hparent)
    · exact not_within_root hrs (within_of_below hz) hzz hr
    · rcases within_iff.mp hwithin with rfl | hbelow
      · exact hy.asymm hy
      · exact hnone ⟨y, hbelow, hy⟩

/-- One run of each cycle stands at the top. -/
theorem cycle_top (hrs : Listed rs) {x : JavaString} (hcycle : Below (parent rs) x x) :
    ∃! y, y ∈ top rs ∧ Below (parent rs) x y := by
  classical
  have hback {y : JavaString} (hy : Below (parent rs) x y) : Below (parent rs) y y :=
    cycle_within hcycle (within_of_below hy)
  have hx := mem_of_parent hrs (parent_ne_none hcycle)
  have hfound : ((ids rs).find? fun y ↦ Below (parent rs) x y).isSome :=
    find?_isSome.mpr ⟨x, hx, by simpa⟩
  obtain ⟨y, hy⟩ := Option.isSome_iff_exists.mp hfound
  obtain ⟨hbelow, before, after, hsplit, hbefore⟩ := find?_eq_some_iff_append.mp hy
  rw [decide_eq_true_eq] at hbelow
  have hymem := within_mem hx (within_of_below hbelow)
  have htop : ∀ w, Newer rs w y → ¬Within (parent rs) y w := by
    intro w hw hwithin
    have hw' := hbefore w ((mem_before hrs hsplit).mpr hw)
    simp [hbelow.trans_left hwithin] at hw'
  refine ⟨y, ⟨(mem_top hrs hymem).mpr (.inr ⟨fun r hr ↦ ?_, htop⟩), hbelow⟩, ?_⟩
  · exact not_within_root hrs .refl (hback hbelow) hr
  · rintro y' ⟨htop', hbelow'⟩
    by_contra hne
    have hmem' := within_mem hx (within_of_below hbelow')
    obtain ⟨-, hnewer⟩ := ((mem_top hrs hmem').mp htop').resolve_left (parent_ne_none (hback hbelow'))
    have hto := (cycle_back hcycle (within_of_below hbelow)).trans (within_of_below hbelow')
    have hfrom := (cycle_back hcycle (within_of_below hbelow')).trans (within_of_below hbelow)
    have hsymm : Std.Symm fun a b ↦ Newer rs a b ∨ Newer rs b a := ⟨fun _ _ ↦ Or.symm⟩
    have hpairs : (ids rs).Pairwise fun a b ↦ Newer rs a b ∨ Newer rs b a :=
      (ids_newest hrs).imp fun h ↦ .inl h
    exact (hpairs.forall hmem' hymem hne).elim (htop y' · hto) (hnewer y · hfrom)

theorem roots_newest (hrs : Listed rs) :
    ((top rs).filter fun x ↦ parent rs x = none).Pairwise (Newer rs) := by
  have hwalk := walked fun p c ↦ (mem_childrenByParent hrs).mp
  have hfirst := hwalk (roots rs) [] []
  rw [top, walk_append, map_append, filter_append]
  generalize walk rs (roots rs) [] [] = first at *
  have hnone : ((walk rs (ids rs) first.2 []).1.map Node.id).filter (fun x ↦ parent rs x = none) = [] := by
    refine filter_eq_nil_iff.mpr fun x hx hroot ↦ ?_
    have hsecond := hwalk (ids rs) first.2 []
    have hmem := (mem_roots hrs).mpr ⟨hsecond.top.subset hx, of_decide_eq_true hroot⟩
    obtain ⟨n, hn, rfl⟩ := mem_map.mp hx
    exact hsecond.fresh _ (mem_map_of_mem (mem_all hn)) (hfirst.covers (nil_subset _) hmem)
  rw [hnone, append_nil]
  exact (ids_newest hrs).sublist ((filter_sublist).trans (hfirst.top.trans (filter_sublist.filterMap _)))

/-- The runs are shown at their places. A parent is one in the list, other than the run itself. -/
structure Shown (runs : List Run) (forest : List Node) : Prop where
  once : (nodeIds forest).Nodup ∧ ∀ x, x ∈ nodeIds forest ↔ ∃ run ∈ runs, run.id = some x
  run : ∀ n ∈ forest.flatMap Node.all, ∃ run ∈ runs, n.run = some run ∧ run.id = some n.id
  children : ∀ n ∈ forest.flatMap Node.all, ∀ c ∈ n.children, c.run.bind Run.parentId = some n.id
  siblings : ∀ n ∈ forest.flatMap Node.all, (n.children.map Node.id).Pairwise (Newer (ordered runs))
  roots : ((forest.map Node.id).filter fun x ↦ parent (ordered runs) x = none).Pairwise
    (Newer (ordered runs))
  missing : ∀ n ∈ forest.flatMap Node.all, n.parentMissing = true ↔
    ∃ p, n.run.bind Run.parentId = some p ∧ p ∉ ids (ordered runs)
  top : ∀ n ∈ forest, parent (ordered runs) n.id ≠ none → Below (parent (ordered runs)) n.id n.id
  cycles : ∀ x, Below (parent (ordered runs)) x x →
    ∃! y, y ∈ forest.map Node.id ∧ Below (parent (ordered runs)) x y
  order : ∀ runs', runs' ~ runs → causalForest runs' = forest

section

variable {runs : List Run} (hdistinct : ((runs.filter (·.id.isSome)).map Run.id).Nodup)
include hdistinct

theorem ordered_perm {runs' : List Run} (hperm : runs' ~ runs) : ordered runs' = ordered runs := by
  have hdistinct' : ((runs'.filter (·.id.isSome)).map Run.id).Nodup :=
    ((hperm.filter _).map _).nodup_iff.mpr hdistinct
  refine Perm.eq_of_pairwise (fun a b _ _ hab hba ↦ absurd hab (lt_asymm hba))
    (listed_ordered hdistinct').newest (listed_ordered hdistinct).newest ?_
  exact (perm_insertionSort _ _).trans ((hperm.filter _).trans (perm_insertionSort _ _).symm)

theorem mem_nodeIds {x : JavaString} :
    x ∈ nodeIds (causalForest runs) ↔ x ∈ ids (ordered runs) := by
  have hrs := listed_ordered hdistinct
  have hwalk := walked (fun p c ↦ (mem_childrenByParent hrs).mp)
    (roots (ordered runs) ++ ids (ordered runs)) [] []
  have heq := hwalk.eq
  rw [nil_append] at heq
  refine ⟨fun hx ↦ ?_, fun hx ↦ heq ▸ hwalk.covers (nil_subset _) (mem_append_right _ hx)⟩
  obtain ⟨b, hb, hwithin⟩ := hwalk.below x hx
  rcases within_iff.mp hwithin with rfl | hbelow
  · exact (mem_append.mp hb).elim (fun h ↦ ((mem_roots hrs).mp h).1) id
  · exact mem_of_parent hrs (parent_ne_none hbelow)

end

/-- A run that hangs below a cycle stands below the runs above it, if it stands at its place. -/
theorem Shown.hung {runs : List Run} (hdistinct : ((runs.filter (·.id.isSome)).map Run.id).Nodup)
    (h : Shown runs (causalForest runs)) : Hung (ordered runs) := by
  refine (hung_iff (listed_ordered hdistinct)).mpr fun x htop _ hparent ↦ ?_
  obtain ⟨n, hn, rfl⟩ := mem_map.mp htop
  exact h.top n hn hparent

/-- The runs are shown at their places just when no run that hangs below a cycle is newer than
all runs above it. -/
theorem shown_iff_hung {runs : List Run}
    (hdistinct : ((runs.filter (·.id.isSome)).map Run.id).Nodup) :
    Shown runs (causalForest runs) ↔ Hung (ordered runs) := by
  have hrs := listed_ordered hdistinct
  have hwalk := walked (fun p c ↦ (mem_childrenByParent hrs).mp)
    (roots (ordered runs) ++ ids (ordered runs)) [] []
  constructor
  · exact Shown.hung hdistinct
  · intro hhung
    have htop := (hung_iff hrs).mp hhung
    have hlookup {n : Node} (hn : n ∈ (causalForest runs).flatMap Node.all) :
        ∃ run, byId (ordered runs) n.id = some run :=
      (mem_ids hrs).mp ((mem_nodeIds hdistinct).mp (mem_map_of_mem hn))
    refine
      { once := ⟨hwalk.nodup, fun x ↦ ?_⟩
        run := fun n hn ↦ ?_
        children := fun n hn c hc ↦ ?_
        siblings := fun n hn ↦ ?_
        roots := roots_newest hrs
        missing := fun n hn ↦ ?_
        top := fun n hn ↦ htop _ (mem_map_of_mem hn)
          ((mem_nodeIds hdistinct).mp (mem_map_of_mem (mem_all hn)))
        cycles := fun x hcycle ↦ cycle_top hrs hcycle
        order := fun runs' hperm ↦ by rw [causalForest, ordered_perm hdistinct hperm, causalForest] }
    · rw [mem_nodeIds hdistinct, ids, mem_filterMap]
      refine exists_congr fun run ↦ ?_
      rw [mem_ordered]
      exact ⟨fun h ↦ ⟨h.1.1, h.2⟩, fun h ↦ ⟨⟨h.1, by simp [h.2]⟩, h.2⟩⟩
    · obtain ⟨run, hrun⟩ := hlookup hn
      obtain ⟨hmem, hid⟩ := (byId_eq_some hrs).mp hrun
      exact ⟨run, (mem_ordered.mp hmem).1, (hwalk.sound n hn).1.trans hrun, hid⟩
    · obtain ⟨-, -, hsub, hrun⟩ := hwalk.sound n hn
      have hparent := (mem_childrenByParent hrs).mp (hsub.subset (mem_map_of_mem hc))
      obtain ⟨run, hget, hparent⟩ := Option.bind_eq_some_iff.mp hparent
      rw [hrun c hc, hget]
      exact (parentOf_eq_some.mp hparent).1
    · obtain ⟨-, -, hsub, -⟩ := hwalk.sound n hn
      exact (ids_newest hrs).sublist (hsub.trans ((filter_sublist).filterMap _))
    · rw [(hwalk.sound n hn).2.1, RunForest.parentMissing, Option.any_eq_true]
      simp

/-- Two runs that name each other, and a newer one below them. -/
def cut : List Run :=
  [{ id := some "a", parentId := some "b", startedAt := some 1 },
    { id := some "b", parentId := some "a", startedAt := some 2 },
    { id := some "c", parentId := some "b", startedAt := some 3 }]

theorem cut_shown_iff : Shown cut (causalForest cut) ↔ Hung (ordered cut) := shown_iff_hung (by decide)

theorem cut_not_shown : ((cut.filter (·.id.isSome)).map Run.id).Nodup ∧
    ¬Shown cut (causalForest cut) := by
  have hordered : ordered cut = cut.reverse := by decide
  refine ⟨by decide, fun h ↦ ?_⟩
  have hhung := h.hung (by decide)
  rw [hordered] at hhung
  have ha : parent cut.reverse "a" = some "b" := by decide
  have hb : parent cut.reverse "b" = some "a" := by decide
  have hc : parent cut.reverse "c" = some "b" := by decide
  have hleaf : ∀ r ∈ cut.reverse, r.parentId ≠ some "c" := by decide
  have hnewest : ∀ r ∈ cut.reverse, ∀ s ∈ byId cut.reverse "c", ¬runSortKey s < runSortKey r := by
    decide
  have hcycle : ¬Below (parent cut.reverse) "c" "c" := by
    intro hbelow
    obtain ⟨z, -, hedge⟩ := TransGen.tail'_iff.mp hbelow
    obtain ⟨r, hr, hparent⟩ := Option.bind_eq_some_iff.mp hedge
    exact hleaf r (mem_reverse.mp (mem_of_find?_eq_some hr)) (parentOf_eq_some.mp hparent).1
  obtain ⟨y, -, r, hr, s, hs, hlt⟩ := hhung "c" hcycle ⟨"b", .single hc, .tail (.single hb) ha⟩
  exact hnewest r (mem_reverse.mp (mem_of_find?_eq_some hr)) s hs hlt

end Simmis.RunForest
