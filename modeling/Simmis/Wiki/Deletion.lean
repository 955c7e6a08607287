import Simmis.Wiki.Entities

/-!
# Deleting a block

A deletion that cascades deletes the children one after the other, each with what is below it, and
then the block. What goes is the subtree of the block; what is answered counts the children only.
-/

namespace Simmis.Wiki.Store

open List Option Forest Relation Nat

variable {U K T R V : Type} [DecidableEq U]

/-- `delete-block!`. Nothing is answered where the fuel does not reach the leaves. -/
def deleteBlock (listing : ListBlocks U K T R V) :
    ℕ → Bool → Store U K T R V → U → Option (ℕ × Store U K T R V)
  | 0, _, _, _ => none
  | fuel + 1, cascade, s, block => do
    let children := if cascade then listing.list s block else []
    let s' ← children.foldlM (fun s child ↦ (deleteBlock listing fuel true s child).map Prod.snd) s
    let s'' ← s'.retractEntity block
    some (children.length + 1, s'')

variable {s : Store U K T R V} {block : U} {gone : List U} {rank : U → ℕ}

/-- The ids of the subtree of a block, each once. -/
structure IsSubtree (s : Store U K T R V) (block : U) (gone : List U) : Prop where
  mem : ∀ u, u ∈ gone ↔ Within s.parent u block
  nodup : gone.Nodup

/-- The ids of the subtrees of some children. -/
structure AreSubtrees (s : Store U K T R V) (children gone : List U) : Prop where
  mem : ∀ u, u ∈ gone ↔ ∃ c ∈ children, Within s.parent u c
  nodup : gone.Nodup

theorem retract_without (hblock : (s.get block).isSome) (hkept : block ∉ gone) :
    (s.without gone).retractEntity block = some (s.without (gone ++ [block])) := by
  have hthere : ((s.without gone).get block).isSome := by
    rw [get_without, if_neg hkept, isSome_map]
    exact hblock
  rw [retractEntity, if_pos hthere, without_without]

/-- The children are deleted one after the other, each with its subtree. -/
theorem deleteChildren (hacyclic : Acyclic s.parent)
    (delete : Store U K T R V → U → Option (Store U K T R V)) {children : List U}
    (hdelete : ∀ gone, ∀ c ∈ children, (∀ x, Within s.parent x c → x ∉ gone) →
      ∃ low, IsSubtree s c low ∧ delete (s.without gone) c = some (s.without (gone ++ low)))
    (hchildren : ∀ c ∈ children, s.parent c = some block) (hnodup : children.Nodup)
    {before done : List U} (hdone : AreSubtrees s before done)
    (hbefore : ∀ c ∈ before, s.parent c = some block ∧ c ∉ children) :
    ∃ gone, AreSubtrees s (before ++ children) gone ∧
      children.foldlM delete (s.without done) = some (s.without gone) := by
  induction children generalizing before done with
  | nil => exact ⟨done, by rwa [append_nil], rfl⟩
  | cons c children ih =>
    obtain ⟨hc, hnodup⟩ := nodup_cons.mp hnodup
    have hparent := hchildren c (mem_cons_self ..)
    have hdisjoint : ∀ x, Within s.parent x c → x ∉ done := by
      intro x hx hmem
      obtain ⟨a, ha, hxa⟩ := (hdone.mem x).mp hmem
      obtain ⟨haparent, hnot⟩ := hbefore a ha
      obtain rfl := children_disjoint hacyclic haparent hparent hxa hx
      exact hnot (mem_cons_self ..)
    obtain ⟨low, hlow, hdeleted⟩ := hdelete done c (mem_cons_self ..) hdisjoint
    have hdone' : AreSubtrees s (before ++ [c]) (done ++ low) := by
      constructor
      · intro u
        simp only [mem_append, hdone.mem, hlow.mem, mem_singleton, or_and_right,
          exists_or, exists_eq_left]
      · refine nodup_append.mpr ⟨hdone.nodup, hlow.nodup, ?_⟩
        rintro x hx y hy rfl
        exact hdisjoint x ((hlow.mem x).mp hy) hx
    have hbefore' : ∀ a ∈ before ++ [c], s.parent a = some block ∧ a ∉ children := by
      intro a ha
      obtain ha | ha := mem_append.mp ha
      · exact ⟨(hbefore a ha).1, fun hmem ↦ (hbefore a ha).2 (mem_cons_of_mem _ hmem)⟩
      · rw [mem_singleton.mp ha]
        exact ⟨hparent, hc⟩
    obtain ⟨gone, hgone, hfold⟩ := ih
      (fun gone a ha ↦ hdelete gone a (mem_cons_of_mem _ ha))
      (fun a ha ↦ hchildren a (mem_cons_of_mem _ ha)) hnodup hdone' hbefore'
    refine ⟨gone, by simpa using hgone, ?_⟩
    rw [foldlM_cons, hdeleted]
    exact hfold

theorem parent_of_without {u p : U} (h : (s.without gone).parent u = some p) :
    s.parent u = some p := by
  rw [parent_without] at h
  split at h
  · exact nomatch h
  · exact (filter_eq_some_iff.mp h).1

theorem acyclic_without (hacyclic : Acyclic s.parent) (gone : List U) :
    Acyclic (s.without gone).parent :=
  fun b h ↦ hacyclic b (TransGen.mono (fun _ _ hab ↦ parent_of_without hab) _ _ h)

variable (listing : ListBlocks U K T R V)

/-- A deletion with enough fuel takes the subtree of the block. -/
theorem deleteBlock_cascade (fuel : ℕ) : ∀ (s : Store U K T R V) (block : U), Acyclic s.parent →
      (∀ {c p}, s.parent c = some p → rank c < rank p) → rank block < fuel →
      (s.get block).isSome → ∃ gone, IsSubtree s block gone ∧
        deleteBlock listing fuel true s block =
          some ((listing.list s block).length + 1, s.without gone) := by
  induction fuel with
  | zero => exact fun _ _ _ _ h ↦ absurd h (not_lt_zero _)
  | succ fuel ih =>
    intro s block hacyclic hrank hfuel hblock
    have hdelete : ∀ gone, ∀ c ∈ listing.list s block, (∀ x, Within s.parent x c → x ∉ gone) →
        ∃ low, IsSubtree s c low ∧
          (deleteBlock listing fuel true (s.without gone) c).map Prod.snd =
            some (s.without (gone ++ low)) := by
      intro gone c hc hdisjoint
      have hparent := (mem_list listing).mp hc
      have hthere : ((s.without gone).get c).isSome := by
        rw [get_without, if_neg (hdisjoint c .refl), isSome_map]
        exact isSome_of_parent hparent
      have hlow : rank c < fuel := lt_of_lt_of_le (hrank hparent) (le_of_lt_succ hfuel)
      obtain ⟨low, hsubtree, hdeleted⟩ := ih (s.without gone) c (acyclic_without hacyclic gone)
        (fun h ↦ hrank (parent_of_without h)) hlow hthere
      refine ⟨low, ⟨fun u ↦ ?_, hsubtree.nodup⟩, ?_⟩
      · rw [hsubtree.mem, within_without hdisjoint]
      · rw [hdeleted, without_without]
        rfl
    have hnone : AreSubtrees s [] [] := ⟨by simp, nodup_nil⟩
    obtain ⟨gone, hgone, hfold⟩ := deleteChildren hacyclic
      (fun s c ↦ (deleteBlock listing fuel true s c).map Prod.snd) hdelete
      (fun c hc ↦ (mem_list listing).mp hc) (nodup_list listing s block) hnone (by simp)
    rw [without_nil] at hfold
    have hbelow (u : U) : u ∈ gone ↔ Below s.parent u block := by
      rw [hgone.mem, nil_append]
      constructor
      · rintro ⟨c, hc, hwithin⟩
        exact TransGen.tail' hwithin ((mem_list listing).mp hc)
      · intro h
        obtain ⟨c, hwithin, hc⟩ := TransGen.tail'_iff.mp h
        exact ⟨c, (mem_list listing).mpr hc, hwithin⟩
    have hkept : block ∉ gone := fun h ↦ hacyclic block ((hbelow block).mp h)
    refine ⟨gone ++ [block], ⟨fun u ↦ ?_, ?_⟩, ?_⟩
    · rw [mem_append, hbelow, mem_singleton, within_iff, or_comm, eq_comm]
    · refine nodup_append.mpr ⟨hgone.nodup, nodup_singleton _, ?_⟩
      rintro x hx y hy rfl
      exact hkept (mem_singleton.mp hy ▸ hx)
    · simp only [deleteBlock, if_pos]
      rw [hfold]
      change (s.without gone).retractEntity block >>= _ = _
      rw [retract_without hblock hkept]
      rfl

/-- What is to go: the block, and with a cascade what is below it. -/
def Goes (s : Store U K T R V) (cascade : Bool) (block u : U) : Prop :=
  if cascade then Within s.parent u block else u = block

/-- The deletion takes what is to go, and the links to it, and answers `count`. -/
def Deletes (s : Store U K T R V) (cascade : Bool) (block : U)
    (result : Option (ℕ × Store U K T R V)) (count : List U → ℕ) : Prop :=
  ∃ gone : List U, gone.Nodup ∧ (∀ u, u ∈ gone ↔ Goes s cascade block u) ∧
    result = some (count gone, s.without gone)

theorem deleteBlock_alone {fuel : ℕ} (hfuel : 0 < fuel) (hblock : (s.get block).isSome) :
    deleteBlock listing fuel false s block = some (1, s.without [block]) := by
  obtain ⟨fuel, rfl⟩ := exists_eq_succ_of_ne_zero hfuel.ne'
  have hretract : s.retractEntity block = some (s.without [block]) := if_pos hblock
  simp [deleteBlock, hretract]

theorem length_list (hgone : IsSubtree s block gone) (hacyclic : Acyclic s.parent) :
    (listing.list s block).length + 1 = gone.length ↔
      ∀ u, Below s.parent u block → s.parent u = some block := by
  have hblock : block ∉ listing.list s block :=
    fun h ↦ hacyclic block (.single ((mem_list listing).mp h))
  have hnodup : (block :: listing.list s block).Nodup :=
    nodup_cons.mpr ⟨hblock, nodup_list listing s block⟩
  have hsub : block :: listing.list s block ⊆ gone := by
    intro u hu
    rw [hgone.mem]
    obtain rfl | hu := mem_cons.mp hu
    · exact .refl
    · exact .single ((mem_list listing).mp hu)
  have hsubperm := subperm_of_subset hnodup hsub
  constructor
  · intro hlength u hbelow
    have hperm := hsubperm.perm_of_length_le hlength.ge
    have hmem := hperm.symm.subset ((hgone.mem u).mpr (within_of_below hbelow))
    obtain rfl | hmem := mem_cons.mp hmem
    · exact absurd hbelow (hacyclic u)
    · exact (mem_list listing).mp hmem
  · intro hdirect
    have hsub' : gone ⊆ block :: listing.list s block := by
      intro u hu
      obtain heq | hbelow := within_iff.mp ((hgone.mem u).mp hu)
      · exact mem_cons.mpr (.inl heq.symm)
      · exact mem_cons.mpr (.inr ((mem_list listing).mpr (hdirect u hbelow)))
    have hle := (subperm_of_subset hgone.nodup hsub').length_le
    exact le_antisymm hsubperm.length_le hle

/-- A deletion removes what is to go, with its links. Its answer is right exactly if it does not
cascade, or nothing is below a child. -/
theorem deletes_iff (listing : ListBlocks U K T R V) (s : Store U K T R V) (block : U)
    (cascade : Bool) (fuel : ℕ) (hacyclic : Acyclic s.parent) (hblock : (s.get block).isSome)
    (hfuel : s.rows.length ≤ fuel) :
    (∃ n, Deletes s cascade block (deleteBlock listing fuel cascade s block) fun _ ↦ n) ∧
    (Deletes s cascade block (deleteBlock listing fuel cascade s block) List.length ↔
      (cascade = true → ∀ u, Below s.parent u block → s.parent u = some block)) := by
  have hmem {u : U} (hu : (s.get u).isSome) : u ∈ s.rows.map Entity.id := by
    obtain ⟨e, he⟩ := isSome_iff_exists.mp hu
    obtain ⟨hmem, rfl⟩ := Table.get_eq_some_iff.mp he
    exact mem_map_of_mem hmem
  have hrows : ∀ {c p}, s.parent c = some p → c ∈ s.rows.map Entity.id :=
    fun hparent ↦ hmem (isSome_of_parent hparent)
  obtain ⟨rank, hrank, hbound⟩ := exists_rank hacyclic hrows
  have hlow : rank block < fuel := by
    have hlt := hbound block (hmem hblock)
    rw [length_map] at hlt
    exact lt_of_lt_of_le hlt hfuel
  cases cascade with
  | false =>
    have hdeleted := deleteBlock_alone listing (lt_of_le_of_lt (zero_le _) hlow) hblock
    have hgoes : ∀ u, u ∈ [block] ↔ Goes s false block u := fun u ↦ mem_singleton
    have hnodup := nodup_singleton block
    exact ⟨⟨1, [block], hnodup, hgoes, hdeleted⟩,
      fun _ h ↦ (Bool.false_ne_true h).elim, fun _ ↦ ⟨[block], hnodup, hgoes, hdeleted⟩⟩
  | true =>
    obtain ⟨gone, hgone, hdeleted⟩ :=
      deleteBlock_cascade listing fuel s block hacyclic hrank hlow hblock
    refine ⟨⟨_, gone, hgone.nodup, hgone.mem, hdeleted⟩, ?_⟩
    rw [forall_prop_of_true rfl, ← length_list listing hgone hacyclic, hdeleted]
    constructor
    · rintro ⟨gone', hnodup', hmem', heq⟩
      obtain ⟨hcount, -⟩ := Prod.mk.inj (some.inj heq)
      have hperm := (perm_ext_iff_of_nodup hgone.nodup hnodup').mpr fun u ↦
        (hgone.mem u).trans (hmem' u).symm
      rw [hcount, hperm.length_eq]
    · intro hcount
      exact ⟨gone, hgone.nodup, hgone.mem, by rw [hcount]⟩

/-- The query answers in the order of the rows. -/
def rowOrder : ListBlocks U K T R V where
  list s p := (s.select (·.block.parent = some p)).map Entity.id
  perm _ _ := .refl _

/-- A page with a block, a block below that and a block below that. -/
def chain : Store ℕ ℕ Unit Unit Unit where
  rows := [⟨⟨0, none, none, some ()⟩, [], ()⟩, ⟨⟨1, some 0, some 0, none⟩, [], ()⟩,
    ⟨⟨2, some 1, some 0, none⟩, [], ()⟩, ⟨⟨3, some 2, some 0, none⟩, [((), 2)], ()⟩]
  nodup := by decide

theorem chain_parent {u p : ℕ} (h : chain.parent u = some p) : u = p + 1 ∧ u < 4 := by
  obtain ⟨e, he, hp⟩ := parent_eq_some.mp h
  obtain ⟨hmem, rfl⟩ := Table.get_eq_some_iff.mp he
  simp only [chain, mem_cons, not_mem_nil, or_false] at hmem
  obtain rfl | rfl | rfl | rfl := hmem <;> cases hp <;> decide

theorem chain_below {u a : ℕ} (h : Below chain.parent u a) : a < u ∧ u < 4 := by
  induction h using TransGen.head_induction_on with
  | single hedge =>
    have hparent := chain_parent hedge
    omega
  | head hedge _ ih =>
    have hparent := chain_parent hedge
    omega

theorem chain_acyclic : Acyclic chain.parent := fun _ h ↦ lt_irrefl _ (chain_below h).1

theorem deletes_iff_example :
    Deletes chain true 2 (deleteBlock rowOrder 4 true chain 2) List.length := by
  refine (deletes_iff rowOrder chain 2 true 4 chain_acyclic (by decide) (by decide)).2.mpr ?_
  intro _ u hbelow
  obtain ⟨hlow, hhigh⟩ := chain_below hbelow
  obtain rfl : u = 3 := by omega
  decide

/-- Three blocks go and two are answered. -/
theorem chain_miscounted :
    ¬ Deletes chain true 1 (deleteBlock rowOrder 4 true chain 1) List.length := by
  rintro ⟨gone, hnodup, hmem, hresult⟩
  have hanswer : (deleteBlock rowOrder 4 true chain 1).map Prod.fst = some 2 := by decide
  rw [hresult] at hanswer
  have hlength : gone.length = 2 := some.inj hanswer
  have hsub : [1, 2, 3] ⊆ gone := by
    have hedge2 : Edge chain.parent 2 1 := by rfl
    have hedge3 : Edge chain.parent 3 2 := by rfl
    have h2 : Within chain.parent 2 1 := .single hedge2
    have h3 : Within chain.parent 3 1 := .head hedge3 h2
    intro u hu
    rw [hmem]
    simp only [mem_cons, not_mem_nil, or_false] at hu
    obtain rfl | rfl | rfl := hu
    · exact .refl
    · exact h2
    · exact h3
  have hle := (subperm_of_subset (by decide) hsub).length_le
  rw [hlength] at hle
  exact absurd hle (by decide)

end Simmis.Wiki.Store
