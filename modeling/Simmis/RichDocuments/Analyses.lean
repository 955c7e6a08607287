import Simmis.RichDocuments.Projections

/-!
# Analyses of a document

The blocks of a document without diagnostics contain its top-level nodes in their order, and a block
with an identity stands between its two comments.
-/

namespace Simmis.RichDocuments

open List Entry Except
open Documents (Block Node Uuid Parsed)
open Documents.Blocks (Frame Semantic State appendBlock marker plainBlock step)

/-- `rich/model` of a node; a comment has none. -/
structure Editor (N : Type) where
  model : Node → Option N
  comment : ∀ node, node.kind ∈ Documents.Blocks.commentKinds → model node = none

section Analyses

variable {N : Type} (editor : Editor N)

def slotOf (node : Node) : Slot N := ⟨node.start, node.stop, editor.model node⟩

/-- What the editor gets of `analyze`. -/
def analysisOf (parsed : Parsed) (semantic : Semantic) (bodyFrom : Option ℕ) : Analysis N :=
  ⟨parsed.nodes.map (slotOf editor), semantic.blocks, bodyFrom⟩

variable {entries others : List Entry} {slots inner : List (Slot N)} {editor}

theorem Spells.append (h : Spells entries slots) (h' : Spells others inner) :
    Spells (entries ++ others) (slots ++ inner) := by
  induction h with
  | nil => exact h'
  | node _ ih => exact .node ih
  | container hopening hclosing hinner _ _ ih =>
    rw [append_assoc]
    exact .container hopening hclosing hinner ih

theorem Spells.start_mem (h : Spells entries slots) :
    ∀ entry ∈ entries, ∃ slot ∈ slots, slot.start = entry.start := by
  induction h with
  | nil => simp
  | @node slot rest later _ ih =>
    refine forall_mem_cons.mpr ⟨⟨slot, by simp, rfl⟩, fun entry hentry ↦ ?_⟩
    obtain ⟨s, hs, heq⟩ := ih entry hentry
    exact ⟨s, by simp [hs], heq⟩
  | @container opening closing id _ rest _ later _ _ _ _ _ ih =>
    refine forall_mem_cons.mpr ⟨⟨opening, by simp, rfl⟩, fun entry hentry ↦ ?_⟩
    obtain ⟨s, hs, heq⟩ := ih entry hentry
    exact ⟨s, by simp [hs], heq⟩

/-- The entries of slots in order are in order. -/
theorem Spells.pairwise (h : Spells entries slots)
    (hslots : slots.Pairwise fun a b ↦ a.start < b.start) :
    entries.Pairwise fun a b ↦ a.start < b.start := by
  induction h with
  | nil => exact .nil
  | @node slot rest later hrest ih =>
    obtain ⟨hfirst, hlater⟩ := pairwise_cons.mp hslots
    refine pairwise_cons.mpr ⟨fun entry hentry ↦ ?_, ih hlater⟩
    obtain ⟨s, hs, heq⟩ := hrest.start_mem entry hentry
    rw [← heq]
    exact hfirst s hs
  | @container opening closing id _ rest inside later _ _ _ hrest _ ih =>
    obtain ⟨hfirst, hslots⟩ := pairwise_cons.mp hslots
    have hlater := (pairwise_cons.mp (pairwise_append.mp hslots).2.1).2
    refine pairwise_cons.mpr ⟨fun entry hentry ↦ ?_, ih hlater⟩
    obtain ⟨s, hs, heq⟩ := hrest.start_mem entry hentry
    rw [← heq]
    exact hfirst s (by simp [hs])

theorem sort_of_perm (h : entries.Pairwise fun a b ↦ a.start < b.start)
    (hperm : others.Perm entries) : sort others = entries := by
  have : Std.Total fun a b : Entry ↦ a.start ≤ b.start := ⟨fun a b ↦ Nat.le_total a.start b.start⟩
  have : IsTrans Entry fun a b ↦ a.start ≤ b.start := ⟨fun _ _ _ ↦ Nat.le_trans⟩
  have hsorted : (sort others).Pairwise fun a b ↦ a.start ≤ b.start := pairwise_insertionSort _ _
  have hsame : (sort others).Perm entries := (perm_insertionSort _ _).trans hperm
  have hnodup : (entries.map start).Nodup := pairwise_map.mpr (h.imp Nat.ne_of_lt)
  refine hsame.eq_of_pairwise (fun a b ha hb hab hba ↦ ?_) hsorted (h.imp Nat.le_of_lt)
  exact inj_on_of_nodup_map hnodup (hsame.mem_iff.mp ha) hb (Nat.le_antisymm hab hba)

/-- The entries of a block that is still open. -/
def Frame.Holds (frame : Frame) (inner : List (Slot N)) : Prop :=
  ∃ entries, (frame.syntactic.map Entry.ofNode ++ frame.children.map Entry.ofBlock).Perm entries ∧
    Spells entries inner

/-- The stack has read the slots: the top level, and every open block. -/
inductive Reads : List Frame → List (Slot N) → Prop
  | top {frame : Frame} {slots : List (Slot N)} (hid : frame.id? = none)
    (hspells : Spells (frame.children.flatMap Entry.ofTop) slots) : Reads [frame] slots
  | within {frame : Frame} {below : List Frame} {slots inner : List (Slot N)} {opening : Slot N}
    {id : Uuid} (hid : frame.id? = some id) (hopening : opening.model = none)
    (hstart : frame.start = opening.start) (hholds : Frame.Holds frame inner)
    (hbelow : Reads below slots) : Reads (frame :: below) (slots ++ opening :: inner)

variable {hash : Uuid → Uuid → ℕ → ℕ → Uuid} {document : Uuid} {parsed : Parsed} {s t : State}
  {node : Node}

theorem model_eq_none (h : (marker parsed.source node).isSome) : editor.model node = none := by
  apply editor.comment
  by_contra hkind
  rw [marker, if_neg hkind] at h
  exact Bool.false_ne_true h

/-- A node that is read into the innermost block. -/
theorem Reads.appendSyntax {frame outer : Frame} {below : List Frame}
    (h : Reads (frame :: outer :: below) slots) :
    Reads ({ frame with syntactic := frame.syntactic ++ [node] } :: outer :: below)
      (slots ++ [slotOf editor node]) := by
  cases h with
  | @within _ _ front inner opening id hid hopening hstart hholds hbelow =>
    obtain ⟨entries, hperm, hspells⟩ := hholds
    rw [append_assoc]
    refine .within hid hopening hstart ⟨entries ++ [ofNode node], ?_, ?_⟩ hbelow
    · have hmove := (hperm.append_right [ofNode node])
      rw [append_assoc] at hmove
      rw [map_append, append_assoc]
      exact (List.Perm.append_left _ perm_append_comm).trans hmove
    · have hnode : Spells [ofNode node] [slotOf editor node] :=
        @Spells.node _ (slotOf editor node) _ _ .nil
      exact hspells.append hnode

/-- A block that is closed becomes the last child of the block around it. -/
theorem Reads.appendBlock {below : List Frame} {opening closing : Slot N} {block : ℕ → Block}
    {id : Uuid} (h : Reads below slots) (hopening : opening.model = none)
    (hclosing : closing.model = none) (hblock : ∀ n, ofTop (block n) = [ofBlock (block n)] ∧
      ofBlock (block n) = .container opening.start id entries) (hspells : Spells entries inner) :
    Reads (Documents.Blocks.appendBlock below block)
      (slots ++ (opening :: inner ++ [closing])) := by
  have hcontainer : Spells [.container opening.start id entries] (opening :: inner ++ [closing]) :=
    .container hopening hclosing hspells .nil
  cases h with
  | top hid hslots =>
    refine .top hid ?_
    rw [flatMap_append, flatMap_singleton, (hblock _).1, (hblock _).2]
    exact hslots.append hcontainer
  | @within frame _ front inside outer outerId hid houter hstart hholds hbelow =>
    obtain ⟨outerEntries, hperm, houterSpells⟩ := hholds
    rw [append_assoc]
    refine .within hid houter hstart ⟨outerEntries ++ [.container opening.start id entries], ?_,
      houterSpells.append hcontainer⟩ hbelow
    rw [map_append, ← append_assoc, map_singleton, (hblock _).2]
    exact hperm.append_right _

/-- Diagnostics are only added. -/
theorem step_diagnostics (h : step hash document parsed s node = .ok t) :
    s.diagnostics.length ≤ t.diagnostics.length := by
  unfold step at h
  split at h
  · split at h
    · exact absurd h (by simp)
    · obtain rfl := ok.inj h
      exact le_rfl
  · split at h
    · obtain rfl := ok.inj h
      exact le_rfl
    · obtain rfl := ok.inj h
      simp
  · obtain rfl := ok.inj h
    simp
  · split at h
    · obtain rfl := ok.inj h
      exact le_rfl
    · obtain rfl := ok.inj h
      exact le_rfl

/-- One node, as long as it adds no diagnostic. -/
theorem step_reads (h : Reads s.stack slots)
    (hordered : (slots ++ [slotOf editor node]).Pairwise fun a b ↦ a.start < b.start)
    (hstep : step hash document parsed s node = .ok t)
    (hquiet : t.diagnostics.length ≤ s.diagnostics.length) :
    Reads t.stack (slots ++ [slotOf editor node]) := by
  have hslots := (pairwise_append.mp hordered).1
  unfold step at hstep
  split at hstep
  · next id hmarker =>
    split at hstep
    · exact absurd hstep (by simp)
    · obtain rfl := ok.inj hstep
      have hmodel : editor.model node = none := model_eq_none (by rw [hmarker]; rfl)
      exact .within rfl hmodel rfl ⟨[], .refl _, .nil⟩ h
  · next hmarker =>
    have hmodel : editor.model node = none := model_eq_none (by rw [hmarker]; rfl)
    split at hstep
    · next id start contentStart syntactic children below hstack =>
      obtain rfl := ok.inj hstep
      rw [hstack] at h
      cases h with
      | @within _ _ front inner opening _ hid hopening hstart hholds hbelow =>
        obtain ⟨entries, hperm, hspells⟩ := hholds
        have hinner : inner.Pairwise fun a b ↦ a.start < b.start :=
          (pairwise_cons.mp (pairwise_append.mp hslots).2.1).2
        have hsort := sort_of_perm (hspells.pairwise hinner) hperm
        let block (ordinal : ℕ) : Block := .mk id .explicit ⟨start, node.stop⟩
          (Documents.Blocks.groupRegions contentStart node.start children) syntactic ordinal
          children
        have hblock : ∀ n, ofTop (block n) = [ofBlock (block n)] ∧
            ofBlock (block n) = .container opening.start id entries := by
          intro n
          refine ⟨rfl, ?_⟩
          rw [ofBlock, hsort, ← hstart]
        rw [append_assoc]
        exact hbelow.appendBlock hopening hmodel hblock hspells
      | top hid _ => exact absurd hid (by simp)
    · obtain rfl := ok.inj hstep
      exact absurd hquiet (by simp)
  · obtain rfl := ok.inj hstep
    exact absurd hquiet (by simp)
  · split at hstep
    · next frame outer below hstack =>
      obtain rfl := ok.inj hstep
      rw [hstack] at h
      exact h.appendSyntax
    · next stack hdeep =>
      obtain rfl := ok.inj hstep
      generalize hstack : s.stack = stack at h hdeep
      cases h with
      | top hid hspells =>
        refine .top hid ?_
        have hnode : Spells [ofNode node] [slotOf editor node] :=
          @Spells.node _ (slotOf editor node) _ _ .nil
        rw [flatMap_append, flatMap_singleton]
        exact hspells.append hnode
      | within hid hopening hstart hholds hbelow =>
        cases hbelow with
        | top _ _ => exact (hdeep _ _ _ rfl).elim
        | within _ _ _ _ _ => exact (hdeep _ _ _ rfl).elim

theorem foldlM_diagnostics {nodes : List Node}
    (h : nodes.foldlM (step hash document parsed) s = .ok t) :
    s.diagnostics.length ≤ t.diagnostics.length := by
  induction nodes generalizing s with
  | nil =>
    obtain rfl := ok.inj h
    exact le_rfl
  | cons node nodes ih =>
    obtain ⟨u, hstep, hrest⟩ := bind_eq_ok.mp h
    exact (step_diagnostics hstep).trans (ih hrest)

/-- All nodes, as long as none adds a diagnostic. -/
theorem foldlM_reads {nodes : List Node} (h : Reads s.stack slots)
    (hordered : (slots ++ nodes.map (slotOf editor)).Pairwise fun a b ↦ a.start < b.start)
    (hfold : nodes.foldlM (step hash document parsed) s = .ok t)
    (hquiet : t.diagnostics.length ≤ s.diagnostics.length) :
    Reads t.stack (slots ++ nodes.map (slotOf editor)) := by
  induction nodes generalizing s slots with
  | nil =>
    obtain rfl := ok.inj hfold
    simpa using h
  | cons node nodes ih =>
    obtain ⟨u, hstep, hrest⟩ := bind_eq_ok.mp hfold
    have hfirst := step_diagnostics hstep
    have hlater := foldlM_diagnostics hrest
    rw [map_cons, append_cons] at hordered ⊢
    have hnode := step_reads h (pairwise_append.mp hordered).1 hstep (by omega)
    exact ih hnode hordered hrest (by omega)

/-- When no block is open, the top level has read everything. -/
theorem Reads.closed {stack : List Frame} (h : Reads stack slots) (hclosed : stack.dropLast = []) :
    ∃ frame, stack = [frame] ∧ Spells (frame.children.flatMap ofTop) slots := by
  cases h with
  | top hid hspells => exact ⟨_, rfl, hspells⟩
  | within hid hopening hstart hholds hbelow =>
    cases hbelow with
    | top _ _ => exact absurd hclosed (by simp)
    | within _ _ _ _ _ => exact absurd hclosed (by simp)

/-- The blocks of a document without diagnostics spell its nodes. -/
theorem project_spells {semantic : Semantic} {bodyFrom : Option ℕ}
    (hproject : Documents.Blocks.project hash document parsed = .ok semantic)
    (hready : semantic.diagnostics = [])
    (hordered : (parsed.nodes.map (slotOf editor)).Pairwise fun a b ↦ a.start < b.start) :
    Spells (sort ((analysisOf editor parsed semantic bodyFrom).blocks.flatMap ofTop))
      (analysisOf editor parsed semantic bodyFrom).slots := by
  simp only [Documents.Blocks.project, bind_eq_ok, pure, Except.pure, Except.ok.injEq] at hproject
  obtain ⟨s, hfold, rfl⟩ := hproject
  simp only [append_eq_nil_iff, map_eq_nil_iff] at hready
  obtain ⟨⟨hquiet, hclosed⟩, -⟩ := hready
  have htop : Reads [(⟨none, 0, 0, [], []⟩ : Frame)] ([] : List (Slot N)) := .top rfl .nil
  have hreads := foldlM_reads htop hordered hfold (by simp [hquiet])
  rw [nil_append] at hreads
  obtain ⟨frame, hstack, hspells⟩ := hreads.closed hclosed
  change Spells (sort (((s.stack.getLast?.map Frame.children).getD []).flatMap ofTop))
    (parsed.nodes.map (slotOf editor))
  rw [hstack]
  change Spells (sort (frame.children.flatMap ofTop)) _
  rw [sort_of_perm (hspells.pairwise hordered) (.refl _)]
  exact hspells

end Analyses

end Simmis.RichDocuments
