import Simmis.Library.Runs

/-!
# An open block editor

A wiki block's text lives in an editor that the page does not render again. The editor is told when
the content of its block changes, and keeps what its user typed.
-/

namespace Simmis.Desktop.BlockSync

open Option

variable {C : Type} [DecidableEq C]

structure SyncState (C : Type) where
  applied : C
  clean : C
  conflict : Option C
deriving DecidableEq

inductive Action where
  | none | apply | conflict | save | orphan
deriving DecidableEq

/-- `mounted` -/
def mounted (content html : C) : SyncState C := ⟨content, html, none⟩

variable (state : SyncState C)

/-- `dirty?` -/
def SyncState.dirty (shown : C) : Bool := shown ≠ state.clean

/-- `incoming` -/
def incoming (remote shown : C) (focused : Bool) : Action × SyncState C :=
  if remote = shown then (.none, ⟨remote, shown, none⟩)
  else if remote = state.applied then (.none, { state with conflict := none })
  else if focused || state.dirty shown then (.conflict, { state with conflict := some remote })
  else (.apply, state)

/-- `leaving` -/
def leaving (shown : C) : Action :=
  if state.dirty shown then .save else if state.conflict.isSome then .apply else .none

/-- `unmounted` -/
def unmounted (shown : C) (exists_ deletedHere : Bool) : Action :=
  if !state.dirty shown then .none
  else if deletedHere then .none
  else if !exists_ then .orphan
  else .save

/-- `saving` says that a save has not come back; `typed` is read by no rule. -/
structure Editor (C : Type) where
  shown : C
  focused : Bool := false
  state : SyncState C
  saving : Bool := false
  typed : Option C := none
deriving DecidableEq

/-- The block's content in the database, if it is there, and the notices. -/
structure World (C : Type) where
  content : Option C
  deletedHere : Bool := false
  notices : List C := []
  editor : Option (Editor C) := none
deriving DecidableEq

inductive Event (C : Type) where
  | mount
  | remote (content : C)
  | deleted (here : Bool)
  | typed (text : C)
  | focus
  | blur
  | saved
  | unmount

section Callers

-- How the editor shows a content.
variable (display : C → C)

/-- `take-content!` -/
def Editor.take (ed : Editor C) (content : C) : Editor C where
  shown := display content
  focused := ed.focused
  state := mounted content (display content)

/-- `follow-replica!` -/
def Editor.follow (ed : Editor C) (remote : C) : Editor C :=
  match incoming ed.state remote ed.shown ed.focused with
  | (.apply, _) => ed.take display remote
  | (_, state) =>
    { ed with state, saving := false, typed := if remote = ed.shown then none else ed.typed }

/-- `leave-block!` -/
def World.leave (w : World C) (ed : Editor C) : World C :=
  match leaving ed.state ed.shown, ed.state.conflict with
  | .save, _ =>
    let ed := { ed with state.conflict := none }
    if w.content.isSome then
      { w with content := some ed.shown, editor := some { ed with saving := true, typed := none } }
    else { w with editor := some ed }
  | .apply, some content => { w with editor := some (ed.take display content) }
  | _, _ => { w with editor := some ed }

/-- `release-block-editor!` -/
def World.release (w : World C) (ed : Editor C) : World C :=
  match unmounted ed.state ed.shown w.content.isSome w.deletedHere with
  | .orphan => { w with notices := w.notices ++ [ed.shown], editor := none }
  | .save => { w with content := some ed.shown, editor := none }
  | _ => { w with editor := none }

def World.change (w : World C) (f : Editor C → Editor C) : World C :=
  { w with editor := w.editor.map f }

def step (w : World C) : Event C → World C
  | .mount => match w.editor, w.content with
    | none, some content =>
      { w with editor := some ⟨display content, false, mounted content (display content), false,
        none⟩ }
    | _, _ => w
  | .remote content =>
    if w.content.isSome then { w with content := some content }.change (·.follow display content)
    else w
  | .deleted here =>
    if w.content.isSome then { w with content := none, deletedHere := here } else w
  | .typed text => w.change fun ed ↦ { ed with shown := text, typed := some text }
  | .focus => w.change fun ed ↦ { ed with focused := true }
  | .blur => match w.editor with
    | some ed => w.leave display { ed with focused := false }
    | none => w
  | .saved => match w.content with
    | some content => w.change (·.follow display content)
    | none => w
  | .unmount => match w.editor with
    | some ed => w.release ed
    | none => w

end Callers

variable {display : C → C} {w : World C} {ed : Editor C} {content : Option C}

/-- The text last taken is the content last taken, and outside a save the conflict is the content
not taken. -/
structure Editor.Sound (display : C → C) (content : Option C) (ed : Editor C) : Prop where
  clean : ed.state.clean = display ed.state.applied ∨ ed.state.clean = ed.state.applied
  typed : ∀ text ∈ ed.typed, ed.shown = text
  saving : ed.saving = true → ed.state.conflict = none
  conflict : ed.saving = false → ∀ c ∈ content, ∀ d,
    ed.state.conflict = some d ↔ d = c ∧ c ≠ ed.state.applied

def World.Sound (display : C → C) (w : World C) : Prop :=
  ∀ ed ∈ w.editor, ed.Sound display w.content

omit [DecidableEq C] in
theorem Editor.take_sound {c : C} (h : ∀ c' ∈ content, c' = c) (ed : Editor C) :
    (ed.take display c).Sound display content where
  clean := .inl rfl
  typed := nofun
  saving := nofun
  conflict _ c' hc' d := by simp [Editor.take, mounted, h c' hc']

theorem Editor.Sound.follow (h : ed.Sound display content) (remote : C) :
    (ed.follow display remote).Sound display (some remote) := by
  unfold Editor.follow incoming
  by_cases hshown : remote = ed.shown
  · rw [if_pos hshown]
    exact ⟨.inr hshown.symm, by simp [hshown], nofun, by rintro - _ ⟨⟩ d; simp⟩
  rw [if_neg hshown]
  by_cases happlied : remote = ed.state.applied
  · rw [if_pos happlied]
    refine ⟨h.clean, by simpa [hshown] using h.typed, nofun, ?_⟩
    simp [happlied]
  rw [if_neg happlied]
  by_cases hkept : (ed.focused || ed.state.dirty ed.shown)
  · rw [if_pos hkept]
    refine ⟨h.clean, by simpa [hshown] using h.typed, nofun, ?_⟩
    simp [happlied, eq_comm]
  · rw [if_neg hkept]
    exact ed.take_sound (by simp)

omit [DecidableEq C] in
theorem World.Sound.change (h : w.Sound display) {f : Editor C → Editor C}
    (hf : ∀ ed, ed.Sound display w.content → (f ed).Sound display content) :
    World.Sound display ({ w with content }.change f) := by
  intro ed hed
  obtain ⟨old, hold, rfl⟩ := map_eq_some_iff.mp hed
  exact hf old (h old hold)

theorem World.Sound.leave (h : ed.Sound display w.content) : (w.leave display ed).Sound display := by
  obtain ⟨hclean, htyped, hsaving, hconflict⟩ := h
  unfold World.leave
  split
  · split
    · rintro _ ⟨⟩
      exact ⟨hclean, nofun, fun _ ↦ rfl, nofun⟩
    · next hnone =>
      rintro _ ⟨⟩
      rw [not_isSome_iff_eq_none] at hnone
      exact ⟨hclean, htyped, fun _ ↦ rfl, by simp [hnone]⟩
  · next d _ hsome =>
    rintro _ ⟨⟩
    refine ed.take_sound fun c hc ↦ ?_
    cases hpending : ed.saving with
    | true => exact nomatch (hsaving hpending).symm.trans hsome
    | false => exact ((hconflict hpending c hc d).mp hsome).1.symm
  · rintro _ ⟨⟩
    exact ⟨hclean, htyped, hsaving, hconflict⟩

theorem World.Sound.step (h : w.Sound display) (e : Event C) :
    (step display w e).Sound display := by
  cases e with
  | mount =>
    simp only [BlockSync.step]
    split
    · next c _ hcontent =>
      rintro _ ⟨⟩
      exact Editor.take_sound (by simp [hcontent]) ⟨c, false, mounted c c, false, none⟩
    · exact h
  | remote c =>
    simp only [BlockSync.step]
    split
    · exact h.change fun ed hed ↦ hed.follow c
    · exact h
  | deleted here =>
    simp only [BlockSync.step]
    split
    · exact fun ed hed ↦ ⟨(h ed hed).clean, (h ed hed).typed, (h ed hed).saving, nofun⟩
    · exact h
  | typed text =>
    exact h.change fun ed hed ↦ { hed with typed := by rintro _ ⟨⟩; rfl }
  | focus => exact h.change fun ed hed ↦ { hed with }
  | blur =>
    simp only [BlockSync.step]
    split
    · next ed hed =>
      obtain ⟨hclean, htyped, hsaving, hconflict⟩ := h ed hed
      exact .leave ⟨hclean, htyped, hsaving, hconflict⟩
    · exact h
  | saved =>
    simp only [BlockSync.step]
    split
    · next c hcontent =>
      have hchange : World.Sound display ({ w with content := some c }.change (·.follow display c)) :=
        h.change fun ed hed ↦ hed.follow c
      rwa [← hcontent] at hchange
    · exact h
  | unmount =>
    simp only [BlockSync.step]
    split
    · unfold World.release
      split <;> exact nofun
    · exact h

theorem Editor.follow_shown {remote : C} (hne : (ed.follow display remote).shown ≠ ed.shown) :
    ed.shown = ed.state.clean := by
  unfold Editor.follow incoming at hne
  split at hne
  · next hincoming =>
    split at hincoming
    · exact nomatch hincoming
    split at hincoming
    · exact nomatch hincoming
    split at hincoming
    · exact nomatch hincoming
    · next hkept => exact (by simpa [SyncState.dirty] using hkept : _ ∧ _).2
  · exact absurd rfl hne

theorem World.leave_shown {ed' : Editor C} (hed' : ed' ∈ (w.leave display ed).editor)
    (hne : ed'.shown ≠ ed.shown) : ed.shown = ed.state.clean := by
  unfold World.leave at hed'
  split at hed'
  · split at hed' <;> (cases hed'; exact absurd rfl hne)
  · next hleaving _ =>
    unfold leaving at hleaving
    split at hleaving
    · exact nomatch hleaving
    · next hclean => simpa [SyncState.dirty] using hclean
  · cases hed'
    exact absurd rfl hne

/-- Only when nothing is typed another event than typing replaces the text. -/
theorem step_shown {e : Event C} (he : ∀ text, e ≠ .typed text) (hed : ed ∈ w.editor)
    {ed' : Editor C} (hed' : ed' ∈ (step display w e).editor) (hne : ed'.shown ≠ ed.shown) :
    ed.shown = ed.state.clean := by
  have hed : w.editor = some ed := hed
  have hkept : ∀ {f : Editor C → Editor C} {content : Option C},
      ed' ∈ ({ w with content }.change f).editor → ed' = f ed := fun hmem ↦ by
    simp only [World.change, hed, map_some, mem_def, some.injEq] at hmem
    exact hmem.symm
  have hsame : ed' ∈ w.editor → False := fun hmem ↦
    hne (by rw [some.inj (hmem.symm.trans hed)])
  cases e with
  | mount =>
    simp only [step, hed] at hed'
    exact (hsame (by rwa [hed])).elim
  | remote c =>
    simp only [step] at hed'
    split at hed'
    · exact Editor.follow_shown (hkept hed' ▸ hne)
    · exact (hsame hed').elim
  | deleted here =>
    simp only [step] at hed'
    split at hed' <;> exact (hsame hed').elim
  | typed text => exact absurd rfl (he text)
  | focus => exact absurd rfl (hkept hed' ▸ hne)
  | blur =>
    simp only [step, hed] at hed'
    exact @World.leave_shown _ _ _ _ { ed with focused := false } _ hed' hne
  | saved =>
    simp only [step] at hed'
    split at hed'
    · exact Editor.follow_shown (hkept hed' ▸ hne)
    · exact (hsame hed').elim
  | unmount =>
    simp only [step, hed, World.release] at hed'
    split at hed' <;> exact nomatch hed'

/-- Unmounting keeps what is typed, unless this session deleted the block. -/
theorem release_typed {text : C} (hshown : ed.shown = text) (htyped : text ≠ ed.state.clean) :
    (w.release ed).content = some text ∨ text ∈ (w.release ed).notices ∨ w.deletedHere := by
  subst hshown
  have hdirty : ed.state.dirty ed.shown := by simpa [SyncState.dirty] using htyped
  cases hhere : w.deletedHere with
  | true => exact .inr (.inr rfl)
  | false => cases hcontent : w.content.isSome <;> simp [World.release, unmounted, *]

/-- Reverting the remote change clears the conflict. -/
theorem follow_applied : (ed.follow display ed.state.applied).state.conflict = none := by
  unfold Editor.follow incoming
  by_cases hshown : ed.state.applied = ed.shown
  · rw [if_pos hshown]
  · rw [if_neg hshown, if_pos rfl]

/-- The text shown is replaced only where it was taken from the database, typed text is kept at the
unmount, and the conflict is the content not taken. -/
theorem run_blockSync (content : Option C) (events : List (Event C)) :
    let w := Runs.run (step display) { content } events
    ∀ ed ∈ w.editor,
      (ed.state.clean = display ed.state.applied ∨ ed.state.clean = ed.state.applied) ∧
      (∀ e, (∀ text, e ≠ .typed text) → ∀ ed' ∈ (step display w e).editor,
        ed'.shown ≠ ed.shown → ed.shown = ed.state.clean) ∧
      (∀ text, ed.typed = some text → text ≠ ed.state.clean → let u := step display w .unmount
        u.content = some text ∨ text ∈ u.notices ∨ w.deletedHere = true) ∧
      (ed.saving = false → ∀ c, w.content = some c →
        ∀ d, ed.state.conflict = some d ↔ d = c ∧ c ≠ ed.state.applied) ∧
      (w.content.isSome → ∀ ed' ∈ (step display w (.remote ed.state.applied)).editor,
        ed'.state.conflict = none) := by
  intro w ed hed
  have hsound : w.Sound display :=
    Runs.run_preserves (World.Sound display) (fun _ e h ↦ h.step e) (by rintro _ ⟨⟩)
      events
  obtain ⟨hclean, htyped, -, hconflict⟩ := hsound ed hed
  have hed' : w.editor = some ed := hed
  refine ⟨hclean, fun e he ed' hmem hne ↦ step_shown he hed hmem hne, fun text htext hne ↦ ?_,
    hconflict, fun hsome ed' hmem ↦ ?_⟩
  · rw [step, hed']
    exact release_typed (htyped text htext) hne
  · simp only [step, hsome, if_true, World.change, hed', map_some, mem_def, some.injEq] at hmem
    exact hmem ▸ follow_applied

/-- Typing back the text last taken drops it for the new content, and typing the new content does
not clear the conflict. -/
theorem typed_back :
    (let w := Runs.run (step id) { content := some 0 }
      [.mount, .focus, .typed 1, .remote 2, .typed 0, .unmount]
    w.content = some 2 ∧ w.notices = [] ∧ w.deletedHere = false) ∧
    (let w := Runs.run (step id) { content := some 0 } [.mount, .focus, .typed 1, .remote 2, .typed 2]
    w.content = some 2 ∧ w.editor.map (fun ed ↦ (ed.shown, ed.state.conflict)) = some (2, some 2)) := by
  decide

end Simmis.Desktop.BlockSync
