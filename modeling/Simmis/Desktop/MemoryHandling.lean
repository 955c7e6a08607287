import Simmis.Desktop.MemoryDrafts

/-!
# What a reply or an observation does to a draft

One specification holds of every handler. It keeps everything typed into a dirty draft, it moves the
source to another entry only with a new generation, and the source it leaves is what is stored.
-/

namespace Simmis.Desktop.Memory

open Option Except Nat
open Markdown (Source)

variable {A V : Type}

namespace Draft

/-- Everything that was typed into `d` is still in `d'`. -/
structure Kept (d d' : Draft A V) : Prop where
  text : d'.text = d.text
  office : d'.office = d.office
  correction : d'.officeCorrection = d.officeCorrection
  localSource : d'.localSource = d.localSource
  richEdit : d'.richEdit = d.richEdit
  richBase : d.richBase.isSome → d'.richBase = d.richBase

theorem Kept.refl (d : Draft A V) : Kept d d := ⟨rfl, rfl, rfl, rfl, rfl, fun _ ↦ rfl⟩

theorem Kept.trans {d₁ d₂ d₃ : Draft A V} (h : Kept d₁ d₂) (h' : Kept d₂ d₃) : Kept d₁ d₃ where
  text := h'.text.trans h.text
  office := h'.office.trans h.office
  correction := h'.correction.trans h.correction
  localSource := h'.localSource.trans h.localSource
  richEdit := h'.richEdit.trans h.richEdit
  richBase hbase := (h'.richBase (h.richBase hbase ▸ hbase)).trans (h.richBase hbase)

/-- The generation of a draft goes up whenever its source moves to another entry. -/
structure Tracks (d d' : Draft A V) : Prop where
  le : d.generation ≤ d'.generation
  entry : d'.generation = d.generation → d'.source.entry = d.source.entry

end Draft

/-- The text of a body is the one that is stored under its entry. -/
def File.Sound (stored : Entry → Source) (file : File A) : Prop :=
  ∀ entry text, file.entry = some entry → file.text = some text → stored entry = text

namespace Draft

/-- The source of a draft, and the body that waits beside it, are what is stored. -/
structure Sound (stored : Entry → Source) (d : Draft A V) : Prop where
  source : d.source.Sound stored
  incoming : ∀ file, d.incoming = some (.body file) → file.Sound stored

/-- The source moves only with a new generation, by a true reply to what is stored. -/
structure Rebased (stored : Entry → Source) (truth : Prop) (d d' : Draft A V) : Prop where
  tracks : Tracks d d'
  sound : truth → d.Sound stored → d'.Sound stored

/-- What every reply and observation does: it also keeps what was typed. -/
structure Handled (stored : Entry → Source) (truth : Prop) (d d' : Draft A V) : Prop
    extends Rebased stored truth d d' where
  kept : d.dirty = true → Kept d d'

variable {host : Projector A V} {stored : Entry → Source} {truth : Prop} {d d' : Draft A V}
  {file : File A}

theorem ensureProjection_eq (h : d.ensureProjection host = .ok d') :
    ∃ cells, d' = { d with savedCells := cells } := by
  rw [ensureProjection] at h
  split at h
  · split at h
    · split at h
      · exact ⟨d.savedCells, (ok.inj h).symm⟩
      · split at h
        · split at h
          · exact ⟨_, (ok.inj h).symm⟩
          · obtain ⟨projection, -, h⟩ := bind_eq_ok.mp h
            exact ⟨_, (ok.inj h).symm⟩
        · obtain ⟨projection, -, h⟩ := bind_eq_ok.mp h
          exact ⟨_, (ok.inj h).symm⟩
    · exact ⟨none, (ok.inj h).symm⟩
  · exact ⟨none, (ok.inj h).symm⟩

theorem beginRich_eq (h : d.beginRich host = .ok d') :
    ∃ base, d' = { d with richBase := base } ∧ (d.richBase.isSome → base = d.richBase) := by
  rw [beginRich] at h
  split at h
  · rename_i hbase _
    split at h
    · obtain ⟨document, -, h⟩ := bind_eq_ok.mp h
      exact ⟨_, (ok.inj h).symm, fun hsome ↦ by simp [hbase] at hsome⟩
    · exact ⟨_, (ok.inj h).symm, fun _ ↦ rfl⟩
  · exact ⟨_, (ok.inj h).symm, fun _ ↦ rfl⟩

/-- A draft is opened on the file it was read from. -/
theorem ofFile_eq (h : ofFile host file = .ok d') :
    d'.source = file ∧ d'.text = file.text ∧ d'.incoming = none := by
  rw [ofFile] at h
  split at h
  · obtain ⟨opened, hopened, h⟩ := bind_eq_ok.mp h
    obtain ⟨base, rfl, -⟩ := beginRich_eq hopened
    obtain ⟨cells, rfl⟩ := ensureProjection_eq h
    exact ⟨rfl, rfl, rfl⟩
  · rw [← ok.inj h]
    exact ⟨rfl, rfl, rfl⟩

theorem ofFile_sound (hfile : file.Sound stored) (h : ofFile host file = .ok d') :
    d'.Sound stored := by
  obtain ⟨hsource, -, hincoming⟩ := ofFile_eq h
  exact ⟨hsource ▸ hfile, by simp [hincoming]⟩

theorem Rebased.refl : Rebased stored truth d d := ⟨⟨le_rfl, fun _ ↦ rfl⟩, fun _ ↦ id⟩

theorem Handled.refl : Handled stored truth d d := ⟨.refl, fun _ ↦ .refl d⟩

/-- A handler that leaves the source, the generation and everything typed alone. -/
theorem Handled.of_frame (hkept : Kept d d') (hsource : d'.source = d.source)
    (hgeneration : d'.generation = d.generation)
    (hincoming : ∀ file, d'.incoming = some (.body file) →
      d.incoming = some (.body file) ∨ (truth → file.Sound stored)) :
    Handled stored truth d d' where
  kept _ := hkept
  tracks := ⟨hgeneration.ge, fun _ ↦ by rw [hsource]⟩
  sound htruth h := by
    refine ⟨hsource ▸ h.source, fun file hfile ↦ ?_⟩
    rcases hincoming file hfile with hold | hsound
    · exact h.incoming file hold
    · exact hsound htruth

theorem Handled.mono {truth' : Prop} (h : Handled stored truth d d') (htruth : truth' → truth) :
    Handled stored truth' d d' := ⟨⟨h.tracks, fun ht ↦ h.sound (htruth ht)⟩, h.kept⟩

/-- An observation or a projection leaves the source, the generation and everything typed alone, and
brings no new body. -/
structure Framed (d d' : Draft A V) : Prop where
  kept : Kept d d'
  source : d'.source = d.source
  generation : d'.generation = d.generation
  incoming : ∀ file, d'.incoming = some (.body file) → d.incoming = some (.body file)

theorem Framed.handled (h : Framed d d') : Handled stored truth d d' :=
  .of_frame h.kept h.source h.generation fun file hfile ↦ .inl (h.incoming file hfile)

theorem Framed.trans {next : Draft A V} (h : Framed d next) (h' : Framed next d') :
    Framed d d' where
  kept := h.kept.trans h'.kept
  source := h'.source.trans h.source
  generation := h'.generation.trans h.generation
  incoming file hfile := h.incoming file (h'.incoming file hfile)

theorem Handled.framed {next : Draft A V} (h : Handled stored truth d next) (h' : Framed next d') :
    Handled stored truth d d' where
  kept hdirty := (h.kept hdirty).trans h'.kept
  tracks := by
    refine ⟨h'.generation ▸ h.tracks.le, fun heq ↦ ?_⟩
    rw [h'.source]
    exact h.tracks.entry (h'.generation ▸ heq)
  sound htruth hsound := by
    refine ⟨h'.source ▸ (h.sound htruth hsound).source, fun file hfile ↦ ?_⟩
    exact (h.sound htruth hsound).incoming file (h'.incoming file hfile)

theorem ensureProjection_framed (h : d.ensureProjection host = .ok d') : Framed d d' := by
  obtain ⟨cells, rfl⟩ := ensureProjection_eq h
  exact ⟨⟨rfl, rfl, rfl, rfl, rfl, fun _ ↦ rfl⟩, rfl, rfl, fun _ ↦ id⟩

theorem beginRich_framed (h : d.beginRich host = .ok d') : Framed d d' := by
  obtain ⟨base, rfl, hbase⟩ := beginRich_eq h
  exact ⟨⟨rfl, rfl, rfl, rfl, rfl, hbase⟩, rfl, rfl, fun _ ↦ id⟩

theorem beginRich_if_framed {mode : Mode}
    (h : (if mode = .rich then d.beginRich host else .ok d) = .ok d') : Framed d d' := by
  split at h
  · exact beginRich_framed h
  · rw [← ok.inj h]
    exact ⟨.refl d, rfl, rfl, fun _ ↦ id⟩

theorem sameDocument_entry {stamp : Option Uuid} {entry : Option Entry}
    (h : d.sameDocument stamp entry) : entry = d.source.entry := by
  rw [sameDocument, Bool.and_eq_true] at h
  exact of_decide_eq_true h.2

/-- A body that arrives is kept beside a dirty draft. -/
theorem loaded_handled (h : loaded host (some d) file = .ok d') :
    Handled stored (file.Sound stored) d d' := by
  rw [loaded] at h
  split at h
  · rw [← ok.inj h]
    exact .refl
  split at h
  · split at h
    · rw [← ok.inj h]
      exact .of_frame ⟨rfl, rfl, rfl, rfl, rfl, fun _ ↦ rfl⟩ rfl rfl (by simp)
    · rw [← ok.inj h]
      refine .of_frame ⟨rfl, rfl, rfl, rfl, rfl, fun _ ↦ rfl⟩ rfl rfl fun body hbody ↦ .inr ?_
      cases hbody
      exact id
  rename_i hclean
  have hnot : d.dirty ≠ true := fun hdirty ↦ hclean (.inl hdirty)
  split at h
  · rename_i hsame
    apply Handled.framed _ (ensureProjection_framed h)
    refine ⟨⟨⟨le_rfl, fun _ ↦ ?_⟩, fun hfile hsound ↦ ?_⟩, fun hdirty ↦ absurd hdirty hnot⟩
    · exact sameDocument_entry hsame.2.2.1
    · exact ⟨hfile, hsound.incoming⟩
  · obtain ⟨opened, hopened, h⟩ := bind_eq_ok.mp h
    obtain ⟨hsource, -, hincoming⟩ := ofFile_eq hopened
    rw [← ok.inj h]
    refine ⟨⟨?_, fun hfile _ ↦ ?_⟩, fun hdirty ↦ absurd hdirty hnot⟩
    · by_cases hsame : d.sameDocument file.targetStamp file.entry
      · refine ⟨by simp [hsame], fun _ ↦ ?_⟩
        rw [show opened.source = file from hsource]
        exact sameDocument_entry hsame
      · refine ⟨by simp [hsame], fun heq ↦ ?_⟩
        simp [hsame] at heq
    · have hopen := ofFile_sound hfile hopened
      exact ⟨hopen.source, hopen.incoming⟩

theorem loadedAtGeneration_handled {generation : Option ℕ}
    (h : loadedAtGeneration host (some d) generation file = .ok (some d')) :
    Handled stored (file.Sound stored) d d' := by
  rw [loadedAtGeneration] at h
  split at h
  · obtain ⟨next, hnext, heq⟩ := map_eq_ok.mp h
    exact loaded_handled (some.inj heq ▸ hnext)
  · rw [← some.inj (ok.inj h)]
    exact .refl

theorem loadedAtGeneration_sound {generation : Option ℕ} (hfile : file.Sound stored)
    (h : loadedAtGeneration host none generation file = .ok (some d')) : d'.Sound stored := by
  rw [loadedAtGeneration] at h
  split at h
  · obtain ⟨next, hnext, heq⟩ := map_eq_ok.mp h
    exact ofFile_sound hfile (some.inj heq ▸ hnext)
  · cases h

/-- The user takes the incoming copy, under a new generation. -/
theorem useIncoming_rebased (h : d.useIncoming host = .ok d') : Rebased stored truth d d' := by
  rw [useIncoming] at h
  split at h
  · rename_i file hfile
    split at h
    · rw [← ok.inj h]
      exact .refl
    · obtain ⟨next, hnext, h⟩ := bind_eq_ok.mp h
      rw [← ok.inj h]
      refine ⟨⟨le_succ _, fun heq ↦ absurd heq (succ_ne_self _)⟩, fun _ hsound ↦ ?_⟩
      have hopen := ofFile_sound (hsound.incoming file hfile) hnext
      exact ⟨hopen.source, hopen.incoming⟩
  · rw [← ok.inj h]
    exact .refl

theorem observedEntryOf_framed (entry : Option Entry) : Framed d (d.observedEntryOf entry) := by
  unfold observedEntryOf
  dsimp only
  split
  · exact ⟨⟨rfl, rfl, rfl, rfl, rfl, fun _ ↦ rfl⟩, rfl, rfl, by simp⟩
  · cases entry with
    | none => exact ⟨⟨rfl, rfl, rfl, rfl, rfl, fun _ ↦ rfl⟩, rfl, rfl, by simp⟩
    | some entry =>
      exact ⟨⟨rfl, rfl, rfl, rfl, rfl, fun _ ↦ rfl⟩, rfl, rfl, fun _ ↦
        eq_some_of_filter_eq_some⟩

theorem observedStamped_framed (entry : Option Entry) (stamp : Uuid) :
    Framed d (d.observedStamped entry stamp) := by
  unfold observedStamped
  split
  · exact ⟨.refl d, rfl, rfl, fun _ ↦ id⟩
  split
  · have hprior : Framed d { d with
        incomingTargetStamp := none, incomingMissing := false
        incoming := d.incoming.filter (sameIncoming entry stamp) } :=
      ⟨⟨rfl, rfl, rfl, rfl, rfl, fun _ ↦ rfl⟩, rfl, rfl, fun _ ↦ eq_some_of_filter_eq_some⟩
    apply (hprior.trans (observedEntryOf_framed entry)).trans
    exact ⟨⟨rfl, rfl, rfl, rfl, rfl, fun _ ↦ rfl⟩, rfl, rfl, fun _ ↦ id⟩
  · exact ⟨⟨rfl, rfl, rfl, rfl, rfl, fun _ ↦ rfl⟩, rfl, rfl, fun _ ↦
      eq_some_of_filter_eq_some⟩

theorem retargeted_handled (stamp : Uuid) : Handled stored truth d (d.retargeted stamp) where
  kept _ := ⟨rfl, rfl, rfl, rfl, rfl, fun _ ↦ rfl⟩
  tracks := ⟨le_succ _, fun heq ↦ absurd heq (succ_ne_self _)⟩
  sound _ h := ⟨h.source, h.incoming⟩

theorem analyzed_handled {text : Source} {analysis : A}
    (h : d.analyzed host text analysis = .ok d') : Handled stored truth d d' := by
  unfold analyzed at h
  extract_lets source first at h
  have hfirst : Handled stored truth d first := by
    dsimp only [first]
    split
    · exact ⟨⟨⟨le_rfl, fun _ ↦ rfl⟩, fun _ hsound ↦ ⟨hsound.source, hsound.incoming⟩⟩,
        fun _ ↦ ⟨rfl, rfl, rfl, rfl, rfl, fun _ ↦ rfl⟩⟩
    · exact .refl
  split at h
  · obtain ⟨next, hnext, h⟩ := bind_eq_ok.mp h
    have hshown : Framed first { first with
        analysis := some analysis, analysisText := some text } :=
      ⟨⟨rfl, rfl, rfl, rfl, rfl, fun _ ↦ rfl⟩, rfl, rfl, fun _ ↦ id⟩
    apply (hfirst.framed hshown).framed
    exact (beginRich_if_framed hnext).trans (ensureProjection_framed h)
  · exact hfirst.framed (ensureProjection_framed h)

/-- A receipt that says what was stored: `sent`, under its entry. -/
def Receipt (stored : Entry → Source) (sent : Option Source) (reply : Reply A V) : Prop :=
  ∀ text, sent = some text → stored reply.entry = text

variable {reply : Reply A V} {sent : Option Source}

theorem saved_handled (h : d.saved host sent reply = .ok d') :
    Handled stored (Receipt stored sent reply) d d' := by
  apply Handled.framed _ (ensureProjection_framed h)
  refine ⟨⟨⟨le_succ _, fun heq ↦ ?_⟩, fun hreply hs ↦ ?_⟩,
    fun _ ↦ ⟨rfl, rfl, rfl, rfl, rfl, fun _ ↦ rfl⟩⟩
  · exact absurd heq (succ_ne_self _)
  · refine ⟨fun entry text hentry htext ↦ ?_, fun file hfile ↦ hs.incoming file ?_⟩
    · rw [← some.inj hentry]
      exact hreply text htext
    · split at hfile
      · simp at hfile
      · exact hfile

/-- A move keeps the entry that was moved. -/
theorem moved_handled : Handled stored (d.source.entry = some reply.entry) d (d.moved reply) where
  kept _ := ⟨rfl, rfl, rfl, rfl, rfl, fun _ ↦ rfl⟩
  tracks := ⟨le_succ _, fun heq ↦ absurd heq (succ_ne_self _)⟩
  sound hreply h := by
    refine ⟨fun entry text hentry htext ↦ h.source entry text (hreply.trans hentry) htext, ?_⟩
    simp [moved]

variable {generation : ℕ}

theorem savedAtGeneration_handled (h : d.savedAtGeneration host generation sent reply = .ok d') :
    Handled stored (Receipt stored sent reply) d d' := by
  rw [savedAtGeneration] at h
  split at h
  · exact saved_handled h
  · rw [← ok.inj h]
    exact .of_frame ⟨rfl, rfl, rfl, rfl, rfl, fun _ ↦ rfl⟩ rfl rfl fun _ ↦ .inl

theorem propertySaved_handled (h : d.propertySaved host generation reply = .ok d') :
    Handled stored (Receipt stored reply.text reply) d d' := by
  rw [propertySaved] at h
  split at h
  · split at h
    · split at h
      · rw [← ok.inj h]
        exact .of_frame ⟨rfl, rfl, rfl, rfl, rfl, fun _ ↦ rfl⟩ rfl rfl fun _ ↦ .inl
      · obtain ⟨next, hnext, h⟩ := bind_eq_ok.mp h
        have hbody : Receipt stored reply.text reply → File.Sound stored { d.source with
            entry := some reply.entry, text := reply.text, analysis := reply.analysis } := by
          intro hreply entry text hentry htext
          rw [← some.inj hentry]
          exact hreply text htext
        apply ((loaded_handled hnext).mono hbody).framed
        rw [← ok.inj h]
        exact ⟨⟨rfl, rfl, rfl, rfl, rfl, fun _ ↦ rfl⟩, rfl, rfl, fun _ ↦ id⟩
    · rename_i hclean
      obtain ⟨next, hnext, h⟩ := bind_eq_ok.mp h
      have hsaved : Handled stored _ d next := saved_handled hnext
      have hrebased : ∀ incomingEntry, Handled stored (Receipt stored reply.text reply) d
          { next with
            text := reply.text, analysis := reply.analysis, analysisText := reply.text
            richBase := none, incomingEntry := incomingEntry } := by
        refine fun _ ↦ ⟨⟨⟨hsaved.tracks.le, hsaved.tracks.entry⟩, fun hreply hsound ↦ ?_⟩,
          fun hdirty ↦ absurd hdirty hclean⟩
        have hnext' := hsaved.sound hreply hsound
        exact ⟨hnext'.source, hnext'.incoming⟩
      exact (hrebased _).framed (beginRich_if_framed h)
  · rw [← ok.inj h]
    exact .of_frame ⟨rfl, rfl, rfl, rfl, rfl, fun _ ↦ rfl⟩ rfl rfl fun _ ↦ .inl

theorem dirty_eq_false : d.dirty = false ↔ d.source.entry.isSome ∧ d.text = d.source.text ∧
      (d.office.bind fun o ↦ o.text) = (d.office.bind fun o ↦ o.savedText) ∧
      (d.officeCorrection.any fun c ↦ c.text ≠ c.original) = false ∧
      (d.localSource.any fun l ↦ l.text ≠ l.openedText) = false := by
  simp [dirty, and_assoc, isNone_eq_false_iff]

theorem dirty_congr (hkept : Kept d d') (hsource : d'.source = d.source) : d'.dirty = d.dirty := by
  rw [dirty, dirty, hkept.text, hkept.office, hkept.correction, hkept.localSource, hsource]

/-- A save stores exactly what was sent. -/
theorem saved_clean (h : d.saved host sent reply = .ok d') (hclean : d'.dirty = false) : d.text = sent := by
  obtain ⟨cells, rfl⟩ := ensureProjection_eq h
  exact (dirty_eq_false.mp hclean).2.1

theorem loaded_source (hdirty : d.dirty) (h : loaded host (some d) file = .ok d') :
    d'.source = d.source := by
  rw [loaded] at h
  split at h
  · rw [← ok.inj h]
  · rw [if_pos (.inl hdirty)] at h
    split at h <;> rw [← ok.inj h]

/-- A property save leaves a dirty draft dirty, and a draft of another generation alone. -/
theorem propertySaved_dirty (h : d.propertySaved host generation reply = .ok d')
    (hlate : d.dirty ∨ generation ≠ d.generation) : Kept d d' ∧ d'.source = d.source := by
  rw [propertySaved] at h
  split at h
  · rename_i hcurrent
    have hdirty := hlate.resolve_right (not_not.mpr hcurrent.1)
    rw [if_pos hdirty] at h
    split at h
    · rw [← ok.inj h]
      exact ⟨⟨rfl, rfl, rfl, rfl, rfl, fun _ ↦ rfl⟩, rfl⟩
    · obtain ⟨next, hnext, h⟩ := bind_eq_ok.mp h
      have hhandled : Handled (fun _ ↦ []) _ d next := loaded_handled hnext
      have hkept := hhandled.kept hdirty
      have hsource := loaded_source hdirty hnext
      rw [← ok.inj h]
      exact ⟨⟨hkept.text, hkept.office, hkept.correction, hkept.localSource, hkept.richEdit,
        hkept.richBase⟩, hsource⟩
  · rw [← ok.inj h]
    exact ⟨⟨rfl, rfl, rfl, rfl, rfl, fun _ ↦ rfl⟩, rfl⟩

end Draft

end Simmis.Desktop.Memory
