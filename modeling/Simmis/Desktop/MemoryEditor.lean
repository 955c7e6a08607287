import Simmis.Desktop.MemoryHandling
import Simmis.Library.Maps
import Simmis.Library.Runs

/-!
# The memory editor's state

Replies, observations and failures meet the drafts in any order, between the edits of the user. A
dirty draft keeps what was typed through each of them, and a draft that is not dirty has the text
that is stored under its entry.
-/

namespace Simmis.Desktop.Memory

open List Option Draft Except
open Maps (assoc dissoc get? get?_assoc get?_dissoc)
open Markdown (Source)
open Runs (Along run)

variable {A V : Type}

/-- A request that is under way. Evaluations do not belong to a target. -/
inductive Slot
  | repl
  | evaluate (path : Path)
  | cell (path : Path) (revision : Uuid)
  | move (path : Path)
  | file (name : String) (path : Path)
  | metadata
deriving DecidableEq

namespace Slot

/-- `evaluation-slot?` -/
def isEvaluation : Slot → Bool
  | repl | evaluate _ | cell _ _ => true
  | _ => false

/-- A read or a write of a file other than its move. -/
def belongsTo (path : Path) : Slot → Bool
  | file _ p => p = path
  | _ => false

end Slot

/-- A move as it was sent: the draft's generation and entry then. -/
structure Move where
  generation : ℕ
  expected : Option Entry
  target : Path

structure State (A V : Type) where
  targetStamp : Option Uuid := none
  readEpoch : ℕ := 0
  drafts : List (Path × Draft A V) := []
  requests : List (Slot × Option Move) := []
  errors : List (Slot × String) := []

/-- Everything of a draft that its user may change. -/
structure Typing (A V : Type) where
  text : Option Source
  analysis : Option A
  mode : Mode
  selection : V
  codeView : Option V
  richBase : Option (RichBase A V)
  richEdit : Option V
  localSource : Option (LocalSource V)
  office : Option (Office V)
  officeCorrection : Option (Correction V)

inductive Event (A V : Type)
  | loaded (path : Path) (file : File A)
  | loadedAtGeneration (path : Path) (generation : Option ℕ) (file : File A)
  | observedEntry (path : Path) (entry : Option Entry)
  | observedStamped (path : Path) (entry : Option Entry) (stamp : Uuid)
  | observeTarget (stamp : Uuid)
  | saved (path : Path) (sent : Option Source) (reply : Reply A V)
  | savedAtGeneration (path : Path) (generation : ℕ) (sent : Option Source) (reply : Reply A V)
  | propertySaved (path : Path) (generation : ℕ) (reply : Reply A V)
  | moved (path : Path) (reply : Reply A V)
  | analyzed (path : Path) (text : Source) (analysis : A)
  | failed (slot : Slot) (message : String)
  | edited (path : Path) (typing : Typing A V)
  | usedIncoming (path : Path)
  | created (path : Path) (kind : Kind) (origin : Option Uuid) (text : Source)
  | requested (name : String) (path : Path)
  | moveSent (path target : Path)

/-- The user did it. -/
def Event.byUser : Event A V → Bool
  | .edited _ _ | .usedIncoming _ | .created _ _ _ _ | .moveSent _ _ => true
  | _ => false

namespace Draft

def typed (d : Draft A V) (typing : Typing A V) : Draft A V :=
  { d with
    text := typing.text, analysis := typing.analysis, mode := typing.mode
    selection := typing.selection, codeView := typing.codeView, richBase := typing.richBase
    richEdit := typing.richEdit, localSource := typing.localSource, office := typing.office
    officeCorrection := typing.officeCorrection }

end Draft

namespace State

variable (host : Projector A V) (s : State A V)

/-- `update-in [:drafts path]` of a handler that may throw, where there is a draft. -/
def handle (path : Path) (f : Draft A V → Except String (Draft A V)) : State A V :=
  match get? s.drafts path with
  | some d =>
    match f d with
    | .ok d' => { s with drafts := assoc s.drafts path d' }
    | .error _ => s
  | none => s

def handleLoaded (path : Path)
    (f : Option (Draft A V) → Except String (Option (Draft A V))) : State A V :=
  match f (get? s.drafts path) with
  | .ok (some d) => { s with drafts := assoc s.drafts path d }
  | _ => s

def observeTarget (stamp : Uuid) : State A V :=
  if s.targetStamp = some stamp then s
  else
    { targetStamp := some stamp, readEpoch := s.readEpoch + 1
      drafts := s.drafts.map fun p ↦ (p.1, p.2.retargeted stamp)
      requests := s.requests.filter fun p ↦ p.1.isEvaluation
      errors := s.errors.filter fun p ↦ p.1.isEvaluation }

/-- The draft and the move that a receipt is accepted for. -/
def accepted (path : Path) : Option (Draft A V × Move) :=
  match get? s.drafts path, get? s.requests (.move path) with
  | some d, some (some move) =>
    if d.generation = move.generation ∧ get? s.drafts move.target = none then some (d, move)
    else none
  | _, _ => none

/-- `moved-state` of an accepted receipt. The request is over in any case. -/
def moved (s : State A V) (path : Path) (reply : Reply A V) : State A V :=
  match s.accepted path with
  | some (d, move) =>
    { s with
      drafts := dissoc (assoc s.drafts move.target (d.moved reply)) path
      requests := (dissoc s.requests (.move path)).filter fun p ↦ !p.1.belongsTo path
      errors := s.errors.filter fun p ↦ !p.1.belongsTo path }
  | none => { s with requests := dissoc s.requests (.move path) }

/-- A failure is written down while its request is under way. -/
def failed (slot : Slot) (message : String) : State A V :=
  if (get? s.requests slot).isSome then
    { s with requests := dissoc s.requests slot, errors := assoc s.errors slot message }
  else s

/-- The draft of a file that is not there yet. -/
def created (path : Path) (kind : Kind) (origin : Option Uuid) (text : Source) :
    State A V :=
  let file := ⟨path, kind, none, some [], origin, none, none, false⟩
  match get? s.drafts path, Draft.ofFile host file with
  | none, .ok d =>
    let d := { d with text := some text, mode := .source }
    let d := if origin = s.targetStamp then d
      else { d with targetStale := true, currentTargetStamp := s.targetStamp }
    { s with drafts := assoc s.drafts path d }
  | _, _ => s

def moveSent (path target : Path) : State A V :=
  match get? s.drafts path, get? s.requests (.move path) with
  | some d, none => { s with
      requests := assoc s.requests (.move path) (some ⟨d.generation, d.source.entry, target⟩) }
  | _, _ => s

@[grind] def step : Event A V → State A V
  | .loaded path file => s.handleLoaded path fun d ↦ some <$> Draft.loaded host d file
  | .loadedAtGeneration path generation file =>
    s.handleLoaded path fun d ↦ Draft.loadedAtGeneration host d generation file
  | .observedEntry path entry => s.handle path fun d ↦ .ok (d.observedEntryOf entry)
  | .observedStamped path entry stamp => s.handle path fun d ↦ .ok (d.observedStamped entry stamp)
  | .observeTarget stamp => s.observeTarget stamp
  | .saved path sent reply => s.handle path fun d ↦ d.saved host sent reply
  | .savedAtGeneration path generation sent reply =>
    s.handle path fun d ↦ d.savedAtGeneration host generation sent reply
  | .propertySaved path generation reply =>
    s.handle path fun d ↦ d.propertySaved host generation reply
  | .moved path reply => s.moved path reply
  | .analyzed path text analysis => s.handle path fun d ↦ d.analyzed host text analysis
  | .failed slot message => s.failed slot message
  | .edited path typing => s.handle path fun d ↦ .ok (d.typed typing)
  | .usedIncoming path => s.handle path fun d ↦ d.useIncoming host
  | .created path kind origin text => s.created host path kind origin text
  | .requested name path => { s with requests := assoc s.requests (.file name path) none }
  | .moveSent path target => s.moveSent path target

end State

/-- A reply says what is stored, a receipt names the entry that was to move. -/
def Truthful (stored : Entry → Source) (s : State A V) : Event A V → Prop
  | .loaded _ file | .loadedAtGeneration _ _ file => file.Sound stored
  | .saved _ sent reply | .savedAtGeneration _ _ sent reply => Draft.Receipt stored sent reply
  | .propertySaved _ _ reply => Draft.Receipt stored reply.text reply
  | .moved path reply => ∀ move, get? s.requests (.move path) = some (some move) →
      move.expected = some reply.entry
  | _ => True

namespace State

/-- A draft's source is what is stored, and a move was sent from the draft at its path, if that is
as old. -/
structure Sound (stored : Entry → Source) (s : State A V) : Prop where
  drafts : ∀ p d, get? s.drafts p = some d → d.Sound stored
  moves : ∀ p move, get? s.requests (.move p) = some (some move) → ∃ d, get? s.drafts p = some d ∧
    move.generation ≤ d.generation ∧
      (d.generation = move.generation → d.source.entry = move.expected)

variable {host : Projector A V} {stored : Entry → Source} {truth : Prop} {s s' : State A V}
  {path : Path}

/-- An event other than a move handles every draft as `R` says, and sends no move. -/
structure Steps (stored : Entry → Source) (truth : Prop) (R : Draft A V → Draft A V → Prop)
    (s s' : State A V) : Prop where
  handled : ∀ p d, get? s.drafts p = some d → ∃ d', get? s'.drafts p = some d' ∧ R d d'
  opened : ∀ p d', get? s'.drafts p = some d' → (get? s.drafts p).isSome ∨ (truth → d'.Sound stored)
  requests : ∀ p move, get? s'.requests (.move p) = some (some move) →
    get? s.requests (.move p) = some (some move)

theorem Steps.mono {R R' : Draft A V → Draft A V → Prop} (h : Steps stored truth R s s')
    (hle : ∀ d d', R d d' → R' d d') : Steps stored truth R' s s' where
  handled p d hd := by
    obtain ⟨d', hd', hR⟩ := h.handled p d hd
    exact ⟨d', hd', hle d d' hR⟩
  opened := h.opened
  requests := h.requests

theorem Sound.steps (h : s.Sound stored)
    (hsteps : Steps stored truth (Draft.Rebased stored truth) s s') (htruth : truth) :
    s'.Sound stored where
  drafts p d' hd' := by
    rcases hsteps.opened p d' hd' with hold | hnew
    · obtain ⟨d, hd⟩ := isSome_iff_exists.mp hold
      obtain ⟨next, hnext, hhandled⟩ := hsteps.handled p d hd
      rw [hd'] at hnext
      rw [some.inj hnext]
      exact hhandled.sound htruth (h.drafts p d hd)
    · exact hnew htruth
  moves p move hmove := by
    obtain ⟨d, hd, hle, hentry⟩ := h.moves p move (hsteps.requests p move hmove)
    obtain ⟨d', hd', hhandled⟩ := hsteps.handled p d hd
    have hle' := hhandled.tracks.le
    refine ⟨d', hd', by omega, fun heq ↦ ?_⟩
    rw [hhandled.tracks.entry (by omega)]
    exact hentry (by omega)

section Relation

variable {R : Draft A V → Draft A V → Prop} (hrefl : ∀ d, R d d)

include hrefl

theorem Steps.refl : Steps stored truth R s s :=
  ⟨fun _ d hd ↦ ⟨d, hd, hrefl d⟩, fun _ _ hd ↦ .inl (by simp [hd]), fun _ _ ↦ id⟩

/-- A draft is put at a path, for the one that was there. -/
theorem Steps.put {d' : Draft A V} (hold : ∀ d, get? s.drafts path = some d → R d d')
    (hnew : get? s.drafts path = none → truth → d'.Sound stored) :
    Steps stored truth R s { s with drafts := assoc s.drafts path d' } where
  handled p d hd := by
    rw [get?_assoc]
    split
    · rename_i hp
      exact ⟨d', rfl, hold d (hp ▸ hd)⟩
    · exact ⟨d, hd, hrefl d⟩
  opened p d hd := by
    rw [get?_assoc] at hd
    split at hd
    · rename_i hp
      rw [← some.inj hd, ← hp]
      cases hget : get? s.drafts path with
      | none => exact .inr (hnew hget)
      | some old => exact .inl rfl
    · exact .inl (by simp [hd])
  requests _ _ := id

theorem Steps.handle {f : Draft A V → Except String (Draft A V)}
    (hf : ∀ d d', f d = .ok d' → R d d') : Steps stored truth R s (s.handle path f) := by
  rw [State.handle]
  split
  · rename_i d hd
    split
    · rename_i d' hd'
      apply Steps.put hrefl _ (by simp [hd])
      intro old hold
      rw [hd] at hold
      exact some.inj hold ▸ hf d d' hd'
    · exact .refl hrefl
  · exact .refl hrefl

theorem Steps.handleLoaded {f : Option (Draft A V) → Except String (Option (Draft A V))}
    (hf : ∀ d d', f (some d) = .ok (some d') → R d d')
    (hnew : ∀ d', f none = .ok (some d') → truth → d'.Sound stored) :
    Steps stored truth R s (s.handleLoaded path f) := by
  rw [State.handleLoaded]
  split
  · rename_i d' hd'
    apply Steps.put hrefl
    · intro d hd
      exact hf d d' (hd ▸ hd')
    · intro hnone
      exact hnew d' (hnone ▸ hd')
  · exact .refl hrefl

theorem Steps.observeTarget {stamp : Uuid} (hR : ∀ d, R d (d.retargeted stamp)) :
    Steps stored truth R s (s.observeTarget stamp) := by
  rw [State.observeTarget]
  split
  · exact .refl hrefl
  · constructor
    · intro p d hd
      refine ⟨d.retargeted stamp, ?_, hR d⟩
      rw [Maps.get?_map, hd]
      rfl
    · intro p d' hd'
      rw [Maps.get?_map] at hd'
      obtain ⟨d, hd, -⟩ := map_eq_some_iff.mp hd'
      exact .inl (by simp [hd])
    · intro p move hmove
      have hslot := mem_filter.mp (Maps.mem_of_get? hmove)
      simp [Slot.isEvaluation] at hslot

theorem Steps.created {kind : Kind} {origin : Option Uuid} {text : Source} :
    Steps stored truth R s (s.created host path kind origin text) := by
  rw [State.created]
  split
  · rename_i d hnone hd
    have hopen : d.Sound stored := ofFile_sound (by simp [File.Sound]) hd
    apply Steps.put hrefl (by simp [hnone])
    intro _ _
    split <;> exact ⟨hopen.source, hopen.incoming⟩
  · exact .refl hrefl

/-- Requests come to an end, or are sent for other slots. -/
theorem Steps.of_requests {requests : List (Slot × Option Move)} {errors : List (Slot × String)}
    (hless : ∀ p move, get? requests (.move p) = some (some move) →
      get? s.requests (.move p) = some (some move)) :
    Steps stored truth R s { s with requests := requests, errors := errors } :=
  ⟨fun _ d hd ↦ ⟨d, hd, hrefl d⟩, fun _ _ hd ↦ .inl (by simp [hd]), hless⟩

end Relation

theorem get?_dissoc_move {p : Path} {move : Move} {slot : Slot}
    (h : get? (dissoc s.requests slot) (.move p) = some (some move)) :
    slot ≠ .move p ∧ get? s.requests (.move p) = some (some move) := by
  rw [get?_dissoc] at h
  split at h
  · simp at h
  · rename_i hne
    exact ⟨hne, h⟩

variable {d : Draft A V}

theorem accepted_eq_some {move : Move} (h : s.accepted path = some (d, move)) :
    get? s.drafts path = some d ∧ get? s.requests (.move path) = some (some move) ∧
      d.generation = move.generation ∧ get? s.drafts move.target = none := by
  rw [accepted] at h
  split at h
  · rename_i old sent hd hmove
    split at h
    · rename_i hok
      cases h
      exact ⟨hd, hmove, hok⟩
    · simp at h
  · simp at h

/-- An accepted receipt moves the draft, and every other draft stays where it is. -/
theorem moved_get {move : Move} {reply : Reply A V} (h : s.accepted path = some (d, move))
    {p : Path} (d' : Draft A V) : get? (s.moved path reply).drafts p = some d' ↔
      p = move.target ∧ d' = d.moved reply ∨ p ≠ path ∧ get? s.drafts p = some d' := by
  obtain ⟨hd, -, -, htarget⟩ := accepted_eq_some h
  have hne : path ≠ move.target := by
    rintro rfl
    simp [hd] at htarget
  rw [moved, h, get?_dissoc, get?_assoc]
  by_cases hpath : path = p
  · subst hpath
    simp [hne]
  · by_cases hp : move.target = p
    · subst hp
      simp [hpath, htarget, eq_comm]
    · simp [hpath, hp, Ne.symm hpath, Ne.symm hp]

theorem Sound.moved (h : s.Sound stored) {reply : Reply A V}
    (htrue : Truthful stored s (.moved path reply)) : (s.moved path reply).Sound stored := by
  cases haccepted : s.accepted path with
  | none =>
    rw [State.moved, haccepted]
    exact h.steps (Steps.of_requests (fun _ ↦ .refl) fun p move hmove ↦ (get?_dissoc_move hmove).2)
      trivial
  | some found =>
    obtain ⟨d, move⟩ := found
    obtain ⟨hd, hmove, hgeneration, htarget⟩ := accepted_eq_some haccepted
    obtain ⟨old, hold, -, hentry⟩ := h.moves path move hmove
    rw [hd] at hold
    cases hold
    have hkept : d.source.entry = some reply.entry := (hentry hgeneration).trans (htrue move hmove)
    constructor
    · intro p d' hd'
      rcases (moved_get haccepted d').mp hd' with ⟨-, rfl⟩ | ⟨-, hd'⟩
      · exact moved_handled.sound hkept (h.drafts path d hd)
      · exact h.drafts p d' hd'
    · intro p sent hsent
      rw [State.moved, haccepted] at hsent
      have hfilter := (Maps.get?_filter (fun slot ↦ !Slot.belongsTo path slot) _ _).symm.trans hsent
      obtain ⟨hne, hsent⟩ := get?_dissoc_move (by simpa [Slot.belongsTo] using hfilter)
      obtain ⟨old, hold, hrest⟩ := h.moves p sent hsent
      refine ⟨old, (moved_get haccepted old).mpr (.inr ⟨?_, hold⟩), hrest⟩
      rintro rfl
      exact hne rfl

theorem Sound.moveSent (h : s.Sound stored) (target : Path) :
    (s.moveSent path target).Sound stored := by
  rw [State.moveSent]
  split
  · rename_i d hd _
    refine ⟨h.drafts, fun p move hmove ↦ ?_⟩
    rw [get?_assoc] at hmove
    split at hmove
    · rename_i hp
      cases hmove
      cases hp
      exact ⟨d, hd, le_rfl, fun _ ↦ rfl⟩
    · exact h.moves p move hmove
  · exact h

/-- A reply, an observation or a failure other than a move handles every draft. -/
theorem step_handled (e : Event A V) (huser : e.byUser = false) (hmove : ∀ p r, e ≠ .moved p r) :
    Steps stored (Truthful stored s e) (Draft.Handled stored (Truthful stored s e)) s
      (s.step host e) := by
  have hrefl : ∀ d : Draft A V, Draft.Handled stored (Truthful stored s e) d d := fun _ ↦ .refl
  cases e with
  | loaded path file =>
    rw [State.step]
    apply Steps.handleLoaded hrefl
    · intro d d' hd'
      obtain ⟨next, hnext, hd'⟩ := map_eq_ok.mp hd'
      exact loaded_handled (some.inj hd' ▸ hnext)
    · intro d' hd' htrue
      obtain ⟨next, hnext, hd'⟩ := map_eq_ok.mp hd'
      exact ofFile_sound htrue (some.inj hd' ▸ hnext)
  | loadedAtGeneration path generation file =>
    rw [State.step]
    exact Steps.handleLoaded hrefl (fun _ _ ↦ loadedAtGeneration_handled) fun _ hd' htrue ↦
      loadedAtGeneration_sound htrue hd'
  | observedEntry path entry =>
    exact Steps.handle hrefl fun d d' hd' ↦
      ok.inj hd' ▸ (observedEntryOf_framed entry).handled
  | observedStamped path entry stamp =>
    exact Steps.handle hrefl fun d d' hd' ↦
      ok.inj hd' ▸ (observedStamped_framed entry stamp).handled
  | observeTarget stamp => exact Steps.observeTarget hrefl fun _ ↦ retargeted_handled stamp
  | saved path sent reply => exact Steps.handle hrefl fun _ _ ↦ saved_handled
  | savedAtGeneration path generation sent reply =>
    exact Steps.handle hrefl fun _ _ ↦ savedAtGeneration_handled
  | propertySaved path generation reply =>
    exact Steps.handle hrefl fun _ _ ↦ propertySaved_handled
  | moved path reply => exact absurd rfl (hmove path reply)
  | analyzed path text analysis => exact Steps.handle hrefl fun _ _ ↦ analyzed_handled
  | failed slot message =>
    rw [State.step, State.failed]
    split
    · exact Steps.of_requests hrefl fun p move hmove ↦ (get?_dissoc_move hmove).2
    · exact .refl hrefl
  | requested name path =>
    apply Steps.of_requests hrefl
    intro p move hmove
    rw [get?_assoc] at hmove
    simpa using hmove
  | edited | usedIncoming | created | moveSent => cases huser

/-- What is stored stays the source of every draft, whatever the user or a reply does. -/
theorem Sound.step (h : s.Sound stored) (e : Event A V) (htrue : Truthful stored s e) :
    (s.step host e).Sound stored := by
  have hrefl : ∀ d : Draft A V, Draft.Rebased stored True d d := fun _ ↦ .refl
  cases e with
  | moved path reply => exact h.moved htrue
  | edited path typing =>
    apply h.steps _ trivial
    rw [State.step]
    apply Steps.handle hrefl
    intro d d' hd'
    rw [← ok.inj hd']
    exact ⟨⟨le_rfl, fun _ ↦ rfl⟩, fun _ hsound ↦ ⟨hsound.source, hsound.incoming⟩⟩
  | usedIncoming path =>
    apply h.steps _ trivial
    exact Steps.handle hrefl fun _ _ ↦ useIncoming_rebased
  | created path kind origin text => exact h.steps (Steps.created hrefl) trivial
  | moveSent path target => exact h.moveSent target
  | _ => exact h.steps ((step_handled _ rfl (by simp)).mono fun _ _ ↦ Draft.Handled.toRebased) htrue

theorem Sound.run (h : s.Sound stored) {events : List (Event A V)}
    (htrue : Along (State.step host) (Truthful stored) s events) :
    (run (State.step host) s events).Sound stored := by
  induction events generalizing s with
  | nil => exact h
  | cons e events ih => exact ih (h.step e htrue.1) htrue.2

/-- An editor that has nothing open. -/
def empty : State A V := {}

theorem empty_sound : (empty : State A V).Sound stored where
  drafts p d hd := by simp [empty, get?] at hd
  moves p move hmove := by simp [empty, get?] at hmove

/-- Where the draft at `p` is after an event: at the target of an accepted move. -/
def place (s : State A V) (p : Path) : Event A V → Path
  | .moved path _ =>
    match s.accepted path with
    | some (_, move) => if p = path then move.target else p
    | none => p
  | _ => p

/-- A dirty draft keeps what was typed through every event that is not its user's. -/
theorem step_kept {e : Event A V} (huser : e.byUser = false) {p : Path}
    (hd : get? s.drafts p = some d) (hdirty : d.dirty) :
    ∃ d', get? (s.step host e).drafts (s.place p e) = some d' ∧ Draft.Kept d d' := by
  by_cases hmoved : ∃ path reply, e = .moved path reply
  · obtain ⟨path, reply, rfl⟩ := hmoved
    rw [State.step, place]
    cases haccepted : s.accepted path with
    | none =>
      rw [State.moved, haccepted]
      exact ⟨d, hd, .refl d⟩
    | some found =>
      obtain ⟨old, move⟩ := found
      by_cases hp : p = path
      · obtain ⟨hold, -⟩ := accepted_eq_some haccepted
        rw [← hp, hd] at hold
        cases hold
        refine ⟨d.moved reply, (moved_get haccepted _).mpr (.inl ⟨by simp [hp], rfl⟩), ?_⟩
        exact ⟨rfl, rfl, rfl, rfl, rfl, fun _ ↦ rfl⟩
      · dsimp only
        rw [if_neg hp]
        exact ⟨d, (moved_get haccepted d).mpr (.inr ⟨hp, hd⟩), .refl d⟩
  · have hplace : s.place p e = p := by
      cases e with
      | moved path reply => exact absurd ⟨path, reply, rfl⟩ hmoved
      | _ => rfl
    have hsteps : Steps (fun _ ↦ []) _ _ s (s.step host e) :=
      step_handled e huser fun path reply heq ↦ hmoved ⟨path, reply, heq⟩
    obtain ⟨d', hd', hhandled⟩ := hsteps.handled p d hd
    exact ⟨d', by rwa [hplace], hhandled.kept hdirty⟩

/-- Where the draft at `p` is after all events. -/
def placeAfter (host : Projector A V) (s : State A V) (p : Path) : List (Event A V) → Path
  | [] => p
  | e :: events => placeAfter host (s.step host e) (s.place p e) events

/-- What was typed into a dirty draft is there after any events that are not its user's, unless the
draft got clean with it on the way. -/
theorem run_kept {events : List (Event A V)} (huser : ∀ e ∈ events, e.byUser = false) {p : Path}
    (hd : get? s.drafts p = some d) (hdirty : d.dirty) :
    (∃ d', get? (run (State.step host) s events).drafts (placeAfter host s p events) = some d' ∧
      Draft.Kept d d') ∨ ∃ early late, events = early ++ late ∧ ∃ d',
      get? (run (State.step host) s early).drafts (placeAfter host s p early) = some d' ∧
        Draft.Kept d d' ∧ d'.dirty = false := by
  induction events generalizing s p d with
  | nil => exact .inl ⟨d, hd, .refl d⟩
  | cons e events ih =>
    have hstep : ∃ d', get? (s.step host e).drafts (s.place p e) = some d' ∧ Draft.Kept d d' :=
      step_kept (huser e (by simp)) hd hdirty
    obtain ⟨next, hnext, hkept⟩ := hstep
    cases hclean : next.dirty with
    | false => exact .inr ⟨[e], events, rfl, next, hnext, hkept, hclean⟩
    | true =>
      rcases ih (fun e' he' ↦ huser e' (by simp [he'])) hnext hclean with
        ⟨d', hd', hkept'⟩ | ⟨early, late, rfl, d', hd', hkept', hclean'⟩
      · exact .inl ⟨d', hd', hkept.trans hkept'⟩
      · exact .inr ⟨e :: early, late, rfl, d', hd', hkept.trans hkept', hclean'⟩

theorem handle_get {f : Draft A V → Except String (Draft A V)} (hd : get? s.drafts path = some d) :
    ∃ d', get? (s.handle path f).drafts path = some d' ∧ (f d = .ok d' ∨ d' = d) := by
  rw [handle, hd]
  dsimp only
  cases hf : f d with
  | ok d' => exact ⟨d', by simp [get?_assoc], .inl rfl⟩
  | error e => exact ⟨d, hd, .inr rfl⟩

/-- A completed save marks only what it sent, in its own generation, as saved. -/
structure Acknowledged (host : Projector A V) (s : State A V) (p : Path) (d : Draft A V) :
    Prop where
  saved : ∀ sent reply, ∃ d', get? (s.step host (.saved p sent reply)).drafts p = some d' ∧
    d'.text = d.text ∧ (d.dirty = true → d'.dirty = false → d.text = sent)
  savedAtGeneration : ∀ generation sent reply, ∃ d',
    get? (s.step host (.savedAtGeneration p generation sent reply)).drafts p = some d' ∧
      d'.text = d.text ∧
      (d.dirty = true → d'.dirty = false → generation = d.generation ∧ d.text = sent) ∧
      (generation ≠ d.generation → d'.source = d.source)
  propertySaved : ∀ generation reply, ∃ d',
    get? (s.step host (.propertySaved p generation reply)).drafts p = some d' ∧
      (d.dirty = true → d'.text = d.text ∧ d'.dirty = true) ∧
      (generation ≠ d.generation → d'.text = d.text ∧ d'.source = d.source)

theorem acknowledged {p : Path} (hd : get? s.drafts p = some d) : Acknowledged host s p d where
  saved sent reply := by
    obtain ⟨d', hd', hstep⟩ := handle_get (f := fun d ↦ d.saved host sent reply) hd
    refine ⟨d', hd', ?_⟩
    rcases hstep with hsaved | rfl
    · obtain ⟨cells, rfl⟩ := ensureProjection_eq hsaved
      exact ⟨rfl, fun _ hclean ↦ saved_clean hsaved hclean⟩
    · exact ⟨rfl, fun hdirty hclean ↦ absurd hdirty (by simp [hclean])⟩
  savedAtGeneration generation sent reply := by
    obtain ⟨d', hd', hstep⟩ :=
      handle_get (f := fun d ↦ d.savedAtGeneration host generation sent reply) hd
    refine ⟨d', hd', ?_⟩
    rcases hstep with hsaved | rfl
    · rw [savedAtGeneration] at hsaved
      split at hsaved
      · rename_i hcurrent
        obtain ⟨cells, rfl⟩ := ensureProjection_eq hsaved
        exact ⟨rfl, fun _ hclean ↦ ⟨hcurrent.1, saved_clean hsaved hclean⟩,
          fun hlate ↦ absurd hcurrent.1 hlate⟩
      · rw [← ok.inj hsaved]
        exact ⟨rfl, fun hdirty hclean ↦ absurd hdirty (Bool.eq_false_iff.mp hclean), fun _ ↦ rfl⟩
    · exact ⟨rfl, fun hdirty hclean ↦ absurd hdirty (by simp [hclean]), fun _ ↦ rfl⟩
  propertySaved generation reply := by
    obtain ⟨d', hd', hstep⟩ := handle_get (f := fun d ↦ d.propertySaved host generation reply) hd
    refine ⟨d', hd', ?_⟩
    rcases hstep with hsaved | rfl
    · refine ⟨fun hdirty ↦ ?_, fun hlate ↦ ?_⟩
      · obtain ⟨hkept, hsource⟩ := propertySaved_dirty hsaved (.inl hdirty)
        exact ⟨hkept.text, (dirty_congr hkept hsource).trans hdirty⟩
      · obtain ⟨hkept, hsource⟩ := propertySaved_dirty hsaved (.inr hlate)
        exact ⟨hkept.text, hsource⟩
    · exact ⟨fun hdirty ↦ ⟨rfl, hdirty⟩, fun _ ↦ ⟨rfl, rfl⟩⟩

end State

open State in
/-- A dirty draft keeps what was typed until it got clean with it, a save marks only what it sent,
and a clean draft has the stored text. -/
theorem drafts_changed_only_by_user (host : Projector A V) :
    (∀ (s : State A V) (p : Path) (d : Draft A V), get? s.drafts p = some d →
      (d.dirty = true → ∀ e : Event A V, e.byUser = false →
        ∃ d', get? (s.step host e).drafts (s.place p e) = some d' ∧ Draft.Kept d d') ∧
      (d.dirty = true → ∀ events : List (Event A V), (∀ e ∈ events, e.byUser = false) →
        (∃ d', get? (run (State.step host) s events).drafts (placeAfter host s p events) = some d' ∧
          Draft.Kept d d') ∨
        ∃ early late, events = early ++ late ∧ ∃ d',
          get? (run (State.step host) s early).drafts (placeAfter host s p early) = some d' ∧
            Draft.Kept d d' ∧ d'.dirty = false) ∧
      Acknowledged host s p d) ∧ ∀ (stored : Entry → Source) (events : List (Event A V)),
      Along (State.step host) (Truthful stored) State.empty events → ∀ p d,
        get? (run (State.step host) State.empty events).drafts p = some d → d.dirty = false →
          ∃ entry, d.source.entry = some entry ∧
            ∀ text, d.text = some text → stored entry = text := by
  refine ⟨fun s p d hd ↦ ⟨fun hdirty e huser ↦ step_kept huser hd hdirty,
    fun hdirty events huser ↦ run_kept huser hd hdirty, acknowledged hd⟩,
    fun stored events htrue p d hd hclean ↦ ?_⟩
  have hsound := (State.empty_sound.run htrue).drafts p d hd
  obtain ⟨hentry, htext, -⟩ := dirty_eq_false.mp hclean
  obtain ⟨entry, hentry⟩ := isSome_iff_exists.mp hentry
  exact ⟨entry, hentry, fun text h ↦ hsound.source entry text hentry (htext ▸ h)⟩

end Simmis.Desktop.Memory
