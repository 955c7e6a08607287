import Simmis.Library.Runs
import Simmis.Sheets.Table

/-!
# Scopes and their workbooks

A call finds every workbook that is open. As long as every call passes a handle of its own scope, no
scope sees or changes the workbooks of another one.
-/

namespace Simmis.Sheets

open List Runs Function Nat

variable {W A S F : Type}

theorem sheetId_injective : Function.Injective sheetId := by
  intro m n h
  unfold sheetId at h
  have hlist := congrArg String.toList h
  rw [String.toList_append, String.toList_append, append_cancel_left_eq] at hlist
  have hdigits : toDigits 10 m = toDigits 10 n := by
    rw [← toList_repr, ← toList_repr]
    exact hlist
  rw [← ofDigitChars_ten_toDigits (n := m), hdigits, ofDigitChars_ten_toDigits]

/-- Every workbook has an id of its own, which was counted. -/
structure State.Numbered (s : State S W F) : Prop where
  nodup : (s.handles.map Entry.id).Nodup
  counted : ∀ entry ∈ s.handles, ∃ n ≤ s.counter, entry.id = sheetId n

variable {engine : Engine W A} {filesystems : S → Fs F} {s t : State S W F} {scope other : S}
  {now : ℤ} {seed : ℕ} {call : Call} {id : String} {handles : Table S W}

variable {entry : Entry S W}

theorem State.Numbered.fresh (h : s.Numbered) (hentry : entry ∈ s.handles) :
    entry.id ≠ sheetId (s.counter + 1) := by
  obtain ⟨n, hn, hid⟩ := h.counted entry hentry
  intro hsame
  have heq := sheetId_injective (hid.symm.trans hsame)
  omega

theorem mem_dissoc {id : Arg} (h : entry ∈ dissoc handles id) : entry ∈ handles := by
  unfold dissoc at h
  split at h
  · exact (mem_filter.mp h).1
  · exact h

theorem dissoc_sublist (handles : Table S W) (id : Arg) : (dissoc handles id).Sublist handles := by
  unfold dissoc
  split
  · exact filter_sublist
  · exact List.Sublist.refl _

theorem nodup_of_subperm {l l' : Table S W} (h : l.Subperm l')
    (hnodup : (l'.map Entry.id).Nodup) : (l.map Entry.id).Nodup := by
  obtain ⟨l'', hperm, hsublist⟩ := h
  exact (hperm.map _).nodup_iff.mp (hnodup.sublist (hsublist.map _))

variable {opened : Bool}

/-- The table after a call is numbered again. -/
theorem State.Numbered.changed (h : s.Numbered) {handles : Table S W}
    (hchanged : Changed scope (sheetId (s.counter + 1)) now call s.handles handles opened) :
    (handles.map Entry.id).Nodup ∧ ∀ entry ∈ handles,
      ∃ n ≤ (if opened then s.counter + 1 else s.counter), entry.id = sheetId n := by
  cases hchanged with
  | same => exact ⟨h.nodup, h.counted⟩
  | updated handle entry f hcall hentry hf =>
    have hids : (update s.handles entry.id f).map Entry.id = s.handles.map Entry.id :=
      ids_update fun e ↦ (hf e).1
    rw [hids]
    refine ⟨h.nodup, fun e he ↦ ?_⟩
    have hid := mem_map_of_mem (f := Entry.id) he
    rw [hids] at hid
    obtain ⟨e', he', hsame⟩ := mem_map.mp hid
    rw [← hsame]
    exact h.counted e' he'
  | closed handle hcall =>
    exact ⟨nodup_of_subperm (dissoc_sublist _ _).subperm h.nodup,
      fun entry hentry ↦ h.counted entry (mem_dissoc hentry)⟩
  | opened path entry hcall hid hscope htouched =>
    have hsubperm := evictStale_subperm now (s.handles ++ [entry])
    refine ⟨nodup_of_subperm hsubperm ?_, fun e he ↦ ?_⟩
    · rw [map_append, nodup_append]
      refine ⟨h.nodup, nodup_singleton _, ?_⟩
      intro a ha b hb
      obtain ⟨old, hold, rfl⟩ := mem_map.mp ha
      rw [map_singleton, mem_singleton] at hb
      rw [hb, hid]
      exact h.fresh hold
    · rw [if_pos rfl]
      obtain hold | hnew := mem_append.mp (hsubperm.subset he)
      · obtain ⟨n, hn, heq⟩ := h.counted e hold
        exact ⟨n, by omega, heq⟩
      · obtain rfl := mem_singleton.mp hnew
        exact ⟨s.counter + 1, le_rfl, hid⟩

theorem State.Numbered.init (files : S → F) : (State.init files : State S W F).Numbered :=
  ⟨nodup_nil, fun _ hentry ↦ absurd hentry not_mem_nil⟩

theorem outcome_changed (s : State S W F) (scope : S) (now : ℤ) (seed : ℕ) (call : Call) :
    Changed scope (sheetId (s.counter + 1)) now call s.handles
      (s.outcome engine filesystems scope now seed call).handles
      (s.outcome engine filesystems scope now seed call).opened :=
  perform_changed

theorem evictStale_append (hroom : handles.length < maxHandles)
    (hlive : ∀ entry ∈ handles, isLive now entry) (htouched : entry.touched = now) :
    evictStale now (handles ++ [entry]) = handles ++ [entry] := by
  apply evictStale_roomy
  · rw [length_append, length_singleton]
    exact hroom
  · intro e he
    obtain he | he := mem_append.mp he
    · exact hlive e he
    · obtain rfl := mem_singleton.mp he
      unfold isLive handleTtlMs
      rw [htouched]
      simp

/-- A call passes its scope's handle and evicts nothing of another scope. -/
structure Keeps (s : State S W F) (scope : S) (now : ℤ) (call : Call) : Prop where
  owned : ∀ h, call.looksUp = some h → Owned scope s.handles (handleId h)
  closes : ∀ h, call = .close h → ∀ entry, entryAt s.handles (handleId h) = some entry →
    entry.scope = scope
  spares : ∀ path, call = .open path → ∀ entry : Entry S W, entry.touched = now →
    ∀ old ∈ s.handles, old.scope ≠ scope → old ∈ evictStale now (s.handles ++ [entry])

def State.Kept (s : State S W F) : Event S F → Prop
  | .call scope now _ call => Keeps s scope now call
  | .external _ _ => True

/-- Nothing has expired and there is room for one more workbook where one is opened. -/
def State.Roomy (s : State S W F) : Event S F → Prop
  | .call _ now _ (.open _) =>
    s.handles.length < maxHandles ∧ ∀ entry ∈ s.handles, isLive now entry = true
  | _ => True

/-- The workbooks of other scopes are untouched. -/
theorem filter_changed {handles : Table S W} (hs : s.Numbered) (hkeeps : Keeps s scope now call)
    (hchanged : Changed scope id now call s.handles handles opened) (hroomy : opened →
      s.handles.length < maxHandles ∧ ∀ entry ∈ s.handles, isLive now entry)
    {p : S → Bool} (hp : p scope = false) :
    (handles.filter fun entry ↦ p entry.scope) = s.handles.filter fun entry ↦ p entry.scope := by
  have hne : ∀ entry : Entry S W, entry.scope = scope → ∀ e : Entry S W, p e.scope →
      e ≠ entry := by
    rintro entry hscope e he rfl
    rw [hscope, hp] at he
    cases he
  cases hchanged with
  | same => rfl
  | updated h entry f hcall hentry hf =>
    have hscope : entry.scope = scope := by
      obtain ⟨found, hfound, hscope⟩ | ⟨hnone, -⟩ := hkeeps.owned h hcall
      · rw [hentry] at hfound
        cases hfound
        exact hscope
      · rw [hentry] at hnone
        cases hnone
    have hmem := (entryAt_eq_some hentry).1
    unfold update
    rw [List.filter_map]
    have hfilter : s.handles.filter ((fun entry ↦ p entry.scope) ∘
        fun e ↦ if e.id = entry.id then f e else e) =
          s.handles.filter fun entry ↦ p entry.scope := by
      apply filter_congr
      intro e _
      rw [comp_apply]
      split
      · rw [(hf e).2]
      · rfl
    rw [hfilter]
    conv_rhs => rw [← map_id (s.handles.filter fun entry ↦ p entry.scope)]
    apply map_congr_left
    intro e he
    obtain ⟨he, hpe⟩ := mem_filter.mp he
    exact if_neg fun hid ↦ hne entry hscope e hpe (eq_of_id hs.nodup he hmem hid)
  | closed h hcall =>
    unfold dissoc
    split
    · rename_i closedId hclosed
      rw [List.filter_filter]
      apply filter_congr
      intro e he
      by_cases hpe : p e.scope
      · have hid : e.id ≠ closedId := by
          rintro rfl
          obtain ⟨found, hfound⟩ := entryAt_isSome he
          have hscope := hkeeps.closes h hcall found (hclosed ▸ hfound)
          obtain ⟨hfoundMem, hfoundId⟩ := entryAt_eq_some hfound
          exact hne found hscope e hpe
            (eq_of_id hs.nodup he hfoundMem (Arg.string.inj hfoundId))
        simp [hpe, hid]
      · simp [hpe]
    · rfl
  | opened path entry hcall hid hscope htouched =>
    obtain ⟨hroom, hlive⟩ := hroomy rfl
    rw [evictStale_append hroom hlive htouched, filter_append]
    have hnone : [entry].filter (fun entry ↦ p entry.scope) = [] := by
      simp [hscope, hp]
    rw [hnone, append_nil]

theorem State.Roomy.table {flag : Bool} {table : Table S W}
    (hroomy : s.Roomy (.call scope now seed call : Event S F))
    (hchanged : Changed scope id now call s.handles table flag) (hflag : flag) :
    s.handles.length < maxHandles ∧ ∀ entry ∈ s.handles, isLive now entry := by
  cases hchanged with
  | opened path opened hcall hid hopened htouched =>
    subst hcall
    exact hroomy
  | _ => cases hflag

theorem mem_changed {table : Table S W} (hs : s.Numbered) (hkeeps : Keeps s scope now call)
    (hchanged : Changed scope id now call s.handles table opened) (hscope : entry.scope ≠ scope) :
    entry ∈ table ↔ entry ∈ s.handles := by
  classical
  cases hopened : opened with
  | true =>
    subst hopened
    cases hchanged with
    | opened path opened hcall hid hopened htouched =>
      constructor
      · intro hmem
        obtain hold | hnew := mem_append.mp ((evictStale_subperm now _).subset hmem)
        · exact hold
        · obtain rfl := mem_singleton.mp hnew
          exact absurd hopened hscope
      · exact fun hmem ↦ hkeeps.spares path hcall opened htouched entry hmem hscope
  | false =>
    have hp : decide (scope ≠ scope) = false := by simp
    have hfilter := filter_changed (p := fun other ↦ decide (other ≠ scope)) hs hkeeps hchanged
      (fun htrue ↦ by rw [hopened] at htrue; cases htrue) hp
    have hmem : ∀ table : Table S W, entry ∈ table ↔
        entry ∈ table.filter fun entry ↦ decide (entry.scope ≠ scope) := by
      intro table
      rw [mem_filter, decide_eq_true_eq]
      exact (and_iff_left hscope).symm
    rw [hmem, hfilter, ← hmem]

theorem doOpen_reply {fs : Fs F} {files : F} {path : Arg} (handles handles' : Table S W) :
    (doOpen engine fs scope id now seed handles files path).reply =
      (doOpen engine fs scope id now seed handles' files path).reply ∧
    (doOpen engine fs scope id now seed handles files path).files =
      (doOpen engine fs scope id now seed handles' files path).files := by
  unfold doOpen
  split
  · exact ⟨rfl, rfl⟩
  · exact ⟨rfl, rfl⟩

section

variable [DecidableEq S]

theorem State.Numbered.step (h : s.Numbered) (event : Event S F) :
    (step engine filesystems s event).Numbered := by
  cases event with
  | external other files => exact ⟨h.nodup, h.counted⟩
  | call scope now seed call =>
    obtain ⟨hnodup, hcounted⟩ := h.changed (outcome_changed s scope now seed call)
    exact ⟨hnodup, hcounted⟩

def State.only (scope : S) (s : State S W F) : State S W F :=
  { s with handles := Sheets.only scope s.handles }

/-- A call leaves the workbooks and files of other scopes alone, and does the same without them. -/
structure Isolated (engine : Engine W A) (filesystems : S → Fs F) (s : State S W F) (scope : S)
    (now : ℤ) (seed : ℕ) (call : Call) : Prop where
  kept : ∀ entry, entry.scope ≠ scope →
    (entry ∈ (step engine filesystems s (.call scope now seed call)).handles ↔ entry ∈ s.handles)
  files : ∀ other ≠ scope,
    (step engine filesystems s (.call scope now seed call)).files other = s.files other
  reply : reply engine filesystems s (.call scope now seed call) =
    reply engine filesystems (s.only scope) (.call scope now seed call)
  written : (step engine filesystems s (.call scope now seed call)).files scope =
    (step engine filesystems (s.only scope) (.call scope now seed call)).files scope

/-- With room for one more workbook, opening one does not depend on the others. -/
theorem doOpen_only {fs : Fs F} {files : F} {path : Arg} (hroom : handles.length < maxHandles)
    (hlive : ∀ entry ∈ handles, isLive now entry) :
    doOpen engine fs scope id now seed (only scope handles) files path =
      (doOpen engine fs scope id now seed handles files path).only scope := by
  unfold doOpen
  split
  · rfl
  · have honly : (only scope handles).length < maxHandles := (length_filter_le _ _).trans_lt hroom
    have hliveOnly : ∀ entry ∈ only scope handles, isLive now entry :=
      fun entry hentry ↦ hlive entry (mem_filter.mp hentry).1
    have happend : ∀ entry : Entry S W, entry.scope = scope →
        only scope (handles ++ [entry]) = only scope handles ++ [entry] := by
      intro entry hscope
      unfold only
      simp [hscope]
    unfold Outcome.only
    simp only
    rw [evictStale_append hroom hlive rfl, evictStale_append honly hliveOnly rfl, happend _ rfl]

theorem local_outcome (howned : ∀ h, call.looksUp = some h → Owned scope s.handles (handleId h))
    (hopen : ∀ path, call ≠ .open path) :
    perform engine (filesystems scope) scope (sheetId (s.counter + 1)) now seed
      (only scope s.handles) (s.files scope) call =
        (s.outcome engine filesystems scope now seed call).only scope :=
  perform_only howned hopen

/-- What a call returns and writes is the same without the workbooks of other scopes. -/
theorem outcome_only (engine : Engine W A) (filesystems : S → Fs F) (now : ℤ) (seed : ℕ)
    (howned : ∀ h, call.looksUp = some h → Owned scope s.handles (handleId h)) :
    ((s.only scope).outcome engine filesystems scope now seed call).reply =
      (s.outcome engine filesystems scope now seed call).reply ∧
    ((s.only scope).outcome engine filesystems scope now seed call).files =
      (s.outcome engine filesystems scope now seed call).files := by
  by_cases hopen : ∃ path, call = .open path
  · obtain ⟨path, rfl⟩ := hopen
    exact doOpen_reply _ _
  · have hlocal : (s.only scope).outcome engine filesystems scope now seed call = _ :=
      local_outcome howned fun path hpath ↦ hopen ⟨path, hpath⟩
    rw [hlocal]
    exact ⟨rfl, rfl⟩

theorem Keeps.isolated (hs : s.Numbered) (hkeeps : Keeps s scope now call) :
    Isolated engine filesystems s scope now seed call := by
  obtain ⟨hreply, hfiles⟩ := outcome_only engine filesystems now seed hkeeps.owned
  refine ⟨fun entry hscope ↦ ?_, fun other hother ↦ update_of_ne hother _ _,
    congrArg some hreply.symm, ?_⟩
  · exact mem_changed hs hkeeps (outcome_changed ..) hscope
  · have hupdate : ∀ s : State S W F,
        (step engine filesystems s (.call scope now seed call)).files scope =
          (s.outcome engine filesystems scope now seed call).files := by
      intro s
      exact update_self ..
    rw [hupdate, hupdate, hfiles]

def Event.owner : Event S F → S
  | .call scope _ _ _ => scope
  | .external scope _ => scope

def Event.rename (name : String → String) : Event S F → Event S F
  | .call scope now seed call => .call scope now seed (call.rename name)
  | .external scope files => .external scope files

/-- What the events of a scope return in a run. -/
def replies (engine : Engine W A) (filesystems : S → Fs F) (scope : S) :
    State S W F → List (Event S F) → List (Option Reply)
  | _, [] => []
  | s, event :: events =>
    (if event.owner = scope then [reply engine filesystems s event] else []) ++
      replies engine filesystems scope (step engine filesystems s event) events

/-- The id that an event of a scope opens a workbook under, if it does. -/
def openedId (engine : Engine W A) (filesystems : S → Fs F) (scope : S) (s : State S W F) :
    Event S F → List String
  | .call other now seed call =>
    if other = scope ∧ (s.outcome engine filesystems other now seed call).opened then
      [sheetId (s.counter + 1)]
    else []
  | .external _ _ => []

def openedIds (engine : Engine W A) (filesystems : S → Fs F) (scope : S) :
    State S W F → List (Event S F) → List String
  | _, [] => []
  | s, event :: events => openedId engine filesystems scope s event ++
      openedIds engine filesystems scope (step engine filesystems s event) events

/-- The `n`th workbook of a scope is called the `n`th, and nothing else is. -/
def naming (ids : List String) (id : String) : String :=
  if id ∈ ids then sheetId (ids.idxOf id + 1) else "other-" ++ id

theorem naming_injective (ids : List String) : Function.Injective (naming ids) := by
  have hne : ∀ n id, sheetId n ≠ "other-" ++ id := by
    intro n id h
    have hlist := congrArg (fun s : String ↦ s.toList[0]?) h
    unfold sheetId at hlist
    simp only [String.toList_append] at hlist
    rw [getElem?_append_left (by decide), getElem?_append_left (by decide)] at hlist
    revert hlist
    decide
  intro a b h
  unfold naming at h
  split at h
  · rename_i ha
    split at h
    · have hidx := succ_injective (sheetId_injective h)
      exact (idxOf_inj ha).mp hidx
    · exact absurd h (hne _ _)
  · split at h
    · exact absurd h.symm (hne _ _)
    · have hlist := congrArg String.toList h
      rw [String.toList_append, String.toList_append, append_cancel_left_eq] at hlist
      exact String.toList_inj.mp hlist

theorem naming_append {done later : List String} (hnodup : (done ++ id :: later).Nodup) :
    naming (done ++ id :: later) id = sheetId (done.length + 1) := by
  have hnot : id ∉ done := by
    intro hmem
    exact (nodup_append.mp hnodup).2.2 id hmem id (mem_cons_self ..) rfl
  unfold naming
  rw [if_pos (mem_append_right _ (mem_cons_self ..)), idxOf_append_of_notMem hnot,
    idxOf_cons_self, add_zero]

theorem counter_step (engine : Engine W A) (filesystems : S → Fs F) (scope : S) (s : State S W F)
    (event : Event S F) : s.counter ≤ (step engine filesystems s event).counter ∧
      ∀ id ∈ openedId engine filesystems scope s event,
        id = sheetId (s.counter + 1) ∧ (step engine filesystems s event).counter = s.counter + 1 := by
  cases event with
  | external other files => exact ⟨le_rfl, fun id hid ↦ absurd hid not_mem_nil⟩
  | call other now seed call =>
    refine ⟨?_, fun id hid ↦ ?_⟩
    · unfold step
      simp only
      split
      · exact le_succ _
      · exact le_rfl
    · change id ∈ if _ then _ else _ at hid
      split at hid
      · rename_i hopened
        exact ⟨mem_singleton.mp hid, if_pos hopened.2⟩
      · cases hid

theorem openedId_eq {event : Event S F} (hid : id ∈ openedId engine filesystems scope s event) :
    openedId engine filesystems scope s event = [id] := by
  cases event with
  | external other files => exact absurd hid not_mem_nil
  | call other now seed call =>
    change id ∈ if _ then _ else _ at hid
    change (if _ then _ else _) = _
    split at hid
    · rename_i hopened
      rw [if_pos hopened, mem_singleton.mp hid]
    · cases hid

/-- The ids of a run are counted from where it starts, each once. -/
theorem openedIds_nodup (engine : Engine W A) (filesystems : S → Fs F) (scope : S)
    (s : State S W F) (events : List (Event S F)) :
    (openedIds engine filesystems scope s events).Nodup ∧
      ∀ id ∈ openedIds engine filesystems scope s events, ∃ n, s.counter < n ∧ id = sheetId n := by
  induction events generalizing s with
  | nil => exact ⟨nodup_nil, fun id hid ↦ absurd hid not_mem_nil⟩
  | cons event events ih =>
    obtain ⟨hnodup, hlater⟩ := ih (step engine filesystems s event)
    obtain ⟨hle, hopened⟩ := counter_step engine filesystems scope s event
    have hone : (openedId engine filesystems scope s event).Nodup := by
      unfold openedId
      split
      · split
        · exact nodup_singleton _
        · exact nodup_nil
      · exact nodup_nil
    refine ⟨nodup_append.mpr ⟨hone, hnodup, ?_⟩, fun id hid ↦ ?_⟩
    · rintro a ha b hb rfl
      obtain ⟨ha, hcounter⟩ := hopened a ha
      obtain ⟨n, hn, hb⟩ := hlater a hb
      have heq := sheetId_injective (ha.symm.trans hb)
      omega
    · obtain hid | hid := mem_append.mp hid
      · exact ⟨s.counter + 1, by omega, (hopened id hid).1⟩
      · obtain ⟨n, hn, hid⟩ := hlater id hid
        exact ⟨n, by omega, hid⟩

/-- The process that a scope has for itself, with other names for its workbooks. -/
structure Simulates (name : String → String) (scope : S) (done : ℕ) (s t : State S W F) : Prop where
  numbered : s.Numbered
  handles : t.handles = renameAll name (only scope s.handles)
  counter : t.counter = done
  files : t.files scope = s.files scope

variable {name : String → String} {done : ℕ}

/-- In a process of its own, a call of the scope comes to the same. -/
theorem Simulates.outcome (hsim : Simulates name scope done s t) (hname : Function.Injective name)
    (hkeeps : Keeps s scope now call) (hroomy : s.Roomy (.call scope now seed call : Event S F))
    (hnext : (s.outcome engine filesystems scope now seed call).opened →
      name (sheetId (s.counter + 1)) = sheetId (done + 1)) :
    t.outcome engine filesystems scope now seed (call.rename name) =
      ((s.outcome engine filesystems scope now seed call).only scope).rename name := by
  have hlocal : perform engine (filesystems scope) scope (sheetId (s.counter + 1)) now seed
      (only scope s.handles) (s.files scope) call =
        (s.outcome engine filesystems scope now seed call).only scope := by
    by_cases hopen : ∃ path, call = .open path
    · obtain ⟨path, rfl⟩ := hopen
      exact doOpen_only hroomy.1 hroomy.2
    · exact local_outcome hkeeps.owned fun path hpath ↦ hopen ⟨path, hpath⟩
  rw [← hlocal, ← perform_rename hname]
  change perform engine (filesystems scope) scope (sheetId (t.counter + 1)) now seed t.handles
    (t.files scope) (call.rename name) = _
  rw [hsim.handles, hsim.counter, hsim.files]
  by_cases hopened : (s.outcome engine filesystems scope now seed call).opened
  · rw [hnext hopened]
  · apply perform_id
    rw [perform_rename hname, hlocal]
    exact Bool.not_eq_true _ ▸ hopened

theorem Simulates.step (hsim : Simulates name scope done s t) (hname : Function.Injective name)
    {event : Event S F} (hkept : s.Kept event) (hroomy : s.Roomy event)
    (hnext : ∀ id ∈ openedId engine filesystems scope s event, name id = sheetId (done + 1)) :
    Simulates name scope (done + (openedId engine filesystems scope s event).length)
      (step engine filesystems s event)
      (if event.owner = scope then step engine filesystems t (event.rename name) else t) ∧
    (event.owner = scope → reply engine filesystems t (event.rename name) =
      (reply engine filesystems s event).map (Reply.rename name)) := by
  cases event with
  | external other files =>
    refine ⟨?_, fun _ ↦ rfl⟩
    split
    · rename_i howner
      obtain rfl : other = scope := howner
      refine ⟨hsim.numbered.step _, hsim.handles, hsim.counter, ?_⟩
      change Function.update t.files other files other = Function.update s.files other files other
      rw [update_self, update_self]
    · rename_i howner
      refine ⟨hsim.numbered.step _, hsim.handles, hsim.counter, ?_⟩
      rw [hsim.files]
      exact (update_of_ne (Ne.symm howner) _ _).symm
  | call other now seed call =>
    by_cases howner : other = scope
    · subst howner
      have hopen : (s.outcome engine filesystems other now seed call).opened →
          name (sheetId (s.counter + 1)) = sheetId (done + 1) := by
        intro hopened
        apply hnext
        change _ ∈ if _ then _ else _
        rw [if_pos ⟨rfl, hopened⟩]
        exact mem_singleton_self _
      have houtcome := hsim.outcome hname hkept hroomy hopen
      refine ⟨?_, fun _ ↦ congrArg (fun outcome : Outcome S W F ↦ some outcome.reply) houtcome⟩
      have howner : (Event.call other now seed call : Event S F).owner = other := rfl
      rw [if_pos howner]
      refine ⟨hsim.numbered.step _, congrArg Outcome.handles houtcome, ?_, ?_⟩
      · change (if (t.outcome engine filesystems other now seed (call.rename name)).opened then
          t.counter + 1 else t.counter) = _
        rw [houtcome, hsim.counter]
        change (if (s.outcome engine filesystems other now seed call).opened then done + 1 else done) =
          done + length (if _ then _ else _)
        by_cases hopened : (s.outcome engine filesystems other now seed call).opened
        · rw [if_pos hopened, if_pos ⟨rfl, hopened⟩]
          rfl
        · rw [if_neg hopened, if_neg fun h ↦ hopened h.2]
          rfl
      · change Function.update t.files other _ other = Function.update s.files other _ other
        rw [update_self, update_self]
        rw [houtcome]
        rfl
    · have hnone : openedId engine filesystems scope s (.call other now seed call) = [] :=
        if_neg fun h ↦ howner h.1
      have hne : (Event.call other now seed call : Event S F).owner ≠ scope := howner
      rw [if_neg hne, hnone]
      refine ⟨⟨hsim.numbered.step _, ?_, hsim.counter, ?_⟩, fun h ↦ absurd h howner⟩
      · rw [hsim.handles]
        have hchanged : Changed other (sheetId (s.counter + 1)) now call s.handles
          (s.outcome engine filesystems other now seed call).handles _ := outcome_changed ..
        have hother : decide (other = scope) = false := decide_eq_false howner
        have hfilter := filter_changed hsim.numbered hkept hchanged
          (fun hopened ↦ hroomy.table hchanged hopened) (p := fun other ↦ decide (other = scope))
          hother
        exact congrArg (renameAll name) hfilter.symm
      · rw [hsim.files]
        exact (update_of_ne (Ne.symm howner) _ _).symm

/-- Alone, a scope is answered the same, up to the names of its workbooks. -/
theorem Simulates.replies (hname : Function.Injective name) {events : List (Event S F)}
    (hsim : Simulates name scope done s t)
    (hkept : Along (Sheets.step engine filesystems) State.Kept s events)
    (hroomy : Along (Sheets.step engine filesystems) State.Roomy s events)
    (hnames : ∀ before id later, openedIds engine filesystems scope s events = before ++ id :: later →
      name id = sheetId (done + before.length + 1)) : replies engine filesystems scope t
        ((events.filter fun event ↦ event.owner = scope).map (Event.rename name)) =
      (replies engine filesystems scope s events).map (Option.map (Reply.rename name)) := by
  induction events generalizing s t done with
  | nil => rfl
  | cons event events ih =>
    obtain ⟨hkeptNow, hkeptLater⟩ := hkept
    obtain ⟨hroomyNow, hroomyLater⟩ := hroomy
    have hids : openedIds engine filesystems scope s (event :: events) =
        openedId engine filesystems scope s event ++
          openedIds engine filesystems scope (Sheets.step engine filesystems s event) events := rfl
    have hnext : ∀ id ∈ openedId engine filesystems scope s event,
        name id = sheetId (done + 1) := by
      intro id hid
      have hone := openedId_eq hid
      rw [hone] at hids
      exact hnames [] id _ hids
    obtain ⟨hsimNext, hreply⟩ := hsim.step hname hkeptNow hroomyNow hnext
    have hnamesLater : ∀ before id later,
        openedIds engine filesystems scope (Sheets.step engine filesystems s event) events =
          before ++ id :: later →
        name id = sheetId (done + (openedId engine filesystems scope s event).length +
          before.length + 1) := by
      intro before id later hlater
      rw [hlater, ← append_assoc] at hids
      rw [hnames _ id later hids, length_append, ← add_assoc done]
    have hlater := ih hsimNext hkeptLater hroomyLater hnamesLater
    by_cases howner : event.owner = scope
    · have hfilter : (event :: events).filter (fun event ↦ event.owner = scope) =
          event :: events.filter fun event ↦ event.owner = scope :=
        filter_cons_of_pos (by simpa using howner)
      have hrenamed : (event.rename name).owner = scope := by
        cases event <;> exact howner
      rw [if_pos howner] at hlater
      rw [hfilter, map_cons, replies, replies, if_pos hrenamed, if_pos howner,
        hreply howner, hlater, map_append]
      rfl
    · have hfilter : (event :: events).filter (fun event ↦ event.owner = scope) =
          events.filter fun event ↦ event.owner = scope :=
        filter_cons_of_neg (by simpa using howner)
      rw [if_neg howner] at hlater
      rw [hfilter, hlater, replies, if_neg howner, nil_append]

/-- As long as every call keeps to its scope, no call sees or changes what belongs to another; while
there is room, a scope is answered as in a process of its own, up to the names of handles. -/
theorem scopes_isolated (engine : Engine W A) (filesystems : S → Fs F) (files : S → F)
    (events : List (Event S F))
    (hkept : Along (Sheets.step engine filesystems) State.Kept (.init files) events) :
    (∀ before scope now seed call after,
      events = before ++ .call scope now seed call :: after →
        Isolated engine filesystems (run (Sheets.step engine filesystems) (.init files) before)
          scope now seed call) ∧
    (Along (Sheets.step engine filesystems) State.Roomy (.init files) events →
      ∀ scope, ∃ name : String → String, Function.Injective name ∧
        ∀ files' : S → F, files' scope = files scope →
          Sheets.replies engine filesystems scope (.init files')
              ((events.filter fun event ↦ event.owner = scope).map (Event.rename name)) =
            (Sheets.replies engine filesystems scope (.init files) events).map
              (Option.map (Reply.rename name))) := by
  constructor
  · intro before scope now seed call after hevents
    have hnumbered : (run (Sheets.step engine filesystems) (.init files) before).Numbered :=
      run_preserves State.Numbered (fun s event hs ↦ hs.step event) (State.Numbered.init files) before
    have hkeeps := (along_iff _ _ _ _).mp hkept before _ after hevents
    exact Keeps.isolated hnumbered hkeeps
  · intro hroomy scope
    obtain ⟨hnodup, -⟩ := openedIds_nodup engine filesystems scope (.init files) events
    refine ⟨naming (openedIds engine filesystems scope (.init files) events), naming_injective _, ?_⟩
    intro files' hfiles
    have hsim : Simulates (naming (openedIds engine filesystems scope (.init files) events)) scope 0
        (.init files : State S W F) (.init files') :=
      ⟨State.Numbered.init files, rfl, rfl, hfiles⟩
    apply hsim.replies (naming_injective _) hkept hroomy
    intro before id later hids
    rw [hids] at hnodup ⊢
    rw [naming_append hnodup, zero_add]

end

end Simmis.Sheets
