import Simmis.Sheets.Handles

/-!
# The table of open workbooks

What one call does to the table, which part of it a call depends on, and that no call depends on how
workbooks are named.
-/

namespace Simmis.Sheets

open List Option Outcome Function

variable {W A S F : Type}

variable {entry : Entry S W} {handles : Table S W}

theorem entryAt_eq_some {id : Arg}
    (h : entryAt handles id = some entry) : entry ∈ handles ∧ id = .string entry.id := by
  unfold entryAt at h
  split at h
  · have hid := find?_some h
    rw [decide_eq_true_eq] at hid
    exact ⟨mem_of_find?_eq_some h, congrArg Arg.string hid.symm⟩
  · cases h

theorem entryAt_isSome (h : entry ∈ handles) :
    ∃ found, entryAt handles (.string entry.id) = some found := by
  apply isSome_iff_exists.mp
  unfold entryAt
  rw [find?_isSome]
  exact ⟨entry, h, decide_eq_true rfl⟩

/-- An id names one workbook. -/
theorem eq_of_id (hnodup : (handles.map Entry.id).Nodup)
    {a b : Entry S W} (ha : a ∈ handles) (hb : b ∈ handles) (hid : a.id = b.id) : a = b :=
  inj_on_of_nodup_map hnodup ha hb hid

theorem evictStale_subperm (now : ℤ) (handles : Table S W) :
    (evictStale now handles).Subperm handles := by
  unfold evictStale
  simp only
  split
  · exact filter_sublist.subperm
  · have hdropped := (drop_sublist ((handles.filter (isLive now)).length - maxHandles)
      ((handles.filter (isLive now)).insertionSort fun a b ↦ a.touched ≤ b.touched)).subperm
    have hsorted := (perm_insertionSort (fun a b : Entry S W ↦ a.touched ≤ b.touched)
      (handles.filter (isLive now))).subperm
    exact (hdropped.trans hsorted).trans filter_sublist.subperm

/-- Nothing is evicted while there is room and nothing has expired. -/
theorem evictStale_roomy {now : ℤ} (hroom : handles.length ≤ maxHandles)
    (hlive : ∀ entry ∈ handles, isLive now entry) : evictStale now handles = handles := by
  have hall : handles.filter (isLive now) = handles := filter_eq_self.mpr hlive
  unfold evictStale
  simp only [hall]
  rw [if_pos hroom]

variable {f : Entry S W → Entry S W}

theorem update_update {id : String} {g : Entry S W → Entry S W}
    (hf : ∀ entry, (f entry).id = entry.id) :
    update (update handles id f) id g = update handles id (g ∘ f) := by
  unfold update
  rw [List.map_map]
  apply map_congr_left
  intro entry _
  by_cases hid : entry.id = id
  · simp [hid, hf]
  · simp [hid]

theorem ids_update {id : String} (hf : ∀ entry, (f entry).id = entry.id) :
    (update handles id f).map Entry.id = handles.map Entry.id := by
  unfold update
  rw [List.map_map]
  apply map_congr_left
  intro entry _
  rw [comp_apply]
  split
  · exact hf entry
  · rfl

/-- The handle that a call looks up. -/
def Call.looksUp : Call → Option Arg
  | .open _ => none
  | .sheets h => some h
  | .get h _ => some h
  | .range h _ => some h
  | .deps h _ => some h
  | .dependents h _ => some h
  | .formulas h _ => some h
  | .explain h _ => some h
  | .set h _ _ => some h
  | .setMany h (.map _) => some h
  | .setMany _ _ => none
  | .recalc h => some h
  | .saveAs h _ => some h
  | .close _ => none

inductive Changed (scope : S) (id : String) (now : ℤ) (call : Call) (handles : Table S W) :
    Table S W → Bool → Prop
  | same : Changed scope id now call handles handles false
  | updated (h : Arg) (entry : Entry S W) (f : Entry S W → Entry S W)
      (hcall : call.looksUp = some h) (hentry : entryAt handles (handleId h) = some entry)
      (hf : ∀ e, (f e).id = e.id ∧ (f e).scope = e.scope) :
      Changed scope id now call handles (update handles entry.id f) false
  | closed (h : Arg) (hcall : call = .close h) :
      Changed scope id now call handles (dissoc handles (handleId h)) false
  | opened (path : Arg) (entry : Entry S W) (hcall : call = .open path) (hid : entry.id = id)
      (hscope : entry.scope = scope) (htouched : entry.touched = now) :
      Changed scope id now call handles (evictStale now (handles ++ [entry])) true

variable {engine : Engine W A} {fs : Fs F} {scope : S} {id : String} {now : ℤ} {seed : ℕ}
  {handles : Table S W} {files : F} {call : Call}

variable {h : Arg}

variable {question : W → Except Problem Answer} {parse : W → Except Problem (List (ℤ × Scalar))}

section

variable (hcall : call.looksUp = some h)
include hcall

/-- A call that looks up a handle changes that workbook only. -/
theorem withEntry_changed {f : Entry S W → Outcome S W F}
    (hf : ∀ entry, (f entry).opened = false ∧ ((f entry).handles = handles ∨
      ∃ g : Entry S W → Entry S W, (∀ e, (g e).id = e.id ∧ (g e).scope = e.scope) ∧
        (f entry).handles = update handles entry.id g)) :
    Changed scope id now call handles (withEntry handles files h f).handles
      (withEntry handles files h f).opened := by
  unfold withEntry
  split
  · exact .same
  · rename_i entry hentry
    obtain ⟨hopened, hsame | ⟨g, hg, hupdated⟩⟩ := hf entry
    · rw [hopened, hsame]
      exact .same
    · rw [hopened, hupdated]
      exact .updated h entry g hcall hentry hg

theorem ask_changed : Changed scope id now call handles (ask now handles files h question).handles
      (ask now handles files h question).opened :=
  withEntry_changed hcall fun _ ↦ ⟨rfl, .inr ⟨touch now, fun _ ↦ ⟨rfl, rfl⟩, rfl⟩⟩

theorem edit_changed :
    Changed scope id now call handles (edit engine now seed handles files h parse).handles
      (edit engine now seed handles files h parse).opened := by
  apply withEntry_changed hcall
  intro entry
  split
  · exact ⟨rfl, .inr ⟨touch now, fun _ ↦ ⟨rfl, rfl⟩, rfl⟩⟩
  · rename_i after pairs answer _
    exact ⟨rfl, .inr ⟨Entry.edited after pairs ∘ touch now, fun _ ↦ ⟨rfl, rfl⟩,
      update_update fun _ ↦ rfl⟩⟩

end

theorem perform_changed : Changed scope id now call handles
    (perform engine fs scope id now seed handles files call).handles
    (perform engine fs scope id now seed handles files call).opened := by
  cases call with
  | «open» path =>
    change Changed _ _ _ _ _ (doOpen ..).handles (doOpen ..).opened
    unfold doOpen
    split
    · exact .same
    · exact .opened path _ rfl rfl rfl rfl
  | sheets h => exact ask_changed rfl
  | get h ref | range h ref | deps h ref | dependents h ref | explain h ref => exact ask_changed rfl
  | formulas h sheet => exact ask_changed rfl
  | set h ref v => exact edit_changed rfl
  | setMany h m =>
    cases m with
    | map m => exact edit_changed rfl
    | _ => exact .same
  | recalc h =>
    exact withEntry_changed rfl fun _ ↦ ⟨rfl, .inr ⟨Entry.replaced _, fun _ ↦ ⟨rfl, rfl⟩, rfl⟩⟩
  | saveAs h dest => exact withEntry_changed rfl fun _ ↦ ⟨rfl, .inl rfl⟩
  | close h => exact .closed h rfl

section

variable [DecidableEq S]

def only (scope : S) (handles : Table S W) : Table S W :=
  handles.filter fun entry ↦ entry.scope = scope

def Outcome.only (scope : S) (outcome : Outcome S W F) : Outcome S W F :=
  { outcome with handles := Sheets.only scope outcome.handles }

/-- A handle of the scope, or a closed one while no other scope has any open. -/
def Owned (scope : S) (handles : Table S W) (id : Arg) : Prop :=
  (∃ entry, entryAt handles id = some entry ∧ entry.scope = scope) ∨
    entryAt handles id = none ∧ ∀ entry ∈ handles, entry.scope = scope

theorem entryAt_only {id : Arg} (h : Owned scope handles id) :
    entryAt (only scope handles) id = entryAt handles id := by
  obtain ⟨entry, hentry, hscope⟩ | ⟨-, hall⟩ := h
  · obtain ⟨-, rfl⟩ := entryAt_eq_some hentry
    unfold entryAt only at *
    simp only at hentry ⊢
    rw [find?_filter]
    obtain ⟨hid, before, after, rfl, hbefore⟩ := find?_eq_some_iff_append.mp hentry
    refine hentry ▸ find?_eq_some_iff_append.mpr ⟨?_, before, after, rfl, ?_⟩
    · simp [hscope]
    · intro other hother
      have hne := hbefore other hother
      simp [hne]
  · unfold only
    rw [filter_eq_self.mpr fun entry hentry ↦ decide_eq_true (hall entry hentry)]

theorem only_update (scope : S) (handles : Table S W) (id : String) {f : Entry S W → Entry S W}
    (hf : ∀ entry, (f entry).scope = entry.scope) :
    only scope (update handles id f) = update (only scope handles) id f := by
  unfold only update
  rw [List.filter_map]
  congr 1
  apply filter_congr
  intro entry _
  rw [comp_apply]
  split
  · rw [hf]
  · rfl

theorem only_dissoc {id : Arg} : only scope (dissoc handles id) = dissoc (only scope handles) id := by
  cases id with
  | string id => exact filter_comm _ _ _
  | _ => rfl

section

variable {h : Arg} (howned : Owned scope handles (handleId h))
include howned

/-- A call that looks up a handle of its own depends on the workbooks of its scope only. -/
theorem withEntry_only {f g : Entry S W → Outcome S W F}
    (hf : ∀ entry, g entry = (f entry).only scope) :
    withEntry (only scope handles) files h g = (withEntry handles files h f).only scope := by
  unfold withEntry
  rw [entryAt_only howned]
  split
  · rename_i hnone
    obtain ⟨entry, hentry, -⟩ | ⟨-, hall⟩ := howned
    · rw [hnone] at hentry
      cases hentry
    · have hsame : only scope handles = handles :=
        filter_eq_self.mpr fun entry hentry ↦ decide_eq_true (hall entry hentry)
      unfold Outcome.only
      rw [hsame]
  · exact hf _

theorem ask_only : ask now (only scope handles) files h question =
      (ask now handles files h question).only scope := by
  apply withEntry_only howned
  intro entry
  have hupdate := only_update scope handles entry.id (f := touch now) fun _ ↦ rfl
  exact congrArg (mk _ · _ _) hupdate.symm

theorem edit_only : edit engine now seed (only scope handles) files h parse =
      (edit engine now seed handles files h parse).only scope := by
  apply withEntry_only howned
  intro entry
  have htouch : only scope (update handles entry.id (touch now)) =
      update (only scope handles) entry.id (touch now) := only_update _ _ _ fun _ ↦ rfl
  simp only [← htouch]
  split
  · rfl
  · rename_i after pairs answer _
    have hedited : only scope (update (update handles entry.id (touch now)) entry.id
        (Entry.edited after pairs)) = update (only scope (update handles entry.id (touch now)))
          entry.id (Entry.edited after pairs) := only_update _ _ _ fun _ ↦ rfl
    rw [← hedited]
    rfl

end

theorem perform_only (howned : ∀ h, call.looksUp = some h → Owned scope handles (handleId h))
    (hopen : ∀ path, call ≠ .open path) :
    perform engine fs scope id now seed (only scope handles) files call =
      (perform engine fs scope id now seed handles files call).only scope := by
  cases call with
  | «open» path => exact absurd rfl (hopen path)
  | sheets h =>
    unfold perform
    exact ask_only (howned h rfl)
  | get h ref | range h ref | deps h ref | dependents h ref | explain h ref =>
    unfold perform
    exact ask_only (howned h rfl)
  | formulas h sheet =>
    unfold perform
    exact ask_only (howned h rfl)
  | set h ref v => exact edit_only (howned h rfl)
  | setMany h m =>
    cases m with
    | map m => exact edit_only (howned h rfl)
    | _ => rfl
  | recalc h =>
    apply withEntry_only (howned h rfl)
    intro entry
    have hupdate := only_update scope handles entry.id
      (f := Entry.replaced (recalculate engine seed entry.wb).1) fun _ ↦ rfl
    exact congrArg (mk _ · _ _) hupdate.symm
  | saveAs h dest => exact withEntry_only (howned h rfl) fun _ ↦ rfl
  | close h =>
    exact congrArg (mk _ · _ _) only_dissoc.symm

end

def renameId (name : String → String) : Arg → Arg
  | .string id => .string (name id)
  | id => id

def renameHandle (name : String → String) : Arg → Arg
  | .string id => .string (name id)
  | .map entries => .map (entries.map fun entry ↦ (entry.1, renameId name entry.2))
  | h => h

def Entry.rename (name : String → String) (entry : Entry S W) : Entry S W :=
  { entry with id := name entry.id }

def Call.rename (name : String → String) : Call → Call
  | .open path => .open path
  | .sheets h => .sheets (renameHandle name h)
  | .get h ref => .get (renameHandle name h) ref
  | .range h ref => .range (renameHandle name h) ref
  | .deps h ref => .deps (renameHandle name h) ref
  | .dependents h ref => .dependents (renameHandle name h) ref
  | .formulas h sheet => .formulas (renameHandle name h) sheet
  | .explain h ref => .explain (renameHandle name h) ref
  | .set h ref v => .set (renameHandle name h) ref v
  | .setMany h m => .setMany (renameHandle name h) m
  | .recalc h => .recalc (renameHandle name h)
  | .saveAs h dest => .saveAs (renameHandle name h) dest
  | .close h => .close (renameHandle name h)

def Reply.rename (name : String → String) : Reply → Reply
  | .opened handle path summary => .opened (name handle) path summary
  | .answered answer => .answered answer
  | .closed id => .closed (renameId name id)
  | .unknownHandle id ids => .unknownHandle (renameId name id) (ids.image name)
  | .failed problem => .failed problem

def renameAll (name : String → String) (handles : Table S W) : Table S W :=
  handles.map (Entry.rename name)

def Outcome.rename (name : String → String) (outcome : Outcome S W F) : Outcome S W F :=
  { outcome with reply := outcome.reply.rename name, handles := renameAll name outcome.handles }

theorem keyed_rename (name : String → String) (key : String) (entries : List (Arg × Arg)) :
    keyed key (entries.map fun entry ↦ (entry.1, renameId name entry.2)) =
      renameId name (keyed key entries) := by
  unfold keyed
  rw [find?_map]
  have hsame : (fun entry : Arg × Arg ↦ isKey key entry.1) ∘
      (fun entry : Arg × Arg ↦ (entry.1, renameId name entry.2)) =
        fun entry ↦ isKey key entry.1 := rfl
  rw [hsame]
  cases entries.find? fun entry ↦ isKey key entry.1 <;> rfl

theorem handleId_rename (name : String → String) (h : Arg) :
    handleId (renameHandle name h) = renameId name (handleId h) := by
  cases h with
  | map entries =>
    simp only [renameHandle, handleId, keyed_rename]
    cases keyed "handle" entries with
    | boolean b => cases b <;> rfl
    | _ => rfl
  | _ => rfl

variable {name : String → String}

theorem openIds_rename (handles : Table S W) :
    openIds (renameAll name handles) = (openIds handles).image name := by
  ext id
  unfold openIds renameAll
  simp only [List.mem_toFinset, List.mem_map, Finset.mem_image, exists_exists_and_eq_and]
  rfl

theorem evictStale_rename (now : ℤ) (handles : Table S W) :
    evictStale now (renameAll name handles) = renameAll name (evictStale now handles) := by
  have hfilter : (renameAll name handles).filter (isLive now) =
      renameAll name (handles.filter (isLive now)) := by
    unfold renameAll
    rw [List.filter_map]
    rfl
  unfold evictStale
  simp only [hfilter]
  unfold renameAll
  rw [length_map]
  split
  · rfl
  · have hsort := map_insertionSort (fun a b : Entry S W ↦ a.touched ≤ b.touched)
      (fun a b : Entry S W ↦ a.touched ≤ b.touched) (Entry.rename name)
      (handles.filter (isLive now)) fun a _ b _ ↦ Iff.rfl
    rw [← hsort, map_drop]

theorem guarded_rename (name : String → String) (result : Except Problem Answer) :
    (guarded result).rename name = guarded result := by
  cases result <;> rfl

theorem saveEntry_rename {dest : Arg} (name : String → String) :
    (saveEntry engine fs entry files dest).2.rename name =
      (saveEntry engine fs entry files dest).2 := by
  unfold saveEntry
  split
  · rfl
  · split
    · rfl
    · split
      · rfl
      · exact guarded_rename name _

/-- The id of the next workbook matters to a call that opens one only. -/
theorem perform_id {id' : String}
    (hclosed : (perform engine fs scope id now seed handles files call).opened = false) :
    perform engine fs scope id' now seed handles files call =
      perform engine fs scope id now seed handles files call := by
  cases call with
  | «open» path =>
    change doOpen .. = doOpen ..
    change (doOpen ..).opened = false at hclosed
    unfold doOpen at *
    split at hclosed
    · rfl
    · cases hclosed
  | _ => rfl

section

variable (hname : Function.Injective name)
include hname

theorem entryAt_rename (handles : Table S W) (id : Arg) :
    entryAt (renameAll name handles) (renameId name id) =
      (entryAt handles id).map (Entry.rename name) := by
  cases id with
  | string id =>
    change (renameAll name handles).find? _ = (handles.find? _).map _
    unfold renameAll
    rw [find?_map]
    congr 2
    funext entry
    exact decide_eq_decide.mpr hname.eq_iff
  | _ => rfl

theorem update_rename (handles : Table S W) (id : String)
    (hf : ∀ entry, f (entry.rename name) = (f entry).rename name) :
    update (renameAll name handles) (name id) f = renameAll name (update handles id f) := by
  unfold update renameAll
  rw [List.map_map, List.map_map]
  apply map_congr_left
  intro entry _
  have hid : (entry.rename name).id = name id ↔ entry.id = id := hname.eq_iff
  simp only [comp_apply, hid, hf]
  split
  · rfl
  · rfl

theorem dissoc_rename (handles : Table S W) (id : Arg) :
    dissoc (renameAll name handles) (renameId name id) = renameAll name (dissoc handles id) := by
  cases id with
  | string id =>
    change (renameAll name handles).filter _ = renameAll name (handles.filter _)
    unfold renameAll
    rw [List.filter_map]
    congr 2
    funext entry
    exact decide_eq_decide.mpr (not_congr hname.eq_iff)
  | _ => rfl

theorem withEntry_rename {f g : Entry S W → Outcome S W F}
    (hf : ∀ entry, g (entry.rename name) = (f entry).rename name) :
    withEntry (renameAll name handles) files (renameHandle name h) g =
      (withEntry handles files h f).rename name := by
  unfold withEntry
  rw [handleId_rename, entryAt_rename hname]
  cases entryAt handles (handleId h) with
  | none =>
    rw [openIds_rename]
    rfl
  | some entry => exact hf entry

theorem ask_rename : ask now (renameAll name handles) files (renameHandle name h) question =
      (ask now handles files h question).rename name := by
  apply withEntry_rename hname
  intro entry
  unfold rename
  simp only [guarded_rename]
  exact congrArg (mk _ · _ _) (update_rename hname handles entry.id fun _ ↦ rfl)

theorem edit_rename :
    edit engine now seed (renameAll name handles) files (renameHandle name h) parse =
      (edit engine now seed handles files h parse).rename name := by
  apply withEntry_rename hname
  intro entry
  have htouch : update (renameAll name handles) (entry.rename name).id (touch now) =
      renameAll name (update handles entry.id (touch now)) :=
    update_rename hname handles entry.id fun _ ↦ rfl
  have hwb : (entry.rename name).wb = entry.wb := rfl
  simp only [htouch, hwb]
  split
  · rfl
  · exact congrArg (mk _ · _ _) (update_rename hname _ entry.id fun _ ↦ rfl)

/-- A call does not depend on how the workbooks are named. -/
theorem perform_rename :
    perform engine fs scope (name id) now seed (renameAll name handles) files (call.rename name) =
      (perform engine fs scope id now seed handles files call).rename name := by
  cases call with
  | «open» path =>
    change doOpen .. = (doOpen ..).rename name
    unfold doOpen
    split
    · rfl
    · rename_i wb bytes _
      have hcons : renameAll name handles ++ [⟨name id, path, scope, engine.sha256 bytes,
          bytes.length, wb, [], now⟩] = renameAll name (handles ++ [⟨id, path, scope,
            engine.sha256 bytes, bytes.length, wb, [], now⟩]) := by
        unfold renameAll
        rw [map_append]
        rfl
      simp only [hcons, evictStale_rename]
      rfl
  | sheets h =>
    unfold perform
    exact ask_rename hname
  | get h ref | range h ref | deps h ref | dependents h ref | explain h ref =>
    unfold perform
    exact ask_rename hname
  | formulas h sheet =>
    unfold perform
    exact ask_rename hname
  | set h ref v => exact edit_rename hname
  | setMany h m =>
    cases m with
    | map m => exact edit_rename hname
    | _ => rfl
  | recalc h =>
    apply withEntry_rename hname
    intro entry
    exact congrArg (mk _ · _ _) (update_rename hname handles entry.id fun _ ↦ rfl)
  | saveAs h dest =>
    apply withEntry_rename hname
    intro entry
    have hreply : (saveEntry engine fs entry files dest).2.rename name =
        (saveEntry engine fs entry files dest).2 := saveEntry_rename name
    exact congrArg (mk · _ _ _) hreply.symm
  | close h =>
    change mk _ _ _ _ = mk _ _ _ _
    rw [handleId_rename, dissoc_rename hname]
    rfl

end

end Simmis.Sheets
