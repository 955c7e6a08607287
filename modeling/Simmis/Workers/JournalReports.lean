import Simmis.Workers.JournalCalls

/-!
# Reports of unfinished runs

`unresolved` goes through the run directories of a worker while other callers may publish. What it
reports is bracketed by what was missing when it began and what is missing when it ends.
-/

namespace Simmis.Workers.Journal

open List Option Runs World Function Scanning Phase Nat Json

/-- The directory and its ticket are those of the worker's run. -/
def World.claims (checks : Checks) (w : World) (worker u : String) : Bool :=
  (w.directories.get u).any (·.claimed checks worker)

/-- The launch record has the owner of the ticket. -/
def World.owns (checks : Checks) (w : World) (u : String) : Bool :=
  (w.directories.get u).any (·.owns checks (w.records u))

/-- Something that `unresolved` does not accept: a foreign entry or launch, or phases overtaken
since it began. -/
def Unreadable (checks : Checks) (start : World) (worker : String) (order : List String)
    (now : World) : Prop :=
  (∃ u ∈ order, ¬ start.claims checks worker u) ∨ (∃ u ∈ order, ¬ now.owns checks u) ∨
    ∃ u ∈ order, Overtaken (start.records u) (now.records u)

/-- What has been gone through, when `rest` is left. -/
structure Covers (start : World) (order rest : List String) (pending : Pending) (now : World) :
    Prop where
  sub : (pending.map Prod.fst ++ rest).Sublist order
  missing : ∀ u ∈ pending.map Prod.fst, start.records u .acknowledged = none
  listed : ∀ u ∈ order, now.records u .acknowledged = none → u ∈ rest ∨ u ∈ pending.map Prod.fst

/-- What a report says. -/
structure Reports (start : World) (order : List String) (pending : Pending) (now : World) :
    Prop where
  nodup : (pending.map Prod.fst).Nodup
  missing : ∀ u ∈ pending.map Prod.fst, u ∈ order ∧ start.records u .acknowledged = none
  listed : ∀ u ∈ order, now.records u .acknowledged = none → u ∈ pending.map Prod.fst

def ScanOk (checks : Checks) (start : World) (worker : String) (order : List String) (now : World) :
    Scanning → Prop
  | .scanning rest pending => Covers start order rest pending now
  | .inspecting run todo seen rest pending =>
    start.claims checks worker run ∧ Extends seen (now.records run) ∧ todo ≠ [] ∧
      (∀ p, p ∉ todo → Kept (start.records run p) (seen p)) ∧
      Covers start order (run :: rest) pending now
  | .reported pending => Reports start order pending now
  | .raised => checks.canonicalUuid worker → Unreadable checks start worker order now
  | .crashed => True

variable {checks : Checks} {start w now : World} {worker : String} {order : List String}

/-- Records are kept from one world to the other. -/
def Later (w now : World) : Prop :=
  now.directories = w.directories ∧ ∀ u, Extends (w.records u) (now.records u)

theorem step_later (checks : Checks) (w : World) (event : Event) :
    Later w (w.step checks event) := by
  refine ⟨?_, step_extends checks w event⟩
  cases event <;> simp only [step]
  all_goals repeat' split
  all_goals rfl

section

variable (hlater : Later w now)
include hlater

theorem Covers.mono {rest : List String} {pending : Pending}
    (h : Covers start order rest pending w) : Covers start order rest pending now := by
  refine ⟨h.sub, h.missing, fun u hu hnone ↦ h.listed u hu ?_⟩
  cases hold : w.records u .acknowledged with
  | none => rfl
  | some value => exact nomatch hnone.symm.trans (hlater.2 u _ value hold)

theorem owns_mono {u : String} (h : ¬ w.owns checks u) : ¬ now.owns checks u := by
  intro hnow
  refine h ?_
  obtain ⟨directory, hdirectory, howns⟩ := (any_eq_true _ _).mp hnow
  rw [hlater.1] at hdirectory
  refine (any_eq_true _ _).mpr ⟨directory, hdirectory, ?_⟩
  rw [Directory.owns, Option.all_eq_true] at howns ⊢
  exact fun launch hlaunch ↦ howns launch (hlater.2 u _ launch hlaunch)

theorem Unreadable.mono (h : Unreadable checks start worker order w) :
    Unreadable checks start worker order now := by
  rcases h with h | ⟨u, hu, h⟩ | ⟨u, hu, h⟩
  · exact .inl h
  · exact .inr (.inl ⟨u, hu, owns_mono hlater h⟩)
  · exact .inr (.inr ⟨u, hu, h.mono (hlater.2 u)⟩)

theorem ScanOk.mono {progress : Scanning} (h : ScanOk checks start worker order w progress) :
    ScanOk checks start worker order now progress := by
  cases progress with
  | scanning rest pending => exact Covers.mono hlater h
  | inspecting run todo seen rest pending =>
    obtain ⟨hclaims, hseen, htodo, hread, hcovers⟩ := h
    exact ⟨hclaims, hseen.trans (hlater.2 run), htodo, hread, hcovers.mono hlater⟩
  | reported pending =>
    refine ⟨h.nodup, h.missing, fun u hu hnone ↦ h.listed u hu ?_⟩
    cases hold : w.records u .acknowledged with
    | none => rfl
    | some value => exact nomatch hnone.symm.trans (hlater.2 u _ value hold)
  | raised => exact fun hworker ↦ Unreadable.mono hlater (h hworker)
  | crashed => trivial

end

/-- One run is done: it is reported, or its acknowledgement is there. -/
theorem Covers.inspected {run : String} {rest : List String} {pending : Pending} {seen : Records}
    (h : Covers start order (run :: rest) pending w) (hseen : Extends seen (w.records run))
    (hold : Extends (start.records run) seen) :
    Covers start order rest (if seen .acknowledged = none then pending ++ [(run, lastPhase seen)]
      else pending) w := by
  split
  · next hnone =>
    refine ⟨by simpa using h.sub, fun u hu ↦ ?_, fun u hu hmissing ↦ ?_⟩
    · rw [map_append, mem_append] at hu
      rcases hu with hu | hu
      · exact h.missing u hu
      · obtain rfl := mem_singleton.mp hu
        cases hstart : start.records u .acknowledged with
        | none => rfl
        | some value => exact nomatch hnone.symm.trans (hold _ value hstart)
    · rw [map_append, mem_append]
      rcases h.listed u hu hmissing with hu | hu
      · rcases mem_cons.mp hu with rfl | hu
        · exact .inr (.inr mem_cons_self)
        · exact .inl hu
      · exact .inr (.inl hu)
  · next hsome =>
    refine ⟨?_, h.missing, fun u hu hmissing ↦ ?_⟩
    · exact ((sublist_cons_self run rest).append_left _).trans h.sub
    · rcases h.listed u hu hmissing with hu | hu
      · rcases mem_cons.mp hu with rfl | hu
        · refine absurd ?_ hsome
          cases hcase : seen .acknowledged with
          | none => rfl
          | some value => exact nomatch hmissing.symm.trans (hseen _ value hcase)
        · exact .inl hu
      · exact .inr hu

theorem nextScan_ok (hok : WorldOk checks w) (hlater : Later start w) (hnodup : order.Nodup)
    {progress : Scanning} (h : ScanOk checks start worker order w progress) :
    ScanOk checks start worker order w (w.nextScan checks ⟨worker, progress⟩) := by
  have hraised {u : String} (hu : u ∈ order) (hnot : ¬ w.claims checks worker u) :
      Unreadable checks start worker order w := by
    refine .inl ⟨u, hu, ?_⟩
    rw [claims, hlater.1] at hnot
    exact hnot
  cases progress with
  | scanning rest pending =>
    have hcovers : Covers start order rest pending w := h
    cases rest with
    | nil =>
      have hsorted := (perm_insertionSort (fun a b : String × Option Phase ↦ a.1 ≤ b.1)
        pending).map Prod.fst
      refine ⟨?_, fun u hu ↦ ?_, fun u hu hnone ↦ ?_⟩
      · rw [hsorted.nodup_iff]
        exact (hnodup.sublist hcovers.sub).sublist (sublist_append_left _ _)
      · rw [hsorted.mem_iff] at hu
        exact ⟨hcovers.sub.subset (mem_append_left _ hu), hcovers.missing u hu⟩
      · rw [hsorted.mem_iff]
        exact (hcovers.listed u hu hnone).resolve_left not_mem_nil
    | cons run rest =>
      have hrun : run ∈ order := hcovers.sub.subset (mem_append_right _ mem_cons_self)
      simp only [nextScan]
      split
      · next hclaimed =>
        refine ⟨?_, ?_, cons_ne_nil _ _, fun p hp ↦ ?_, hcovers⟩
        · rw [claims, ← hlater.1]
          exact hclaimed
        · rintro _ _ ⟨⟩
        · exact absurd (by cases p <;> simp [Phase.all]) hp
      · next hclaimed => exact fun _ ↦ hraised hrun hclaimed
  | inspecting run todo seen rest pending =>
    obtain ⟨hclaims, hseen, htodo, hread, hcovers⟩ := h
    have hrun : run ∈ order := hcovers.sub.subset (mem_append_right _ mem_cons_self)
    cases todo with
    | nil => exact absurd rfl htodo
    | cons phase todo =>
      have hseen' := extends_read hseen phase
      have hkept : ∀ p, p ∉ todo → Kept (start.records run p)
          (update seen phase (w.records run phase) p) := by
        intro p hp
        rw [update_apply]
        split
        · next heq => exact heq ▸ hlater.2 run p
        · next hne => exact hread p fun hin ↦ (mem_cons.mp hin).elim hne hp
      cases todo with
      | cons later todo => exact ⟨hclaims, hseen', cons_ne_nil _ _, hkept, hcovers⟩
      | nil =>
        have hold : Extends (start.records run)
            (update seen phase (w.records run phase)) := fun p ↦ hkept p not_mem_nil
        simp only [nextScan]
        split
        · exact hcovers.inspected hseen' hold
        · next hrefused =>
          intro _
          rw [Bool.and_eq_true, not_and_or] at hrefused
          rcases hrefused with hchain | howns
          · exact .inr (.inr ⟨run, hrun, overtaken_of_refused (hok.sound run) hold hseen' hchain⟩)
          · refine .inr (.inl ⟨run, hrun, fun hnow ↦ howns ?_⟩)
            obtain ⟨directory, hdirectory, hstored⟩ := (any_eq_true _ _).mp hnow
            refine (any_eq_true _ _).mpr ⟨directory, hdirectory, ?_⟩
            rw [Directory.owns, Option.all_eq_true] at hstored ⊢
            exact fun launch hlaunch ↦ hstored launch (hseen' _ launch hlaunch)
  | reported | raised | crashed => exact h

/-- The steps that a call of `unresolved` takes at most. -/
def Scanning.remaining : Scanning → ℕ
  | scanning rest _ => 5 * rest.length + 1
  | inspecting _ todo _ rest _ => todo.length + 5 * rest.length + 1
  | reported _ | raised | crashed => 0

theorem nextScan_remaining (checks : Checks) (w : World) (worker : String) (progress : Scanning) :
    (w.nextScan checks ⟨worker, progress⟩).remaining ≤ progress.remaining - 1 := by
  cases progress with
  | scanning rest pending =>
    cases rest with
    | nil => simp [nextScan, remaining]
    | cons run rest =>
      simp only [nextScan]
      split
      · simp only [remaining, Phase.all, length_cons, length_nil]
        omega
      · exact zero_le _
  | inspecting run todo seen rest pending =>
    cases todo with
    | nil => exact zero_le _
    | cons phase todo =>
      cases todo with
      | nil =>
        simp only [nextScan]
        split
        · simp only [remaining, length_cons, length_nil]
          omega
        · exact zero_le _
      | cons later todo =>
        simp only [nextScan, remaining, length_cons]
        omega
  | reported | raised | crashed => exact le_refl 0

def Event.isScanStep (i : ℕ) : Event → Bool
  | .stepScan j => j = i
  | _ => false

theorem scan_step {i : ℕ} {progress : Scanning} (h : w.scans[i]? = some ⟨worker, progress⟩)
    (event : Event) : ∃ p, (w.step checks event).scans[i]? = some ⟨worker, p⟩ ∧
      if event.isScanStep i then p = w.nextScan checks ⟨worker, progress⟩
      else p = progress ∨ p = .crashed := by
  obtain ⟨hlt, -⟩ := List.getElem?_eq_some_iff.mp h
  cases event with
  | beginScan worker' order =>
    refine ⟨progress, ?_, .inl rfl⟩
    simp only [step]
    split
    · exact (getElem?_append_left hlt).trans h
    · exact h
  | stepScan j =>
    by_cases hj : j = i
    · subst hj
      refine ⟨w.nextScan checks ⟨worker, progress⟩, ?_, ?_⟩
      · simp only [step, h]
        exact getElem?_set_self hlt
      · simp [Event.isScanStep]
    · refine ⟨progress, ?_, ?_⟩
      · simp only [step]
        split
        · exact (getElem?_set_ne hj).trans h
        · exact h
      · simp [Event.isScanStep, hj]
  | crashScan j =>
    by_cases hj : j = i
    · subst hj
      simp only [step, h]
      split
      · exact ⟨.crashed, getElem?_set_self hlt, .inr rfl⟩
      · exact ⟨progress, h, .inl rfl⟩
    · refine ⟨progress, ?_, .inl rfl⟩
      simp only [step]
      split
      · split
        · exact (getElem?_set_ne hj).trans h
        · exact h
      · exact h
  | begin | step | crash =>
    refine ⟨progress, ?_, .inl rfl⟩
    simp only [step]
    repeat' split
    all_goals exact h

/-- A call of `unresolved` and what it may still do, since it began in `start`. -/
structure TrackedScan (checks : Checks) (start : World) (worker : String) (order : List String)
    (i bound : ℕ) (w : World) : Prop where
  ok : WorldOk checks w
  later : Later start w
  scan : ∃ p, w.scans[i]? = some ⟨worker, p⟩ ∧ p.remaining ≤ bound ∧
    ScanOk checks start worker order w p

theorem Later.trans {a b c : World} (h₁ : Later a b) (h₂ : Later b c) : Later a c :=
  ⟨h₂.1.trans h₁.1, fun u ↦ (h₁.2 u).trans (h₂.2 u)⟩

theorem TrackedScan.step {i bound : ℕ} (hnodup : order.Nodup)
    (h : TrackedScan checks start worker order i bound w) (event : Event) :
    TrackedScan checks start worker order i
      (if event.isScanStep i then bound - 1 else bound) (w.step checks event) := by
  have hlater := step_later checks w event
  obtain ⟨p, hp, hbound, hscan⟩ := h.scan
  obtain ⟨p', hp', hmove⟩ := @scan_step checks _ _ _ _ hp event
  refine ⟨step_ok h.ok event, h.later.trans hlater, p', hp', ?_, ScanOk.mono hlater ?_⟩
  · split at hmove
    · next hstep =>
      rw [if_pos hstep, hmove]
      exact (nextScan_remaining checks w worker p).trans (Nat.sub_le_sub_right hbound 1)
    · next hstep =>
      rw [if_neg hstep]
      rcases hmove with rfl | rfl
      · exact hbound
      · exact zero_le _
  · split at hmove
    · rw [hmove]
      exact nextScan_ok h.ok h.later hnodup hscan
    · rcases hmove with rfl | rfl
      · exact hscan
      · trivial

theorem TrackedScan.run {i bound : ℕ} (hnodup : order.Nodup)
    (h : TrackedScan checks start worker order i bound w) (events : List Event) :
    TrackedScan checks start worker order i (bound - events.countP (Event.isScanStep i))
      (run (World.step checks) w events) := by
  induction events generalizing w bound with
  | nil => exact h
  | cons event events ih =>
    have hnext := ih (h.step hnodup event)
    rw [countP_cons]
    split at hnext
    · next hstep =>
      rw [if_pos hstep, Nat.add_comm, ← Nat.sub_sub]
      exact hnext
    · next hstep =>
      rw [if_neg hstep]
      exact hnext

/-- A call of `unresolved` that began as scan `i` in `start`, now. -/
structure ScanContract (checks : Checks) (start : World) (worker : String) (order : List String)
    (i steps : ℕ) (now : World) : Prop where
  /-- It reports every run whose acknowledgement is missing now, and only such as missed it at the
  start. -/
  reported : ∀ pending, now.scans[i]? = some ⟨worker, .reported pending⟩ →
    Reports start order pending now
  raised : now.scans[i]? = some ⟨worker, .raised⟩ → checks.canonicalUuid worker →
    Unreadable checks start worker order now
  /-- It ends. -/
  ends : 5 * order.length + 1 ≤ steps →
    (∃ pending, now.scans[i]? = some ⟨worker, .reported pending⟩) ∨
      now.scans[i]? = some ⟨worker, .raised⟩ ∨ now.scans[i]? = some ⟨worker, .crashed⟩

theorem beginScan_tracked (hok : WorldOk checks start)
    (horder : order.Perm (start.directories.rows.map Directory.run)) :
    TrackedScan checks start worker order start.scans.length (5 * order.length + 1)
      (start.step checks (.beginScan worker order)) := by
  have hstep : start.step checks (.beginScan worker order) = { start with scans := start.scans ++
      [⟨worker, if checks.canonicalUuid worker then .scanning order [] else .raised⟩] } := by
    simp only [step, if_pos horder]
  refine ⟨step_ok hok _, step_later checks start _,
    if checks.canonicalUuid worker then .scanning order [] else .raised, ?_, ?_, ?_⟩
  · rw [hstep]
    exact getElem?_concat_length
  · split
    · exact le_refl _
    · exact zero_le _
  · split
    · exact ⟨List.Sublist.refl _, fun u hu ↦ absurd hu not_mem_nil, fun u hu _ ↦ .inl hu⟩
    · next hworker => exact fun h ↦ absurd h hworker

theorem scan_contract (hok : WorldOk checks start)
    (horder : order.Perm (start.directories.rows.map Directory.run)) (late : List Event) :
    ScanContract checks start worker order start.scans.length
      (late.countP (Event.isScanStep start.scans.length))
      (run (step checks) start (.beginScan worker order :: late)) := by
  have hnodup : order.Nodup := horder.nodup_iff.mpr start.directories.nodup
  have hbegun : TrackedScan checks start worker order start.scans.length (5 * order.length + 1)
      (start.step checks (.beginScan worker order)) := beginScan_tracked hok horder
  have htracked := hbegun.run hnodup late
  rw [← run_cons (World.step checks) start (.beginScan worker order) late] at htracked
  obtain ⟨p, hp, hbound, hscan⟩ := htracked.scan
  constructor
  · intro pending hpending
    rw [hp] at hpending
    obtain rfl := (Scan.mk.inj (some.inj hpending)).2
    exact hscan
  · intro hraised
    rw [hp] at hraised
    obtain rfl := (Scan.mk.inj (some.inj hraised)).2
    exact hscan
  · intro hsteps
    have hnone : p.remaining = 0 := by omega
    rw [hp]
    cases p with
    | scanning rest | inspecting run todo seen rest => simp [remaining] at hnone
    | reported pending => exact .inl ⟨pending, rfl⟩
    | raised => exact .inr (.inl rfl)
    | crashed => exact .inr (.inr rfl)

/-- The chains of all runs after some calls and crashes, and what each call came to. -/
structure JournalContract (checks : Checks) (directories : Table Directory.run)
    (events : List Event) : Prop where
  sound : ∀ u, Sound checks ((reached checks directories events).records u)
  kept : ∀ early late, events = early ++ late → ∀ u,
    Extends ((reached checks directories early).records u)
      ((reached checks directories events).records u)
  effect : ∀ early event late, events = early ++ event :: late →
    StepEffect (reached checks directories early)
      (World.step checks (reached checks directories early) event)
  call : ∀ early u op late, events = early ++ .begin u op :: late →
    CallContract checks (reached checks directories early) u op
      (reached checks directories early).calls.length
      (late.countP (Event.isStep (reached checks directories early).calls.length))
      (reached checks directories events)
  scan : ∀ early worker order late, events = early ++ .beginScan worker order :: late →
    order.Perm (directories.rows.map Directory.run) →
    ScanContract checks (reached checks directories early) worker order
      (reached checks directories early).scans.length
      (late.countP (Event.isScanStep (reached checks directories early).scans.length))
      (reached checks directories events)

theorem run_later (checks : Checks) (w : World) (events : List Event) :
    Later w (run (step checks) w events) :=
  run_climbs Later (fun _ ↦ True) (fun _ ↦ ⟨rfl, fun _ ↦ .refl _⟩) (fun _ _ _ ↦ Later.trans)
    (fun _ _ _ ↦ trivial) (fun s e _ ↦ step_later checks s e) trivial events

theorem reached_append (directories : Table Directory.run) (early late : List Event) :
    reached checks directories (early ++ late) =
      run (step checks) (reached checks directories early) late :=
  run_append (step checks) _ early late

/-- Modules around the journal that accept everything. -/
def Checks.lax (digest : Json → String) : Checks where
  ticket _ := true
  canonicalUuid _ := true
  canonicalUrl _ := true
  destination _ := true
  unitName _ := true
  unitIdentity _ := true
  inputs _ _ := true
  outputs _ _ _ := true
  profile _ := true
  namespacePolicy := .null
  unitPolicy := .null
  sciPolicy := .null
  encodedBytes _ := some 0
  maxRecordBytes := 0
  digest

namespace Overtaking

def ticket : Json := .obj [("nonce", .str "n"), ("run", .str "r"), ("worker", .str "w")]

def identity : Json := .obj [("unit", .str "u")]

def launching : Op := .prepare ticket (.str "e") (.obj [("config", .null)]) .null none (.str "u")

def admitting : Op := .admission identity

def stopping : Op := .stopped (.obj [("identity", identity), ("observed-monotonic-ns", .int 1),
  ("result", .str "success"), ("state", .str "inactive"), ("version", .int 1)]) .null

def launch : Json := .obj [("version", .int 1), ("phase", .str "launch"), ("previous", .null),
  ("owner", ticket), ("endpoint", .str "e"), ("unit", .str "u"),
  ("frozen", .obj [("config", .null)]), ("namespace-policy", .null), ("unit-policy", .null)]

def admitted (digest : Json → String) : Json := .obj [("version", .int 1),
  ("phase", .str "admitted"), ("previous", .str (digest launch)), ("identity", identity)]

def launched : Records := Function.update (fun _ ↦ none) .launch (some launch)

variable (digest : Json → String)

theorem launching_proposal : launching.proposal (.lax digest) (fun _ ↦ none) = some launch := by
  rfl

theorem launched_sound : Sound (.lax digest) launched := by
  have hnone : (fun _ ↦ none : Records) launching.phase = none := rfl
  exact sound_empty.publish (.refl _) hnone (launching_proposal digest)

theorem admitting_proposal :
    admitting.proposal (.lax digest) launched = some (admitted digest) := by
  have hvalid : validateAdmitted (.lax digest) (admitted digest) launch := by
    simp [validateAdmitted, common, admitted, closed, get?, isInt, digestOf,
      Checks.lax, identity, launch, name]
  have hrecord : admitting.record (.lax digest) launched = some (admitted digest) := rfl
  have hprior : admitting.phase.prior.bind launched = some launch := rfl
  rw [Op.proposal, if_pos (launched_sound digest).chain, hrecord, filter_some, hprior, if_pos]
  rw [Bool.and_eq_true]
  exact ⟨hvalid, rfl⟩

def guarded : Records := Function.update launched .admitted (some (admitted digest))

theorem guarded_sound : Sound (.lax digest) (guarded digest) := by
  have hnone : launched admitting.phase = none := rfl
  exact (launched_sound digest).publish (.refl _) hnone (admitting_proposal digest)

def stopped : Json := .obj ([("version", .int 1), ("phase", .str "stopped"),
  ("previous", .str (digest (admitted digest)))] ++ stopping.values (.lax digest))

theorem stopping_proposal :
    stopping.proposal (.lax digest) (guarded digest) = some (stopped digest) := by
  have hvalid : validateStopped (.lax digest) (stopped digest) launch (admitted digest) := by
    simp [validateStopped, stopped, common, stopping, Op.values, admitted, closed, get?,
      isInt, isStr, digestOf, Checks.lax, identity, name, isResult]
  have hrecord : stopping.record (.lax digest) (guarded digest) = some (stopped digest) := rfl
  rw [Op.proposal, if_pos (guarded_sound digest).chain, hrecord, filter_some, if_pos]
  rw [Bool.and_eq_true]
  exact ⟨hvalid, rfl⟩

/-- One run directory with these records. -/
def directory (records : Records) (calls : List Call) : World where
  directories := ⟨[⟨"r", true, some ticket⟩], by decide⟩
  records := Function.update (fun _ _ ↦ none) "r" records
  calls
  scans := []

variable {digest} {records : Records} {calls : List Call} {op : Op}

theorem run_directory {value : Json} (hadmissible : op.admissible (.lax digest))
    (hproposal : op.proposal (.lax digest) records = some value) (hnone : records op.phase = none) :
    run (step (.lax digest)) (directory records calls)
      (.begin "r" op :: List.replicate 6 (.step calls.length)) =
      directory (update records op.phase (some value)) (calls ++ [⟨"r", op, .returned value⟩]) := by
  have haccepts : Accepts (.lax digest) (directory records calls) "r" op := ⟨hadmissible, rfl⟩
  have halone : op.alone (.lax digest) records =
      (.returned value, update records op.phase (some value)) := by
    simp only [Op.alone, hproposal, hnone]
  have hstored : (directory records calls).records "r" = records := by simp [directory]
  have hrun := run_alone (directory records calls) haccepts
  rw [hstored, halone] at hrun
  refine hrun.trans ?_
  simp only [directory, update_idem]

theorem step_directory {i : ℕ} {progress : Progress} (h : calls[i]? = some ⟨"r", op, progress⟩) :
    (directory records calls).step (.lax digest) (.step i) =
      directory (op.next (.lax digest) records progress).2
        (calls.set i ⟨"r", op, (op.next (.lax digest) records progress).1⟩) := by
  have hstored : (directory records calls).records "r" = records := by simp [directory]
  have hstep := @step_call (.lax digest) (directory records calls) _ _ h
  rw [hstored] at hstep
  refine hstep.trans ?_
  simp only [directory, update_idem]

def first : Call := ⟨"r", launching, .returned launch⟩

/-- The repeated call has read that nothing follows the launch record. -/
def halfway : Call := ⟨"r", launching, .reading [.stopped, .acknowledged]
  (Function.update (Function.update (fun _ ↦ none) .launch (some launch)) .admitted none)⟩

end Overtaking

end Simmis.Workers.Journal
