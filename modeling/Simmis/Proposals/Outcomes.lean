import Simmis.Proposals.Decisions

/-!
# Outcomes of a proposal

What is recorded of a fork is true of its trunk as long as the verbs keep apart on each fork, no
fork is dismissed that a failed landing left merged, and nothing fails between a landing whose
branch is gone and its record.
-/

namespace Simmis.Proposals

open List Option World Kept

variable {σ β : Type}

/-- The forks that the verb may still land and record. -/
def At.accepting : At σ β → List (Fork σ β)
  | .land fork rest | .drop fork rest | .record fork rest => fork :: rest
  | _ => []

/-- The forks that the verb dismisses. -/
def At.dismissing : At σ β → List (Fork σ β)
  | .discard _ forks => forks
  | _ => []

/-- The landed fork that the verb is about to record. -/
def At.recording : At σ β → Option (Fork σ β)
  | .record fork _ => some fork
  | _ => none

theorem accepting_forward (rest : List (Fork σ β)) : (forward rest).accepting = rest := by
  cases rest <;> rfl

variable {fork : Fork σ β} {whole : Bool}

theorem accepting_failed {rest : List (Fork σ β)}
    (h : fork ∈ (failed whole rest).accepting) : fork ∈ rest := by
  unfold failed at h
  split_ifs at h
  · rwa [accepting_forward] at h
  · cases h

theorem not_accepting {at_ : At σ β} (h : fork ∈ at_.dismissing) : fork ∉ at_.accepting := by
  cases at_ with
  | discard => exact not_mem_nil
  | land | drop | record | settle | close | done => cases h

namespace World

section Condition

variable [DecidableEq σ] [DecidableEq β] (w : World σ β)

/-- The contribution is in the trunk, its branch is gone, and the fork is still open. -/
def Unrecorded (fork : Fork σ β) : Prop := w.Merged fork ∧ fork ∉ w.branches ∧ w.status fork = none

instance (fork : Fork σ β) : Decidable (w.Unrecorded fork) :=
  inferInstanceAs (Decidable (_ ∧ _ ∧ _))

/-- No accepting verb has the fork in hand, and no landing has left it merged. -/
def Dismissible (fork : Fork σ β) : Prop :=
  ¬ w.Merged fork ∧ ∀ verb ∈ w.verbs, fork ∉ verb.at_.accepting

instance (fork : Fork σ β) : Decidable (w.Dismissible fork) := inferInstanceAs (Decidable (_ ∧ _))

/-- No dismissing verb has the fork in hand. -/
def Acceptable (fork : Fork σ β) : Prop := ∀ verb ∈ w.verbs, fork ∉ verb.at_.dismissing

instance (fork : Fork σ β) : Decidable (w.Acceptable fork) :=
  inferInstanceAs (Decidable (∀ verb ∈ w.verbs, _))

/-- `land!` returns only where it merged, and `drop-branch!` drops last. -/
def Answers (answer : Answer) : At σ β → Prop
  | .land fork _ => answer = .notRegistered → w.Merged fork
  | .drop fork _ => answer = .threwAfter → fork ∈ w.branches → w.status fork ≠ none
  | _ => True

local instance lawfulFork : LawfulBEq (Fork σ β) := inferInstance

instance (answer : Answer) (at_ : At σ β) : Decidable (w.Answers answer at_) := by
  cases at_ <;> unfold Answers <;> infer_instance

/-- The verb may stop here: it does not lose the record of a landed fork. -/
def Leaves : At σ β → Prop
  | .record fork _ => ¬ w.Unrecorded fork
  | _ => True

instance (at_ : At σ β) : Decidable (w.Leaves at_) := by
  cases at_ <;> unfold Leaves <;> infer_instance

/-- The verb at a position, in what it has in hand -/
def at_ (i : ℕ) : At σ β := (w.verbs[i]?).elim .done Verb.at_

/-- The condition on a step, in the state before it. -/
def Orderly : Event σ β → Prop
  | .acceptProposal .. => ∀ fork ∈ w.openForks, w.Acceptable fork
  | .acceptFork fork .. => w.Acceptable fork
  | .dismissProposal => (∀ fork ∈ w.openForks, w.Dismissible fork) ∧
      ∀ fork ∈ w.forks, w.status fork ≠ some .accepted
  | .dismissFork fork => w.Dismissible fork
  | .call i answer => w.Answers answer (w.at_ i)
  | .commit i ack => ack = .refused → w.Leaves (w.at_ i)
  | .read _ => True
  | .die i => w.Leaves (w.at_ i)

instance (e : Event σ β) : Decidable (w.Orderly e) := by
  cases e <;> unfold Orderly <;> infer_instance

end Condition

/-- No fork is open, and the status is that of the forks. -/
def Settled (w : World σ β) (status : Status) : Prop :=
  (∀ fork ∈ w.forks, w.status fork ≠ none) ∧
    (status = .accepted ↔ ∃ fork ∈ w.forks, w.status fork = some .accepted)

/-- What a verb relies on. -/
def Relies (w : World σ β) (whole : Bool) : At σ β → Prop
  | .drop fork _ | .record fork _ => w.Merged fork
  | .discard todo forks => todo ⊆ forks ∧ (∀ fork ∈ forks, w.Dismissible fork) ∧
      (whole = true → ∀ fork ∈ w.forks, fork ∈ forks ∨ w.status fork = some .dismissed)
  | .close status => w.Settled status
  | .land .. | .settle | .done => True

structure Sound (w : World σ β) : Prop where
  dismissed : ∀ fork, w.status fork = some .dismissed → w.Dismissible fork
  accepted : ∀ fork, w.status fork = some .accepted → w.Merged fork
  verbs : ∀ verb ∈ w.verbs, w.Relies verb.whole verb.at_
  closed : ∀ status, w.proposal = some status → w.Settled status
  recorded : ∀ fork, w.Unrecorded fork → ∃ verb ∈ w.verbs, verb.at_.recording = some fork

theorem relies_forward (w : World σ β) (whole : Bool) (rest : List (Fork σ β)) :
    w.Relies whole (forward rest) := by
  cases rest <;> trivial

theorem relies_failed (w : World σ β) (whole : Bool) (rest : List (Fork σ β)) :
    w.Relies whole (failed whole rest) := by
  unfold failed
  split_ifs
  · exact relies_forward w whole rest
  · trivial

theorem Relies.mono {w w' : World σ β} {at_ : At σ β} (h : w.Relies whole at_)
    (hmerged : ∀ fork, w.Merged fork → w'.Merged fork)
    (hdismissible : ∀ fork ∈ at_.dismissing, w.Dismissible fork → w'.Dismissible fork)
    (hforks : w'.forks = w.forks)
    (hstatus : ∀ fork, w.status fork = some .dismissed → w'.status fork = some .dismissed)
    (hsettled : ∀ status, w.Settled status → w'.Settled status) : w'.Relies whole at_ := by
  cases at_ with
  | discard todo forks =>
    obtain ⟨hsub, hforks', hwhole⟩ := h
    refine ⟨hsub, fun fork hfork ↦ hdismissible fork hfork (hforks' fork hfork), ?_⟩
    rw [hforks]
    exact fun h fork hfork ↦ (hwhole h fork hfork).imp_right (hstatus fork)
  | drop fork | record fork => exact hmerged fork h
  | close status => exact hsettled status h
  | land | settle | done => trivial

theorem Sound.dismissible {w : World σ β} (h : w.Sound) {verb : Verb σ β} (hverb : verb ∈ w.verbs)
    (hfork : fork ∈ verb.at_.dismissing) : w.Dismissible fork := by
  obtain ⟨whole, at_⟩ := verb
  cases at_ with
  | discard todo forks => exact (h.verbs _ hverb).2.1 fork hfork
  | land | drop | record | settle | close | done => cases hfork

variable {status : Status}

theorem Settled.unique {w : World σ β} {status' : Status} (h : w.Settled status)
    (h' : w.Settled status') : status = status' := by
  have hiff := h.2.trans h'.2.symm
  cases status with
  | accepted => exact (hiff.mp rfl).symm
  | dismissed =>
    cases status' with
    | accepted => exact hiff.mpr rfl
    | dismissed => rfl

theorem Sound.filed (forks : List (Fork σ β)) : (filed forks).Sound where
  dismissed fork h := by cases h
  accepted fork h := by cases h
  verbs verb h := by cases h
  closed status h := by cases h
  recorded fork h := by cases h.1

section

variable {w : World σ β}

/-- What a resolution of the forks presumes. -/
def Records (w : World σ β) (forks : List (Fork σ β)) : Status → Prop
  | .accepted => ∀ fork ∈ forks, w.Merged fork
  | .dismissed => ∀ fork ∈ forks, w.Dismissible fork

/-- Statuses are recorded where they were not, or as they were. -/
theorem Sound.old_status (h : w.Sound) {forks : List (Fork σ β)} {old : Status}
    (hrecords : w.Records forks status) (hfork : fork ∈ forks)
    (hold : w.status fork = some old) : old = status := by
  cases old <;> cases status
  case accepted.accepted | dismissed.dismissed => rfl
  case accepted.dismissed => exact absurd (h.accepted fork hold) (hrecords fork hfork).1
  case dismissed.accepted => exact absurd (hrecords fork hfork) (h.dismissed fork hold).1

theorem Sound.close (h : w.Sound) (hsettled : w.Settled status) :
    ({ w with proposal := some status } : World σ β).Sound := by
  refine { h with closed := fun status' hstatus ↦ ?_ }
  obtain rfl := some.inj hstatus
  exact hsettled

variable {verb : Verb σ β} {i : ℕ}

theorem move_self (hget : w.verbs[i]? = some verb) : w.move i verb = w := by
  obtain ⟨hlt, rfl⟩ := List.getElem?_eq_some_iff.mp hget
  simp [move]

variable {other : Verb σ β}

theorem mem_move (h : other ∈ (w.move i verb).verbs) :
    other ∈ w.verbs ∨ other = verb := mem_or_eq_of_mem_set h

/-- A verb comes to a new place, where others stay. -/
theorem Sound.place (h : w.Sound) {verbs : List (Verb σ β)}
    (hverbs : ∀ other ∈ verbs, other ∈ w.verbs ∨ other = verb)
    (haccepting : ∀ fork ∈ verb.at_.accepting, w.status fork ≠ some .dismissed ∧ w.Acceptable fork)
    (hrelies : w.Relies verb.whole verb.at_)
    (hrecorded : ∀ fork, w.Unrecorded fork → ∃ other ∈ verbs, other.at_.recording = some fork) :
    ({ w with verbs } : World σ β).Sound := by
  have hfree {fork : Fork σ β} (hfork : w.Dismissible fork) (hnew : fork ∉ verb.at_.accepting) :
      ({ w with verbs } : World σ β).Dismissible fork := by
    refine ⟨hfork.1, fun other hother ↦ ?_⟩
    obtain hold | rfl := hverbs other hother
    · exact hfork.2 other hold
    · exact hnew
  refine ⟨fun fork hstatus ↦ hfree (h.dismissed fork hstatus) ?_, h.accepted, ?_, h.closed, hrecorded⟩
  · exact fun hhand ↦ (haccepting fork hhand).1 hstatus
  · intro other hother
    obtain hold | rfl := hverbs other hother
    · refine (h.verbs other hold).mono (fun _ ↦ id) (fun fork hfork hdismissible ↦ ?_) rfl
        (fun _ ↦ id) fun _ ↦ id
      exact hfree hdismissible fun hnew ↦ (haccepting fork hnew).2 other hold hfork
    · exact hrelies.mono (fun _ ↦ id) (fun fork hfork h ↦ hfree h (not_accepting hfork)) rfl
        (fun _ ↦ id) fun _ ↦ id

/-- A verb goes on with what it had in hand, and loses no record. -/
theorem Sound.move (h : w.Sound) {at' : At σ β} (hget : w.verbs[i]? = some verb)
    (haccepting : at'.accepting ⊆ verb.at_.accepting) (hrelies : w.Relies verb.whole at')
    (hrecorded : ∀ fork, verb.at_.recording = some fork → at'.recording ≠ some fork →
      ¬ w.Unrecorded fork) : (w.move i ⟨verb.whole, at'⟩).Sound := by
  have hmem := mem_of_getElem? hget
  have hlt : i < w.verbs.length := (List.getElem?_eq_some_iff.mp hget).1
  refine h.place (fun other hother ↦ mem_move hother) (fun fork hfork ↦ ⟨fun hstatus ↦ ?_, ?_⟩)
    hrelies fun fork hunrecorded ↦ ?_
  · exact (h.dismissed fork hstatus).2 verb hmem (haccepting hfork)
  · exact fun other hother hhand ↦ (h.dismissible hother hhand).2 verb hmem (haccepting hfork)
  · obtain ⟨other, hother, hat⟩ := h.recorded fork hunrecorded
    obtain ⟨j, hj⟩ := getElem?_of_mem hother
    by_cases hij : j = i
    · subst hij
      obtain rfl : other = verb := some.inj (hj.symm.trans hget)
      by_cases hkept : at'.recording = some fork
      · refine ⟨⟨other.whole, at'⟩, mem_of_getElem? (i := j) ?_, hkept⟩
        exact getElem?_set_self hlt
      · exact absurd hunrecorded (hrecorded fork hat hkept)
    · refine ⟨other, mem_of_getElem? (i := j) ?_, hat⟩
      exact (getElem?_set_ne (Ne.symm hij)).trans hj

theorem leaves_recording {at_ : At σ β} (hleaves : w.Leaves at_)
    (hat : at_.recording = some fork) : ¬ w.Unrecorded fork := by
  cases at_ with
  | record other rest =>
    obtain rfl : other = fork := some.inj hat
    exact hleaves
  | land | drop | discard | settle | close | done => cases hat

section

variable (h : w.Sound) (hget : w.verbs[i]? = some verb)
include h hget

/-- A verb that may stop here goes on. -/
theorem Sound.leave {at' : At σ β} (haccepting : at'.accepting ⊆ verb.at_.accepting)
    (hrelies : w.Relies verb.whole at') (hleaves : w.Leaves verb.at_) :
    (w.move i ⟨verb.whole, at'⟩).Sound :=
  h.move hget haccepting hrelies fun _ hat _ ↦ leaves_recording hleaves hat

theorem Sound.read : (w.move i ⟨verb.whole, w.read verb.at_⟩).Sound := by
  obtain ⟨whole, at_⟩ := verb
  cases at_ with
  | settle =>
    refine h.leave hget ?_ ?_ trivial
    · simp only [World.read]
      split_ifs <;> exact nil_subset _
    · simp only [World.read]
      split_ifs with hopen haccepted
      · trivial
      · exact ⟨by simpa using hopen, by simpa using haccepted⟩
      · exact ⟨by simpa using hopen, by simpa using haccepted⟩
  | land | drop | record | discard | close | done =>
    simp only [World.read]
    rwa [move_self hget]

theorem Sound.die (hleaves : w.Leaves verb.at_) : (w.move i ⟨verb.whole, .done⟩).Sound :=
  h.leave hget (nil_subset _) trivial hleaves

end

theorem mem_begin (h : other ∈ (w.begin verb).verbs) :
    other ∈ w.verbs ∨ other = verb :=
  (mem_append.mp h).imp_right mem_singleton.mp

theorem Sound.begin (h : w.Sound)
    (haccepting : ∀ fork ∈ verb.at_.accepting, w.status fork = none ∧ w.Acceptable fork)
    (hrelies : w.Relies verb.whole verb.at_) : (w.begin verb).Sound := by
  refine h.place (fun other hother ↦ mem_begin hother) (fun fork hfork ↦ ?_) hrelies
    fun fork hunrecorded ↦ ?_
  · obtain ⟨hopen, hacceptable⟩ := haccepting fork hfork
    exact ⟨by simp [hopen], hacceptable⟩
  · obtain ⟨other, hother, hat⟩ := h.recorded fork hunrecorded
    exact ⟨other, mem_append_left _ hother, hat⟩

theorem mem_openForks : fork ∈ w.openForks ↔ fork ∈ w.forks ∧ w.status fork = none := by
  simp [openForks]

theorem at_of_get (hget : w.verbs[i]? = some verb) : w.at_ i = verb.at_ := by
  simp [at_, hget]

/-- What is recorded of the forks and of the proposal stays, and what is merged. -/
structure Keeps (w w' : World σ β) : Prop where
  forks : w'.forks = w.forks
  status : ∀ fork, Kept (w.status fork) (w'.status fork)
  proposal : Kept w.proposal w'.proposal
  merged : ∀ fork, w.Merged fork → w'.Merged fork

theorem Keeps.refl (w : World σ β) : w.Keeps w :=
  ⟨rfl, fun _ ↦ Kept.refl _, Kept.refl _, fun _ h ↦ h⟩

theorem Keeps.trans {a b c : World σ β} (h₁ : a.Keeps b) (h₂ : b.Keeps c) : a.Keeps c :=
  ⟨h₂.forks.trans h₁.forks, fun fork ↦ (h₁.status fork).trans (h₂.status fork),
    h₁.proposal.trans h₂.proposal, fun fork h ↦ h₂.merged fork (h₁.merged fork h)⟩

theorem Keeps.verbs {w' : World σ β} (h : w.Keeps w') (verbs : List (Verb σ β)) :
    w.Keeps { w' with verbs } := { h with }

/-- Where the verb at a position stands after the move of another. -/
theorem get_move {j : ℕ} (hget : w.verbs[i]? = some verb) (hne : j ≠ i)
    (w' : World σ β) (hverbs : w'.verbs = w.verbs) : (w'.move j other).verbs[i]? = some verb := by
  unfold move
  rw [hverbs]
  exact (getElem?_set_ne hne).trans hget

theorem get_begin (hget : w.verbs[i]? = some verb) (other : Verb σ β) :
    (w.begin other).verbs[i]? = some verb := by
  unfold begin
  rw [List.getElem?_append_left (List.getElem?_eq_some_iff.mp hget).1]
  exact hget

end

section Steps

variable [DecidableEq σ] [DecidableEq β] {w : World σ β}

omit [DecidableEq β] in
theorem merged_landed {other : Fork σ β} :
    (w.landed fork).Merged other ↔ other = fork ∨ w.Merged other := by
  unfold Merged landed
  by_cases hscope : other.scope = fork.scope
  · simp [hscope]
  · have hne : other ≠ fork := fun h ↦ hscope (congrArg Fork.scope h)
    simp [Function.update_of_ne hscope, hne]

omit [DecidableEq β] in
/-- A fork in the hands of an accepting verb is merged. -/
theorem Sound.landed (h : w.Sound) (hbranch : fork ∈ w.branches)
    (hhand : ∃ verb ∈ w.verbs, fork ∈ verb.at_.accepting) : (w.landed fork).Sound := by
  obtain ⟨acceptor, hacceptor, haccepting⟩ := hhand
  have hkept {other : Fork σ β} (hother : w.Dismissible other) :
      (w.landed fork).Dismissible other := by
    refine ⟨fun hmerged ↦ ?_, hother.2⟩
    obtain rfl | hmerged := merged_landed.mp hmerged
    · exact hother.2 acceptor hacceptor haccepting
    · exact hother.1 hmerged
  have hmerged (other : Fork σ β) (hother : w.Merged other) : (w.landed fork).Merged other :=
    merged_landed.mpr (.inr hother)
  refine ⟨fun other hstatus ↦ hkept (h.dismissed other hstatus),
    fun other hstatus ↦ hmerged other (h.accepted other hstatus), fun verb hverb ↦ ?_, h.closed, ?_⟩
  · exact (h.verbs verb hverb).mono hmerged (fun _ _ ↦ hkept) rfl (fun _ ↦ id) fun _ ↦ id
  · rintro other ⟨hmerged, hgone, hopen⟩
    obtain rfl | hmerged := merged_landed.mp hmerged
    · exact absurd hbranch hgone
    · exact h.recorded other ⟨hmerged, hgone, hopen⟩

/-- A branch is dropped; a verb is about to record a landed fork. -/
theorem Sound.dropped (h : w.Sound)
    (hrecorded : w.Merged fork → fork ∈ w.branches → w.status fork = none →
      ∃ verb ∈ w.verbs, verb.at_.recording = some fork) : (w.dropped fork).Sound := by
  refine ⟨h.dismissed, h.accepted, fun verb hverb ↦ (h.verbs verb hverb).mono (fun _ ↦ id)
    (fun _ _ ↦ id) rfl (fun _ ↦ id) fun _ ↦ id, h.closed, ?_⟩
  rintro other ⟨hmerged, hgone, hopen⟩
  by_cases hbranch : other ∈ w.branches
  · obtain rfl : other = fork := by
      by_contra hne
      exact hgone (mem_filter.mpr ⟨hbranch, decide_eq_true hne⟩)
    exact hrecorded hmerged hbranch hopen
  · exact h.recorded other ⟨hmerged, hbranch, hopen⟩

theorem Sound.resolved (h : w.Sound) {forks : List (Fork σ β)}
    (hrecords : w.Records forks status) : (w.resolved forks status).Sound := by
  have hmem {fork : Fork σ β} (hfork : fork ∈ forks) :
      (w.resolved forks status).status fork = some status := if_pos hfork
  have hother {fork : Fork σ β} (hfork : fork ∉ forks) :
      (w.resolved forks status).status fork = w.status fork := if_neg hfork
  have hkept {fork : Fork σ β} {old : Status} (hold : w.status fork = some old) :
      (w.resolved forks status).status fork = some old := by
    by_cases hfork : fork ∈ forks
    · rw [hmem hfork, h.old_status hrecords hfork hold]
    · rwa [hother hfork]
  have hsettled {status' : Status} (hsettled : w.Settled status') :
      (w.resolved forks status).Settled status' := by
    have heq (fork : Fork σ β) (hfork : fork ∈ w.forks) :
        (w.resolved forks status).status fork = w.status fork := by
      obtain ⟨old, hold⟩ := ne_none_iff_exists'.mp (hsettled.1 fork hfork)
      rw [hold, hkept hold]
    refine ⟨fun fork hfork ↦ heq fork hfork ▸ hsettled.1 fork hfork, hsettled.2.trans ?_⟩
    exact exists_congr fun fork ↦ and_congr_right fun hfork ↦ by rw [heq fork hfork]
  refine ⟨?_, ?_, fun verb hverb ↦ (h.verbs verb hverb).mono (fun _ ↦ id) (fun _ _ ↦ id) rfl
    (fun _ ↦ hkept) fun _ ↦ hsettled, fun status' hclosed ↦ hsettled (h.closed status' hclosed), ?_⟩
  · intro fork hstatus
    by_cases hfork : fork ∈ forks
    · obtain rfl := some.inj ((hmem hfork).symm.trans hstatus)
      exact hrecords fork hfork
    · exact h.dismissed fork ((hother hfork).symm.trans hstatus)
  · intro fork hstatus
    by_cases hfork : fork ∈ forks
    · obtain rfl := some.inj ((hmem hfork).symm.trans hstatus)
      exact hrecords fork hfork
    · exact h.accepted fork ((hother hfork).symm.trans hstatus)
  · rintro fork ⟨hmerged, hgone, hopen⟩
    have hfork : fork ∉ forks := fun hfork ↦ nomatch (hmem hfork).symm.trans hopen
    exact h.recorded fork ⟨hmerged, hgone, (hother hfork).symm.trans hopen⟩

theorem Sound.call (h : w.Sound) {i : ℕ} {verb : Verb σ β} {answer : Answer}
    (hget : w.verbs[i]? = some verb) (hanswers : w.Answers answer verb.at_) :
    ((w.call verb.whole answer verb.at_).1.move i
      ⟨verb.whole, (w.call verb.whole answer verb.at_).2⟩).Sound := by
  have hmem := mem_of_getElem? hget
  obtain ⟨whole, at_⟩ := verb
  have hrelies : w.Relies whole at_ := h.verbs _ hmem
  cases at_ with
  | land fork rest =>
    have hhand : ∃ verb ∈ w.verbs, fork ∈ verb.at_.accepting := ⟨_, hmem, mem_cons_self⟩
    have hfailed {w' : World σ β} (h' : w'.Sound) (hget' : w'.verbs[i]? = w.verbs[i]?) :
        (w'.move i ⟨whole, failed whole rest⟩).Sound :=
      h'.leave (hget'.trans hget) (fun _ hother ↦ mem_cons_of_mem _ (accepting_failed hother))
        (relies_failed w' whole rest) trivial
    have hdrop {w' : World σ β} (h' : w'.Sound) (hget' : w'.verbs[i]? = w.verbs[i]?)
        (hmerged : w'.Merged fork) : (w'.move i ⟨whole, .drop fork rest⟩).Sound :=
      h'.leave (hget'.trans hget) (List.Subset.refl _) hmerged trivial
    cases answer with
    | returned =>
      simp only [World.call]
      split_ifs with hbranch
      · exact hdrop (h.landed hbranch hhand) rfl (merged_landed.mpr (.inl rfl))
      · exact hfailed h rfl
    | notRegistered => exact hdrop h rfl (hanswers rfl)
    | threwBefore => exact hfailed h rfl
    | threwAfter =>
      simp only [World.call]
      split_ifs with hbranch
      · exact hfailed (h.landed hbranch hhand) rfl
      · exact hfailed h rfl
  | drop fork rest =>
    have hrecord : (w.move i ⟨whole, .record fork rest⟩).Sound :=
      h.leave hget (List.Subset.refl _) hrelies trivial
    have hfailed : (w.move i ⟨whole, failed whole rest⟩).Sound :=
      h.leave hget (fun _ hother ↦ mem_cons_of_mem _ (accepting_failed hother))
        (relies_failed w whole rest) trivial
    cases answer with
    | returned =>
      refine hrecord.dropped fun _ _ _ ↦ ⟨⟨whole, .record fork rest⟩, ?_, rfl⟩
      have hlt : i < w.verbs.length := (List.getElem?_eq_some_iff.mp hget).1
      exact mem_of_getElem? (i := i) (getElem?_set_self hlt)
    | notRegistered => exact hrecord
    | threwBefore => exact hfailed
    | threwAfter =>
      exact hfailed.dropped fun _ hbranch hopen ↦ absurd hopen (hanswers rfl hbranch)
  | discard todo forks =>
    obtain ⟨hsub, hforks, hwhole⟩ := hrelies
    cases todo with
    | nil =>
      simp only [World.call]
      rwa [move_self hget]
    | cons fork todo =>
      have hnext : (w.move i ⟨whole, .discard todo forks⟩).Sound :=
        h.leave hget (List.Subset.refl _)
          ⟨fun _ hother ↦ hsub (mem_cons_of_mem _ hother), hforks, hwhole⟩ trivial
      have hunmerged : ¬ w.Merged fork := (hforks fork (hsub mem_cons_self)).1
      cases answer with
      | returned | threwAfter =>
        exact hnext.dropped fun hmerged _ _ ↦ absurd hmerged hunmerged
      | notRegistered | threwBefore => exact hnext
  | record | settle | close | done =>
    simp only [World.call]
    rwa [move_self hget]

theorem Sound.commit (h : w.Sound) {i : ℕ} {verb : Verb σ β} {ack : Commit}
    (hget : w.verbs[i]? = some verb) (hleaves : ack = .refused → w.Leaves verb.at_) :
    ((w.commit verb.whole ack verb.at_).1.move i
      ⟨verb.whole, (w.commit verb.whole ack verb.at_).2⟩).Sound := by
  obtain ⟨whole, at_⟩ := verb
  have hrelies : w.Relies whole at_ := h.verbs _ (mem_of_getElem? hget)
  cases at_ with
  | record fork rest =>
    have haccepted : (w.resolved [fork] .accepted).Sound :=
      h.resolved (forall_mem_singleton.mpr hrelies)
    have hrecorded : (w.resolved [fork] .accepted).Leaves (.record fork rest) := by
      rintro ⟨-, -, hopen⟩
      simp [World.resolved] at hopen
    have hfailed {w' : World σ β} (h' : w'.Sound) (hget' : w'.verbs[i]? = w.verbs[i]?)
        (hleaves' : w'.Leaves (.record fork rest)) :
        (w'.move i ⟨whole, failed whole rest⟩).Sound :=
      h'.leave (hget'.trans hget) (fun _ hother ↦ mem_cons_of_mem _ (accepting_failed hother))
        (relies_failed w' whole rest) hleaves'
    cases ack with
    | committed =>
      refine haccepted.leave hget (fun other hother ↦ ?_) (relies_forward _ whole rest) hrecorded
      exact mem_cons_of_mem _ (accepting_forward rest ▸ hother)
    | refused => exact hfailed h rfl (hleaves rfl)
    | lost => exact hfailed haccepted rfl hrecorded
  | discard todo forks =>
    cases todo with
    | nil =>
      have hdismissed : (w.resolved forks .dismissed).Sound := h.resolved hrelies.2.1
      have hafter : (if whole then { w.resolved forks .dismissed with proposal := some .dismissed }
          else w.resolved forks .dismissed).Sound := by
        split_ifs with hwhole
        · refine hdismissed.close ?_
          have hall : ∀ fork ∈ w.forks,
              (w.resolved forks .dismissed).status fork = some .dismissed := by
            intro fork hfork
            obtain hhand | hstatus := hrelies.2.2 hwhole fork hfork
            · simp [World.resolved, hhand]
            · simp [World.resolved, hstatus]
          refine ⟨fun fork hfork hopen ↦ ?_, ⟨fun heq ↦ (by cases heq), ?_⟩⟩
          · rw [hall fork hfork] at hopen
            cases hopen
          · rintro ⟨fork, hfork, haccepted⟩
            rw [hall fork hfork] at haccepted
            cases haccepted
        · exact hdismissed
      have hverbs : (if whole then { w.resolved forks .dismissed with proposal := some .dismissed }
          else w.resolved forks .dismissed).verbs[i]? = some ⟨whole, .discard [] forks⟩ := by
        split_ifs <;> exact hget
      cases ack with
      | committed =>
        simp only [World.commit]
        refine hafter.leave hverbs ?_ ?_ trivial
        · split_ifs <;> exact nil_subset _
        · split_ifs <;> trivial
      | refused => exact h.leave hget (nil_subset _) trivial trivial
      | lost => exact hafter.leave hverbs (nil_subset _) trivial trivial
    | cons fork todo =>
      simp only [World.commit]
      rwa [move_self hget]
  | close status =>
    have hclosed := h.close hrelies
    cases ack with
    | committed | lost => exact hclosed.leave hget (nil_subset _) trivial trivial
    | refused => exact h.leave hget (nil_subset _) trivial trivial
  | land | drop | settle | done =>
    simp only [World.commit]
    rwa [move_self hget]

theorem Sound.step (h : w.Sound) {e : Event σ β} (horderly : w.Orderly e) : (w.step e).Sound := by
  cases e with
  | acceptProposal force authorized conflicts =>
    simp only [World.step, World.acceptProposal]
    split_ifs
    · refine h.begin (fun fork hfork ↦ ?_) (relies_forward ..)
      have hfork : fork ∈ w.openForks := accepting_forward w.openForks ▸ hfork
      exact ⟨(mem_openForks.mp hfork).2, horderly fork hfork⟩
    · exact h
  | acceptFork fork force authorized conflicts =>
    simp only [World.step, World.acceptFork]
    split_ifs with hadmitted
    · refine h.begin (fun other hother ↦ ?_) trivial
      rw [mem_singleton.mp hother]
      exact ⟨hadmitted.1.2.2, horderly⟩
    · exact h
  | dismissProposal =>
    simp only [World.step, World.dismissProposal]
    split_ifs
    · refine h.begin (fun _ hfork ↦ nomatch hfork)
        ⟨List.Subset.refl _, horderly.1, fun _ fork hfork ↦ ?_⟩
      cases hstatus : w.status fork with
      | none => exact .inl (mem_openForks.mpr ⟨hfork, hstatus⟩)
      | some status =>
        cases status with
        | accepted => exact absurd hstatus (horderly.2 fork hfork)
        | dismissed => exact .inr rfl
    · exact h
  | dismissFork fork =>
    simp only [World.step, World.dismissFork]
    split_ifs
    · refine h.begin (fun _ hfork ↦ nomatch hfork) ⟨List.Subset.refl _, fun other hother ↦ ?_, nofun⟩
      rw [mem_singleton.mp hother]
      exact horderly
    · exact h
  | call i answer =>
    simp only [World.step]
    split
    · next hget => exact h.call hget (at_of_get hget ▸ horderly)
    · exact h
  | commit i ack =>
    simp only [World.step]
    split
    · next hget => exact h.commit hget (at_of_get hget ▸ horderly)
    · exact h
  | read i =>
    simp only [World.step]
    split
    · next hget => exact h.read hget
    · exact h
  | die i =>
    simp only [World.step]
    split
    · next hget => exact h.die hget (at_of_get hget ▸ horderly)
    · exact h

theorem call_keeps (whole : Bool) (answer : Answer) (at_ : At σ β) :
    w.Keeps (w.call whole answer at_).1 := by
  have hlanded (fork : Fork σ β) : w.Keeps (w.landed fork) :=
    { Keeps.refl w with merged := fun _ h ↦ merged_landed.mpr (.inr h) }
  have hdropped (fork : Fork σ β) : w.Keeps (w.dropped fork) :=
    { Keeps.refl w with }
  cases at_ with
  | land fork rest =>
    cases answer with
    | returned =>
      simp only [call]
      split_ifs
      · exact hlanded fork
      · exact .refl w
    | notRegistered | threwBefore => exact .refl w
    | threwAfter =>
      simp only [call]
      split_ifs
      · exact hlanded fork
      · exact .refl w
  | drop fork rest =>
    cases answer with
    | returned | threwAfter => exact hdropped fork
    | notRegistered | threwBefore => exact .refl w
  | discard todo forks =>
    cases todo with
    | nil => exact .refl w
    | cons fork todo =>
      cases answer with
      | returned | threwAfter => exact hdropped fork
      | notRegistered | threwBefore => exact .refl w
  | record | settle | close | done => exact .refl w

theorem Sound.commit_keeps (h : w.Sound) {i : ℕ} {verb : Verb σ β} (ack : Commit)
    (hget : w.verbs[i]? = some verb) : w.Keeps (w.commit verb.whole ack verb.at_).1 := by
  have hresolved {forks : List (Fork σ β)} {status : Status} (hrecords : w.Records forks status) :
      w.Keeps (w.resolved forks status) := by
    refine ⟨rfl, fun fork old hold ↦ ?_, refl _, fun _ h ↦ h⟩
    by_cases hfork : fork ∈ forks
    · simp [World.resolved, hfork, h.old_status hrecords hfork hold]
    · simp [World.resolved, hfork, hold]
  obtain ⟨whole, at_⟩ := verb
  have hrelies : w.Relies whole at_ := h.verbs _ (mem_of_getElem? hget)
  cases at_ with
  | record fork rest =>
    have haccepted : w.Keeps (w.resolved [fork] .accepted) :=
      hresolved (forall_mem_singleton.mpr hrelies)
    cases ack with
    | committed | lost => exact haccepted
    | refused => exact .refl w
  | discard todo forks =>
    cases todo with
    | nil =>
      obtain ⟨-, hforks, hall⟩ := hrelies
      have hdismissed : w.Keeps (w.resolved forks .dismissed) := hresolved hforks
      have hafter : w.Keeps (if whole then
          { w.resolved forks .dismissed with proposal := some .dismissed }
          else w.resolved forks .dismissed) := by
        split_ifs with hwhole
        · refine { hdismissed with proposal := fun old hold ↦ ?_ }
          cases old with
          | dismissed => rfl
          | accepted =>
            obtain ⟨fork, hfork, haccepted⟩ := (h.closed .accepted hold).2.mp rfl
            obtain hhand | hstatus := hall hwhole fork hfork
            · exact absurd (h.accepted fork haccepted) (hforks fork hhand).1
            · rw [hstatus] at haccepted
              cases haccepted
        · exact hdismissed
      cases ack with
      | committed | lost => exact hafter
      | refused => exact .refl w
    | cons fork todo => exact .refl w
  | close status =>
    have hclosed : w.Keeps { w with proposal := some status } := by
      refine { Keeps.refl w with proposal := fun old hold ↦ ?_ }
      rw [(h.closed old hold).unique hrelies]
    cases ack with
    | committed | lost => exact hclosed
    | refused => exact .refl w
  | land | drop | settle | done => exact .refl w

theorem Sound.keeps (h : w.Sound) (e : Event σ β) : w.Keeps (w.step e) := by
  cases e with
  | acceptProposal | acceptFork | dismissProposal | dismissFork =>
    simp only [World.step, World.acceptProposal, World.acceptFork, World.dismissProposal,
      dismissFork]
    split_ifs
    · exact (Keeps.refl w).verbs _
    · exact .refl w
  | call i answer =>
    simp only [World.step]
    split
    · exact (call_keeps ..).verbs _
    · exact .refl w
  | commit i ack =>
    simp only [World.step]
    split
    · next hget => exact (h.commit_keeps ack hget).verbs _
    · exact .refl w
  | read i | die i =>
    simp only [World.step]
    split
    · exact (Keeps.refl w).verbs _
    · exact .refl w

theorem call_verbs (whole : Bool) (answer : Answer) (at_ : At σ β) :
    (w.call whole answer at_).1.verbs = w.verbs := by
  unfold call
  split
  · split
    · split_ifs <;> rfl
    · rfl
    · rfl
    · split_ifs <;> rfl
  · split <;> rfl
  · split <;> rfl
  · rfl

theorem commit_verbs (whole : Bool) (ack : Commit) (at_ : At σ β) :
    (w.commit whole ack at_).1.verbs = w.verbs := by
  cases at_ with
  | record => cases ack <;> rfl
  | discard todo forks =>
    cases todo with
    | nil => cases whole <;> cases ack <;> rfl
    | cons => rfl
  | close => cases ack <;> rfl
  | land | drop | settle | done => rfl

/-- A verb that is about to record a landed fork stays until it records it. -/
theorem record_stays {i : ℕ} {whole : Bool} {fork : Fork σ β} {rest : List (Fork σ β)}
    (hget : w.verbs[i]? = some ⟨whole, .record fork rest⟩) (hunrecorded : w.Unrecorded fork)
    {e : Event σ β} (horderly : w.Orderly e) : (w.step e).status fork = some .accepted ∨
      ((∀ ack, e ≠ .commit i ack) ∧ (w.step e).verbs[i]? = some ⟨whole, .record fork rest⟩) := by
  cases e with
  | acceptProposal | acceptFork | dismissProposal | dismissFork =>
    refine .inr ⟨fun _ h ↦ (by cases h), ?_⟩
    simp only [step, acceptProposal, acceptFork, dismissProposal, dismissFork]
    split_ifs
    · exact get_begin hget _
    · exact hget
  | call j answer =>
    refine .inr ⟨fun _ h ↦ (by cases h), ?_⟩
    by_cases hj : j = i
    · subst hj
      simp only [step, hget, call]
      rwa [move_self hget]
    · simp only [step]
      split
      · exact get_move hget hj _ (call_verbs _ _ _)
      · exact hget
  | commit j ack =>
    by_cases hj : j = i
    · subst hj
      cases ack with
      | committed | lost => simp [step, hget, commit, move, resolved]
      | refused =>
        have hleaves := horderly rfl
        rw [at_of_get hget] at hleaves
        exact absurd hunrecorded hleaves
    · refine .inr ⟨fun _ h ↦ hj (Event.commit.inj h).1, ?_⟩
      simp only [step]
      split
      · exact get_move hget hj _ (commit_verbs _ _ _)
      · exact hget
  | read j =>
    refine .inr ⟨fun _ h ↦ (by cases h), ?_⟩
    by_cases hj : j = i
    · subst hj
      simp only [step, hget, read]
      rwa [move_self hget]
    · simp only [step]
      split
      · exact get_move hget hj _ rfl
      · exact hget
  | die j =>
    by_cases hj : j = i
    · subst hj
      have hleaves : w.Leaves (w.at_ j) := horderly
      rw [at_of_get hget] at hleaves
      exact absurd hunrecorded hleaves
    · refine .inr ⟨fun _ h ↦ (by cases h), ?_⟩
      simp only [step]
      split
      · exact get_move hget hj _ rfl
      · exact hget

end Steps

end World

section Interleavings

variable [DecidableEq σ] [DecidableEq β]

/-- The proposal after a run. -/
def decided (forks : List (Fork σ β)) (events : List (Event σ β)) : World σ β :=
  Runs.run World.step (World.filed forks) events

/-- What is recorded of a proposal and its forks is the truth about the trunks. -/
structure Truthful (forks : List (Fork σ β)) (events : List (Event σ β)) : Prop where
  dismissed : ∀ fork, (decided forks events).Merged fork →
    (decided forks events).status fork ≠ some .dismissed
  accepted : ∀ fork, (decided forks events).status fork = some .accepted →
    (decided forks events).Merged fork
  final : ∀ first last, events = first ++ last →
    (∀ fork, Kept ((decided forks first).status fork) ((decided forks events).status fork)) ∧
      Kept (decided forks first).proposal (decided forks events).proposal
  closed : ∀ status, (decided forks events).proposal = some status →
    (∀ fork ∈ forks, (decided forks events).status fork ≠ none) ∧
      (status = .accepted ↔ ∃ fork ∈ forks, (decided forks events).status fork = some .accepted)
  recorded : ∀ fork, (decided forks events).Unrecorded fork →
    ∃ i whole rest, (decided forks events).verbs[i]? = some ⟨whole, .record fork rest⟩ ∧
      ∀ e, (decided forks events).Orderly e →
        ((decided forks events).step e).status fork = some .accepted ∨
          ((∀ ack, e ≠ .commit i ack) ∧
            ((decided forks events).step e).verbs[i]? = some ⟨whole, .record fork rest⟩)

theorem outcomes_are_true (forks : List (Fork σ β)) (events : List (Event σ β))
    (horderly : Runs.Along World.step World.Orderly (World.filed forks) events) :
    Truthful forks events := by
  have hsound (events : List (Event σ β))
      (horderly : Runs.Along step World.Orderly (filed forks) events) :
      (decided forks events).Sound :=
    Runs.run_preserves_along World.Orderly World.Sound (fun _ _ h hstep ↦ h.step hstep)
      (World.Sound.filed forks) horderly
  have hkeeps {w : World σ β} (hw : w.Sound) (events : List (Event σ β))
      (horderly : Runs.Along step World.Orderly w events) :
      w.Keeps (Runs.run step w events) := by
    induction events generalizing w with
    | nil => exact .refl w
    | cons e events ih => exact (hw.keeps e).trans (ih (hw.step horderly.1) horderly.2)
  have hrun := hsound events horderly
  refine ⟨fun fork hmerged hstatus ↦ (hrun.dismissed fork hstatus).1 hmerged, hrun.accepted, ?_,
    fun status hclosed ↦ ?_, fun fork hunrecorded ↦ ?_⟩
  · rintro first last rfl
    rw [Runs.along_append] at horderly
    have hlater := hkeeps (hsound first horderly.1) last horderly.2
    unfold decided
    rw [Runs.run_append]
    exact ⟨hlater.status, hlater.proposal⟩
  · have hforks : (decided forks events).forks = forks :=
      (hkeeps (World.Sound.filed forks) events horderly).forks
    have hsettled := hrun.closed status hclosed
    unfold World.Settled at hsettled
    rwa [hforks] at hsettled
  · obtain ⟨⟨whole, at_⟩, hverb, hat⟩ := hrun.recorded fork hunrecorded
    obtain ⟨i, hget⟩ := getElem?_of_mem hverb
    cases at_ with
    | record other rest =>
      obtain rfl : other = fork := some.inj hat
      exact ⟨i, whole, rest, hget, fun e hstep ↦ record_stays hget hunrecorded hstep⟩
    | land | drop | discard | settle | close | done => cases hat

/-- Two forks; one is dismissed while the other is landed, in a retry of a failed call. -/
def reviewed : List (Event ℕ ℕ) :=
  [.acceptFork ⟨0, 1⟩ false (fun _ ↦ true) (fun _ ↦ []), .dismissFork ⟨0, 2⟩, .call 0 .threwAfter,
    .call 1 .threwBefore, .commit 1 .committed, .read 1,
    .acceptProposal true (fun _ ↦ true) (fun _ ↦ [false]), .call 2 .returned, .call 2 .returned,
    .commit 2 .committed, .read 2, .commit 2 .committed]

theorem outcomes_are_true_example : Truthful [⟨0, 1⟩, ⟨0, 2⟩] reviewed :=
  outcomes_are_true _ _ (by decide)

/-- The branch of a landed fork is kept, so it stays open; then it is dismissed. -/
def dismissedAfterLanding : List (Event ℕ ℕ) :=
  [.acceptFork ⟨0, 1⟩ false (fun _ ↦ true) (fun _ ↦ []), .call 0 .returned, .call 0 .threwBefore,
    .dismissFork ⟨0, 1⟩, .call 1 .returned, .commit 1 .committed]

theorem merged_fork_is_dismissed :
    ¬ ∀ (forks : List (Fork ℕ ℕ)) (events : List (Event ℕ ℕ)) (fork : Fork ℕ ℕ),
      (decided forks events).Merged fork →
        (decided forks events).status fork ≠ some .dismissed := by
  intro h
  exact h [⟨0, 1⟩] dismissedAfterLanding ⟨0, 1⟩ (by decide) (by decide)

end Interleavings

end Simmis.Proposals
