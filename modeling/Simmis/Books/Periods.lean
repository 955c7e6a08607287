import Mathlib.Algebra.BigOperators.Group.List.Basic
import Mathlib.Data.List.Sort

/-!
# The journal of a period

A report on a period has an opening balance and the journal of what comes after it. The instants at
which entries are cut come from a division that truncates, and the journal begins with the last
instant of the opening balance.
-/

namespace Simmis.Books

open List

def dayMs : ℤ := 24 * 60 * 60 * 1000

/-- `end-of-day` -/
def endOfDay (d : ℤ) : ℤ := dayMs * d.tdiv dayMs + dayMs - 1

/-- `just-before` -/
def justBefore (d : ℤ) : ℤ := dayMs * d.tdiv dayMs - 1

/-- The first millisecond of a UTC day. -/
def dayStart (d : ℤ) : ℤ := dayMs * (d / dayMs)

def dayEnd (d : ℤ) : ℤ := dayStart d + dayMs - 1

/-- The division goes to the next day: the date is before 1970 and not at midnight. -/
def Truncated (d : ℤ) : Prop := ¬ (0 ≤ d ∨ dayMs ∣ d)

instance (d : ℤ) : Decidable (Truncated d) := inferInstanceAs (Decidable (¬ _))

/-- Instants where a period that begins on a date begins wrongly. -/
def WrongStart (d instant : ℤ) : Prop :=
  if Truncated d then dayStart d ≤ instant ∧ instant ≤ dayEnd d else instant = dayStart d - 1

def WrongEnd (d instant : ℤ) : Prop :=
  Truncated d ∧ dayEnd d < instant ∧ instant ≤ dayEnd d + dayMs

section

variable {d instant : ℤ}

theorem cuts_of_truncated (h : Truncated d) :
    endOfDay d = dayEnd d + dayMs ∧ justBefore d = dayEnd d := by
  have hquot : d.tdiv dayMs = d / dayMs + 1 := by
    rw [Int.tdiv_eq_ediv, if_neg h]
    rfl
  simp only [endOfDay, justBefore, dayEnd, dayStart, hquot, Int.mul_add, Int.mul_one]
  exact ⟨(sub_add_eq_add_sub _ _ _).symm, trivial⟩

theorem cuts_of_not_truncated (h : ¬ Truncated d) :
    endOfDay d = dayEnd d ∧ justBefore d = dayStart d - 1 := by
  have hquot : d.tdiv dayMs = d / dayMs := by
    rw [Int.tdiv_eq_ediv, if_pos (not_not.mp h), add_zero]
  simp [endOfDay, justBefore, dayEnd, dayStart, hquot]

theorem cuts_around (d : ℤ) : justBefore d ≤ dayEnd d ∧ dayEnd d ≤ endOfDay d := by
  have hday : 0 < dayMs := by decide
  by_cases h : Truncated d
  · obtain ⟨hend, hbefore⟩ := cuts_of_truncated h
    omega
  · obtain ⟨hend, hbefore⟩ := cuts_of_not_truncated h
    unfold dayEnd at hend ⊢
    omega

theorem dayEnd_mono {d' : ℤ} (h : d ≤ d') : dayEnd d ≤ dayEnd d' := by
  have hstart : dayStart d ≤ dayStart d' :=
    Int.mul_le_mul_of_nonneg_left (Int.ediv_le_ediv (by decide) h) (by decide)
  unfold dayEnd
  omega

theorem start_of_not_wrong (h : ¬ WrongStart d instant) :
    (justBefore d ≤ instant ↔ dayStart d ≤ instant) ∧
      (dayStart d ≤ instant → justBefore d < instant) := by
  have hday : 0 < dayMs := by decide
  unfold WrongStart at h
  split at h
  · next htruncated =>
    rw [(cuts_of_truncated htruncated).2]
    unfold dayEnd at h ⊢
    omega
  · next htruncated =>
    rw [(cuts_of_not_truncated htruncated).2]
    omega

theorem start_of_wrong (h : WrongStart d instant) :
    instant = justBefore d ∨ (dayStart d ≤ instant ∧ instant < justBefore d) := by
  unfold WrongStart at h
  split at h
  · next htruncated =>
    rw [(cuts_of_truncated htruncated).2]
    omega
  · next htruncated => exact .inl (h.trans (cuts_of_not_truncated htruncated).2.symm)

theorem end_of_not_wrong (h : ¬ WrongEnd d instant) :
    instant ≤ endOfDay d ↔ instant ≤ dayEnd d := by
  have hday : 0 < dayMs := by decide
  by_cases htruncated : Truncated d
  · have hend : ¬ (dayEnd d < instant ∧ instant ≤ dayEnd d + dayMs) := fun hend ↦ h ⟨htruncated, hend⟩
    rw [(cuts_of_truncated htruncated).1]
    omega
  · rw [(cuts_of_not_truncated htruncated).1]

end

structure Posting (A C M : Type) where
  account : A
  commodity : C
  amount : M

structure Transaction (A C M : Type) where
  id : ℤ
  effectiveDate : ℤ
  postings : List (Posting A C M)

def journalLimit : ℕ := 500

/-- `in-period?` -/
def inPeriod (start : Option ℤ) (through instant : ℤ) : Prop :=
  (∀ d ∈ start, justBefore d ≤ instant) ∧ instant ≤ endOfDay through

instance (start : Option ℤ) (through instant : ℤ) : Decidable (inPeriod start through instant) :=
  inferInstanceAs (Decidable (_ ∧ _))

variable {A C M : Type}

/-- Newest first, as `sort-by` has it. -/
def Transaction.before (t u : Transaction A C M) : Prop :=
  u.effectiveDate < t.effectiveDate ∨ (u.effectiveDate = t.effectiveDate ∧ u.id ≤ t.id)

instance : DecidableRel (Transaction.before (A := A) (C := C) (M := M)) :=
  fun _ _ ↦ inferInstanceAs (Decidable (_ ∨ _))

variable (txs : List (Transaction A C M)) (start : Option ℤ) (through : ℤ)

def periodTxs : List (Transaction A C M) :=
  (txs.filter fun t ↦ inPeriod start through t.effectiveDate).insertionSort Transaction.before

/-- The entries of `journal`. -/
def journal : List (Transaction A C M) := (periodTxs txs start through).take journalLimit

/-- No entry stands where the period begins or ends wrongly. -/
def Clear : Prop := ∀ t ∈ txs,
  (∀ d ∈ start, ¬ WrongStart d t.effectiveDate) ∧ ¬ WrongEnd through t.effectiveDate

section

variable {txs start through}

theorem mem_journal (hfew : (periodTxs txs start through).length < journalLimit)
    {t : Transaction A C M} :
    t ∈ journal txs start through ↔ t ∈ txs ∧ inPeriod start through t.effectiveDate := by
  rw [journal, take_of_length_le hfew.le, periodTxs, mem_insertionSort]
  simp

theorem Clear.inPeriod_iff (h : Clear txs start through) {t : Transaction A C M} (ht : t ∈ txs) :
    inPeriod start through t.effectiveDate ↔
      (∀ d ∈ start, dayStart d ≤ t.effectiveDate) ∧ t.effectiveDate ≤ dayEnd through := by
  obtain ⟨hstart, hend⟩ := h t ht
  exact and_congr (forall₂_congr fun d hd ↦ (start_of_not_wrong (hstart d hd)).1)
    (end_of_not_wrong hend)

theorem Clear.apart (h : Clear txs start through) {t : Transaction A C M} (ht : t ∈ txs)
    (hin : inPeriod start through t.effectiveDate) {d : ℤ} (hd : d ∈ start) :
    justBefore d < t.effectiveDate :=
  (start_of_not_wrong ((h t ht).1 d hd)).2 (((h.inPeriod_iff ht).mp hin).1 d hd)

end

variable [AddCommGroup M] [DecidableEq A] [DecidableEq C]

/-- What a transaction books to an account in a commodity. -/
def Transaction.booked (t : Transaction A C M) (a : A) (c : C) : M :=
  ((t.postings.filter fun p ↦ p.account = a ∧ p.commodity = c).map Posting.amount).sum

def booked (a : A) (c : C) : M := (txs.map fun t ↦ t.booked a c).sum

/-- The opening balances of `book-report`, from kontor's trial balance at an instant. -/
def opening (trial : ℤ → A → C → M) : A → C → M :=
  match start with
  | none => fun _ _ ↦ 0
  | some d => trial (justBefore d)

/-- The trial balance sums the postings effective at or before the cut. -/
def Documented (trial : ℤ → A → C → M) : Prop :=
  ∀ cut a c, trial cut a c = booked (txs.filter fun t ↦ t.effectiveDate ≤ cut) a c

/-- The journal has the entries of the period, and makes up its movement. -/
structure Agrees (trial : ℤ → A → C → M) : Prop where
  movement : ∀ a c, booked (journal txs start through) a c =
    trial (dayEnd through) a c - opening start trial a c
  apart : ∀ t ∈ journal txs start through, ∀ d ∈ start, justBefore d < t.effectiveDate
  listed : ∀ t ∈ txs, t ∈ journal txs start through ↔
    (∀ d ∈ start, dayStart d ≤ t.effectiveDate) ∧ t.effectiveDate ≤ dayEnd through

variable {txs start through}

/-- Entries that one of two conditions separates. -/
theorem booked_split {p q r : Transaction A C M → Prop} [DecidablePred p] [DecidablePred q]
    [DecidablePred r] (h : ∀ t ∈ txs, (p t ↔ q t ∨ r t) ∧ ¬ (q t ∧ r t)) (a : A) (c : C) :
    booked (txs.filter p) a c = booked (txs.filter q) a c + booked (txs.filter r) a c := by
  induction txs with
  | nil => simp [booked]
  | cons t txs ih =>
    obtain ⟨⟨ht, hnot⟩, hrest⟩ := forall_mem_cons.mp h
    have ih := ih hrest
    unfold booked at ih ⊢
    by_cases hq : q t
    · have hr : ¬ r t := fun hr ↦ hnot ⟨hq, hr⟩
      simp [hq, hr, ht, ih, add_assoc]
    · by_cases hr : r t
      · simp [hq, hr, ht, ih, add_left_comm]
      · simp [hq, hr, ht, ih]

theorem Clear.movement {trial : ℤ → A → C → M} (h : Clear txs start through)
    (hdoc : Documented txs trial) (horder : ∀ d ∈ start, d ≤ through) (a : A) (c : C) :
    booked (txs.filter fun t ↦ inPeriod start through t.effectiveDate) a c =
      trial (dayEnd through) a c - opening start trial a c := by
  rw [hdoc, eq_sub_iff_add_eq']
  cases start with
  | none =>
    rw [opening, zero_add]
    congr 1
    exact filter_congr fun t ht ↦ by simp [h.inPeriod_iff ht]
  | some d =>
    rw [opening, hdoc]
    refine (booked_split (fun t ht ↦ ⟨⟨fun hend ↦ ?_, ?_⟩, fun ⟨hold, hin⟩ ↦ ?_⟩) a c).symm
    · obtain hold | hnew := le_or_gt t.effectiveDate (justBefore d)
      · exact .inl hold
      · refine .inr ⟨fun d' hd' ↦ ?_, hend.trans (cuts_around through).2⟩
        obtain rfl := Option.mem_some_iff.mp hd'
        exact hnew.le
    · rintro (hold | hin)
      · exact hold.trans ((cuts_around d).1.trans (dayEnd_mono (horder d rfl)))
      · exact ((h.inPeriod_iff ht).mp hin).2
    · exact (h.apart ht hin rfl).not_ge hold

/-- A period's journal makes up its movement exactly where no entry stands at the wrong cuts. -/
theorem agrees_iff {trial : ℤ → A → C → M} (hdoc : Documented txs trial)
    (horder : ∀ d ∈ start, d ≤ through) (hfew : (periodTxs txs start through).length < journalLimit) :
    Agrees txs start through trial ↔ Clear txs start through := by
  constructor
  · intro h t ht
    have hcut {d : ℤ} (hd : d ∈ start) : justBefore d ≤ dayEnd through :=
      (cuts_around d).1.trans (dayEnd_mono (horder d hd))
    have hin (hlower : ∀ d ∈ start, justBefore d ≤ t.effectiveDate)
        (hupper : t.effectiveDate ≤ endOfDay through) : t ∈ journal txs start through :=
      (mem_journal hfew).mpr ⟨ht, hlower, hupper⟩
    refine ⟨fun d hd hwrong ↦ ?_, fun ⟨htruncated, hlower, hupper⟩ ↦ hlower.not_ge ?_⟩
    · have hsame (d' : ℤ) (hd' : d' ∈ start) : d' = d := Option.mem_unique hd' hd
      obtain heq | ⟨hlower, hupper⟩ := start_of_wrong hwrong
      · refine (h.apart t (hin (fun d' hd' ↦ ?_) ?_) d hd).ne heq.symm
        · rw [hsame d' hd', heq]
        · exact heq.le.trans ((hcut hd).trans (cuts_around through).2)
      · have hlisted := (h.listed t ht).mpr ⟨fun d' hd' ↦ hsame d' hd' ▸ hlower,
          hupper.le.trans (hcut hd)⟩
        exact (h.apart t hlisted d hd).not_gt hupper
    · refine ((h.listed t ht).mp (hin (fun d hd ↦ ((hcut hd).trans_lt hlower).le) ?_)).2
      rwa [(cuts_of_truncated htruncated).1]
  · intro h
    refine ⟨fun a c ↦ ?_, fun t ht d hd ↦ ?_, fun t ht ↦ ?_⟩
    · rw [← h.movement hdoc horder a c, journal, take_of_length_le hfew.le]
      exact ((perm_insertionSort _ _).map _).sum_eq
    · obtain ⟨ht, hin⟩ := (mem_journal hfew).mp ht
      exact h.apart ht hin hd
    · rw [mem_journal hfew, ← h.inPeriod_iff ht]
      exact and_iff_right ht

/-- An entry one millisecond before a day. -/
def lateEntry : Transaction Unit Unit ℤ := ⟨1, 86399999, [⟨(), (), 5⟩]⟩

def lateTrial (cut : ℤ) (a c : Unit) : ℤ :=
  booked ([lateEntry].filter fun t ↦ t.effectiveDate ≤ cut) a c

theorem agrees_iff_late : Agrees [lateEntry] (some 86400000) 86400000 lateTrial ↔
    Clear [lateEntry] (some 86400000) 86400000 :=
  agrees_iff (fun _ _ _ ↦ rfl) (by simp) (by decide)

/-- The entry is listed although the opening balance has it. -/
theorem entry_before_period_listed : ¬ Agrees [lateEntry] (some 86400000) 86400000 lateTrial := by
  intro h
  have hlisted : lateEntry ∈ journal [lateEntry] (some 86400000) 86400000 :=
    (mem_journal (by decide)).mpr ⟨mem_cons_self, by decide⟩
  exact absurd (h.apart lateEntry hlisted 86400000 rfl) (by decide)

end Simmis.Books
