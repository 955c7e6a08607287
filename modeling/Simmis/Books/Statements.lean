import Mathlib.Algebra.BigOperators.Group.List.Basic
import Mathlib.Data.List.Sort
import Mathlib.Tactic.Abel

/-!
# The statements of a book

Balance sheet and trial balance arrange one list of balance rows. Debits are
positive; the sections show liabilities, equity and income with the sign turned.
-/

namespace Simmis.Books

open List

inductive AccountType where
  | asset | liability | equity | income | expense
deriving DecidableEq

/-- A balance row. -/
structure Row (C M : Type) where
  path : String
  name : Option String
  type : AccountType
  commodity : C
  amount : M

/-- A section; `result` is its last line, "Result not yet closed". -/
structure Section (C M : Type) where
  type : AccountType
  lines : List (Row C M)
  result : Option M
  total : M

structure BalanceSheet (C M : Type) where
  commodity : C
  assets : Section C M
  liabilities : Section C M
  equity : Section C M
  liabilitiesAndEquity : M
  isBalanced : Bool

structure TrialLine (C M : Type) extends Row C M where
  debit : Option M
  credit : Option M

structure TrialBalance (C M : Type) where
  commodity : C
  lines : List (TrialLine C M)
  debits : M
  credits : M
  isBalanced : Bool

/-- `credit-normal` -/
def AccountType.isCreditNormal : AccountType → Bool
  | .liability | .equity | .income => true
  | .asset | .expense => false

/-- Income and expense accounts, `pl?`. -/
def AccountType.isResult : AccountType → Bool
  | .income | .expense => true
  | .asset | .liability | .equity => false

variable {C M : Type} [AddCommGroup M]

def natural (r : Row C M) : M := if r.type.isCreditNormal then -r.amount else r.amount

def total (amounts : List M) : M := amounts.sum

/-- `section` -/
def sectionOf (rows : List (Row C M)) (type : AccountType) : Section C M :=
  let lines := (rows.filter (·.type = type)).map fun r ↦ { r with amount := natural r }
  ⟨type, lines, none, total (lines.map (·.amount))⟩

section

variable (rows : List (Row C M))

theorem sections_total : (sectionOf rows .asset).total - ((sectionOf rows .liability).total +
    ((sectionOf rows .equity).total - total ((rows.filter (·.type.isResult)).map (·.amount)))) =
      total (rows.map (·.amount)) := by
  induction rows with
  | nil => simp [sectionOf, total]
  | cons r rows ih =>
    have hcons : total ((r :: rows).map (·.amount)) = r.amount + total (rows.map (·.amount)) :=
      sum_cons
    rw [hcons, ← ih]
    cases htype : r.type <;>
      simp [sectionOf, total, natural, htype, AccountType.isCreditNormal, AccountType.isResult] <;>
      abel

end

variable [LinearOrder C]

/-- The rows of each commodity, in the order of the commodities. -/
def byCommodity (rows : List (Row C M)) : List (C × List (Row C M)) :=
  ((rows.map (·.commodity)).dedup.insertionSort (· ≤ ·)).map fun c ↦
    (c, rows.filter (·.commodity = c))

variable [LinearOrder M]

/-- The sheet of one commodity; a result of zero has no line. -/
def sheetOf (c : C) (rows : List (Row C M)) : BalanceSheet C M :=
  let assets := sectionOf rows .asset
  let liabilities := sectionOf rows .liability
  let equity := sectionOf rows .equity
  let result := -total ((rows.filter (·.type.isResult)).map (·.amount))
  let equity := if result = 0 then equity
    else { equity with result := some result, total := equity.total + result }
  let claims := liabilities.total + equity.total
  ⟨c, assets, liabilities, equity, claims, assets.total = claims⟩

def balanceSheet (rows : List (Row C M)) : List (BalanceSheet C M) :=
  (byCommodity rows).map fun g ↦ sheetOf g.1 g.2

def trialOf (c : C) (rows : List (Row C M)) : TrialBalance C M :=
  let lines := rows.map fun r ↦
    { r with
      debit := if 0 < r.amount then some r.amount else none
      credit := if r.amount < 0 then some (-r.amount) else none : TrialLine C M }
  let debits := total (lines.filterMap (·.debit))
  let credits := total (lines.filterMap (·.credit))
  ⟨c, lines, debits, credits, debits = credits⟩

def trialBalance (rows : List (Row C M)) : List (TrialBalance C M) :=
  (byCommodity rows).map fun g ↦ trialOf g.1 g.2

variable (rows : List (Row C M))

omit [LinearOrder C] in
theorem columns_total :
    total (rows.filterMap fun r ↦ if 0 < r.amount then some r.amount else none) -
      total (rows.filterMap fun r ↦ if r.amount < 0 then some (-r.amount) else none) =
    total (rows.map (·.amount)) := by
  induction rows with
  | nil => simp [total]
  | cons r rows ih =>
    have hcons : total ((r :: rows).map (·.amount)) = r.amount + total (rows.map (·.amount)) :=
      sum_cons
    rw [hcons, ← ih]
    rcases lt_trichotomy r.amount 0 with hneg | hzero | hpos
    · simp [total, hneg, hneg.not_gt]
      abel
    · simp [total, hzero]
    · simp [total, hpos, hpos.not_gt]
      abel

omit [LinearOrder C] in
theorem equity_total (c : C) : (sheetOf c rows).equity.total = (sectionOf rows .equity).total -
    total ((rows.filter (·.type.isResult)).map (·.amount)) := by
  rw [sub_eq_add_neg]
  dsimp only [sheetOf]
  split
  · next hzero => rw [hzero, add_zero]
  · rfl

/-- A sheet is out of balance by what the trial balance of its commodity is. -/
theorem sheet_agrees_with_trial :
    (balanceSheet rows).map (fun s ↦
        (s.commodity, s.assets.total - s.liabilitiesAndEquity, s.isBalanced)) =
      (trialBalance rows).map fun t ↦ (t.commodity, t.debits - t.credits, t.isBalanced) := by
  rw [balanceSheet, trialBalance, List.map_map, List.map_map]
  refine map_congr_left fun ⟨c, rows⟩ _ ↦ ?_
  have hequal : (sheetOf c rows).assets.total - (sheetOf c rows).liabilitiesAndEquity =
      (trialOf c rows).debits - (trialOf c rows).credits := by
    calc
      _ = total (rows.map (·.amount)) := by
        rw [← sections_total, ← equity_total rows c]
        rfl
      _ = _ := by
        rw [← columns_total]
        simp only [trialOf, filterMap_map, Function.comp_def]
  have hbalanced : (sheetOf c rows).assets.total = (sheetOf c rows).liabilitiesAndEquity ↔
      (trialOf c rows).debits = (trialOf c rows).credits := by
    rw [← sub_eq_zero, hequal, sub_eq_zero]
  exact congr_arg (Prod.mk c) (Prod.ext hequal (decide_eq_decide.mpr hbalanced))

end Simmis.Books
