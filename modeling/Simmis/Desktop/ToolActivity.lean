import Mathlib.Data.List.SplitBy
import Mathlib.Data.List.TakeWhile
import Mathlib.Data.List.Infix

/-!
# Grouping of tool calls

The calls of a run are listed in order. A first pass gathers three calls of one tool in a row, or
two that write; a second gathers what is then left side by side. Neither takes a call that failed
or that somebody has to look at.
-/

namespace Simmis.ToolActivity

open List

/-- The keywords that are told apart. -/
inductive Keyword
  | error | denied | requiresDecision | pendingApproval | rejected
  | other (name : String)
deriving DecidableEq

/-- The decision is that of the authorization. -/
structure Call where
  id : String
  name : Option String
  error : Bool
  status : Option Keyword
  decision : Option Keyword
  approval : Option Keyword

inductive Family
  | read | write | execute | observe | coordinate | generic | mixed
deriving DecidableEq

/-- `str/lower-case`; of the letters outside ASCII only the two that turn into ASCII are changed. -/
def lowerCase (s : String) : List Char :=
  s.toList.flatMap fun c ↦
    if c = Char.ofNat 0x212A then ['k']
    else if c = Char.ofNat 0x130 then ['i', Char.ofNat 0x307]
    else [c.toLower]

def familyWords : List (Family × List String) :=
  [(.read, ["read", "search", "query", "find", "list", "look", "view", "fetch", "get", "slurp"]),
    (.write, ["write", "edit", "patch", "create", "add", "update", "delete", "remove", "transact"]),
    (.execute, ["shell", "bash", "command", "exec", "clojure_eval"]),
    (.observe, ["browser", "chrome", "screen", "image"]),
    (.coordinate, ["agent", "spawn", "collabor", "message", "notify"])]

def toolFamily (toolName : Option String) : Family :=
  let n := lowerCase (toolName.getD "tool")
  ((familyWords.find? fun w ↦ w.2.any fun word ↦ word.toList <:+: n).map Prod.fst).getD .generic

def familyLabel (family : Family) (count : ℕ) : String :=
  let label (did noun : String) :=
    did ++ " " ++ toString count ++ " " ++ noun ++ if count = 1 then "" else "s"
  match family with
  | .read => label "Read from" "source"
  | .write => label "Changed" "item"
  | .execute => label "Ran" "command"
  | .observe => label "Inspected" "view"
  | .coordinate => label "Coordinated" "action"
  | .generic | .mixed => label "Ran" "tool call"

/-- `grouping-eligible?` -/
def groupingEligible (call : Call) : Bool :=
  !call.error && call.status ≠ some .error && call.decision ≠ some .denied &&
    call.decision ≠ some .requiresDecision && call.approval ≠ some .pendingApproval &&
    call.approval ≠ some .rejected

inductive Variant
  | sameKind | mixed

inductive Segment
  | call (call : Call)
  | summary (variant : Variant) (family : Family) (label : String) (calls : List Call)

def minimum (family : Family) : ℕ := if family = .write then 2 else 3

/-- A run begins with the call that it is named after, which is eligible. -/
def sameKindPass : List Call → List Segment
  | [] => []
  | call :: rest =>
    if groupingEligible call then
      let family := toolFamily call.name
      let same (c : Call) : Bool := groupingEligible c && call.name = c.name
      let run := call :: rest.takeWhile same
      (if minimum family ≤ run.length then
        [.summary .sameKind family (familyLabel family run.length) run]
      else run.map .call) ++ sameKindPass (rest.dropWhile same)
    else .call call :: sameKindPass rest
termination_by calls => calls.length
decreasing_by
  · exact Nat.lt_succ_of_le (dropWhile_suffix _).length_le
  · exact Nat.lt_succ_self _

/-- `burst-participant?` -/
def burstParticipant : Segment → Bool
  | .call call => groupingEligible call
  | .summary .sameKind _ _ _ => true
  | .summary .mixed _ _ _ => false

def segmentCalls : Segment → List Call
  | .call call => [call]
  | .summary _ _ _ calls => calls

def mixedSummary (calls : List Call) : Segment :=
  .summary .mixed .mixed ("Ran " ++ toString calls.length ++ " tool calls") calls

def mixedPass : List Segment → List Segment
  | [] => []
  | segment :: rest =>
    if burstParticipant segment then
      let burst := segment :: rest.takeWhile burstParticipant
      if 2 ≤ burst.length then
        mixedSummary (burst.flatMap segmentCalls) :: mixedPass (rest.dropWhile burstParticipant)
      else segment :: mixedPass rest
    else segment :: mixedPass rest
termination_by segments => segments.length
decreasing_by
  · exact Nat.lt_succ_of_le (dropWhile_suffix _).length_le
  · exact Nat.lt_succ_self _
  · exact Nat.lt_succ_self _

def groupToolActivity (calls : List Call) : List Segment := mixedPass (sameKindPass calls)

variable {call : Call} {calls rest : List Call}

/-- One tool, called as often as a summary of its own asks for. -/
def SameKind (call : Call) (rest : List Call) : Prop :=
  (∀ c ∈ rest, c.name = call.name) ∧ minimum (toolFamily call.name) ≤ rest.length + 1

instance (call : Call) (rest : List Call) : Decidable (SameKind call rest) :=
  inferInstanceAs (Decidable (_ ∧ _))

/-- What a stretch of calls is shown as. -/
def shown : List Call → Option Segment
  | [] => none
  | [call] => some (.call call)
  | call :: rest =>
    let family := toolFamily call.name
    some (if SameKind call rest then
      .summary .sameKind family (familyLabel family (rest.length + 1)) (call :: rest)
    else mixedSummary (call :: rest))

theorem span_append {α : Type*} {p : α → Bool} {rest : List α} (hrest : ∀ a ∈ rest.head?, p a = false)
    (l : List α) :
    (l ++ rest).takeWhile p = l.takeWhile p ∧ (l ++ rest).dropWhile p = l.dropWhile p ++ rest := by
  induction l with
  | nil => cases rest <;> simp_all
  | cons a l ih => by_cases ha : p a = true <;> simp [ha, ih]

/-- A stretch of eligible calls leaves the first pass as segments that the second takes up, as one
just when it is a single call or of one kind. -/
theorem sameKindPass_stretch (hcalls : ∀ c ∈ calls, groupingEligible c)
    (hrest : ∀ c ∈ rest.head?, groupingEligible c = false) :
    ∃ segments, sameKindPass (calls ++ rest) = segments ++ sameKindPass rest ∧
      segments.flatMap segmentCalls = calls ∧ (∀ s ∈ segments, burstParticipant s) ∧
      (segments.length ≤ 1 ∧ shown calls = segments.head? ∨
        2 ≤ segments.length ∧ shown calls = some (mixedSummary calls)) := by
  induction hn : calls.length using Nat.strong_induction_on generalizing calls with
  | _ n ih =>
  subst hn
  cases calls with
  | nil => exact ⟨[], rfl, rfl, by simp, .inl ⟨Nat.zero_le _, rfl⟩⟩
  | cons call calls =>
    obtain ⟨hcall, hcalls⟩ := forall_mem_cons.mp hcalls
    rw [cons_append, sameKindPass, if_pos hcall]
    dsimp only
    generalize hsame : (fun c : Call ↦ groupingEligible c && call.name = c.name) = same
    have hname : (∀ c ∈ calls, c.name = call.name) ↔ ∀ c ∈ calls, same c :=
      forall₂_congr fun c hc ↦ by simp [← hsame, hcalls c hc, eq_comm]
    obtain ⟨htake, hdrop⟩ := span_append (p := same) (fun c hc ↦ by simp [← hsame, hrest c hc]) calls
    obtain ⟨later, hpass, hflat, hlater, -⟩ := ih (calls.dropWhile same).length
      (Nat.lt_succ_of_le (dropWhile_suffix _).length_le)
      (fun c hc ↦ hcalls c (dropWhile_subset _ hc)) rfl
    have hone : ¬minimum (toolFamily call.name) ≤ 1 := by
      unfold minimum
      split <;> decide
    rw [htake, hdrop, hpass, ← append_assoc]
    refine ⟨_, rfl, ?_, ?_, ?_⟩
    · rw [flatMap_append, hflat]
      split <;> simp [segmentCalls, flatMap_map]
    · refine forall_mem_append.mpr ⟨?_, hlater⟩
      split
      · simp [burstParticipant]
      · simpa [burstParticipant, hcall] using fun c hc ↦ hcalls c (takeWhile_subset _ hc)
    · cases calls with
      | nil =>
        obtain rfl : later = [] := by simpa using hpass
        exact .inl (by simp [hone, shown])
      | cons d calls =>
        by_cases htool : ∀ c ∈ d :: calls, same c
        · rw [takeWhile_eq_self_iff.mpr htool]
          obtain rfl : later = [] := by simpa [dropWhile_eq_nil_iff.mpr htool] using hpass
          by_cases hkind : SameKind call (d :: calls)
          · have hlength : minimum (toolFamily call.name) ≤ (call :: d :: calls).length := hkind.2
            rw [if_pos hlength]
            exact .inl ⟨le_rfl, congrArg some (if_pos hkind)⟩
          · have hshort := fun hlength ↦ hkind ⟨hname.mpr htool, hlength⟩
            refine .inr ⟨?_, congrArg some (if_neg hkind)⟩
            rw [length_cons, if_neg hshort]
            simp
        · refine .inr ⟨?_, congrArg some (if_neg fun hkind ↦ htool (hname.mp hkind.1))⟩
          have hleft : later.length ≠ 0 := by
            intro hnone
            rw [length_eq_zero_iff.mp hnone] at hflat
            exact htool (dropWhile_eq_nil_iff.mp hflat.symm)
          split <;> simp <;> omega

theorem mixedPass_append {segments later : List Segment}
    (hsegments : ∀ t ∈ segments, burstParticipant t)
    (hlater : ∀ t ∈ later.head?, burstParticipant t = false) :
    mixedPass (segments ++ later) = (if segments.length ≤ 1 then segments else
      [mixedSummary (segments.flatMap segmentCalls)]) ++ mixedPass later := by
  cases segments with
  | nil => rfl
  | cons s segments =>
    obtain ⟨hs, hsegments⟩ := forall_mem_cons.mp hsegments
    obtain ⟨htake, hdrop⟩ := span_append hlater segments
    rw [takeWhile_eq_self_iff.mpr hsegments] at htake
    rw [dropWhile_eq_nil_iff.mpr hsegments, nil_append] at hdrop
    rw [cons_append, mixedPass, if_pos hs]
    rw [htake, hdrop]
    cases segments <;> simp

/-- The calls of a run fall into stretches of eligible ones, and single others. -/
def stretches (calls : List Call) : List (List Call) :=
  calls.splitBy fun c d ↦ groupingEligible c && groupingEligible d

theorem stretches_append (calls : List Call) (hends : ∀ c ∈ calls.getLast?, ∀ d ∈ rest.head?,
    groupingEligible c = false ∨ groupingEligible d = false) :
    stretches (calls ++ rest) = stretches calls ++ stretches rest :=
  splitBy_append fun c hc d hd ↦ by rcases hends c hc d hd with h | h <;> simp [h]

/-- Every stretch is shown as one segment. -/
theorem groupToolActivity_eq (calls : List Call) :
    groupToolActivity calls = (stretches calls).filterMap shown := by
  induction hn : calls.length using Nat.strong_induction_on generalizing calls with
  | _ n ih =>
  subst hn
  cases calls with
  | nil => simp [groupToolActivity, sameKindPass, mixedPass, stretches]
  | cons call rest =>
    by_cases heligible : groupingEligible call
    · generalize htake : call :: rest.takeWhile groupingEligible = stretch
      generalize hdrop : rest.dropWhile groupingEligible = later
      have hcalls : ∀ c ∈ stretch, groupingEligible c := by
        simpa [← htake, heligible] using fun c hc ↦ mem_takeWhile_imp hc
      have hlater : ∀ c ∈ later.head?, groupingEligible c = false := by
        have hhead := head?_dropWhile_not groupingEligible rest
        intro c hc
        rwa [hdrop, Option.mem_def.mp hc] at hhead
      have hsplit : call :: rest = stretch ++ later := by
        rw [← htake, ← hdrop, cons_append, takeWhile_append_dropWhile]
      have hless : later.length < (call :: rest).length :=
        hdrop ▸ Nat.lt_succ_of_le (dropWhile_suffix _).length_le
      have hchain : stretch.IsChain fun c d ↦ (groupingEligible c && groupingEligible d) :=
        (pairwise_of_forall_mem_list fun c hc d hd ↦ by simp [hcalls c hc, hcalls d hd]).isChain
      have hone : stretches stretch = [stretch] :=
        splitBy_of_isChain (htake ▸ cons_ne_nil _ _) hchain
      have hhead : ∀ t ∈ (sameKindPass later).head?, burstParticipant t = false := by
        cases later with
        | nil => simp [sameKindPass]
        | cons c later =>
          have hc : groupingEligible c = false := hlater c rfl
          simp [sameKindPass, hc, burstParticipant]
      obtain ⟨segments, hpass, hflat, hpart, hshown⟩ := sameKindPass_stretch hcalls hlater
      rw [hsplit, groupToolActivity, hpass, mixedPass_append hpart hhead, hflat, stretches_append _
        (fun _ _ d hd ↦ .inr (hlater d hd)), hone, filterMap_append, ← ih _ hless _ rfl]
      rcases hshown with ⟨hlength, hshown⟩ | ⟨hlength, hshown⟩
      · rcases segments with - | ⟨s, - | ⟨t, segments⟩⟩ <;> simp_all [groupToolActivity]
      · rw [if_neg (by omega)]
        simp [hshown, groupToolActivity]
    · have hsplit : stretches (call :: rest) = [call] :: stretches rest :=
        stretches_append [call] fun x hx _ _ ↦ .inl (by simp_all)
      rw [hsplit, filterMap_cons, ← ih _ (Nat.lt_succ_self _) _ rfl]
      simp [groupToolActivity, sameKindPass, mixedPass, heligible, burstParticipant, shown]

theorem segmentCalls_of_shown {segment : Segment} (h : shown calls = some segment) :
    segmentCalls segment = calls := by
  rcases calls with - | ⟨c, - | ⟨d, calls⟩⟩
  · cases h
  · cases h
    rfl
  · rw [← Option.some.inj h]
    split <;> rfl

theorem eligible_of_isChain {d : Call} (h : (call :: d :: rest).IsChain fun c d ↦
    (groupingEligible c && groupingEligible d)) : ∀ c ∈ call :: d :: rest, groupingEligible c := by
  induction rest generalizing call d with
  | nil => simp_all
  | cons e rest ih =>
    obtain ⟨hpair, hchain⟩ := isChain_cons_cons.mp h
    have hlater := ih hchain
    simp_all

/-- The digits of a label spell the number of calls. -/
theorem digits_label {variant : Variant} {family : Family} {label : String}
    (h : shown rest = some (.summary variant family label calls)) :
    label.toList.filter Char.isDigit = (toString calls.length).toList := by
  have hdigits (n : ℕ) : ∀ c ∈ Nat.toDigits 10 n, c.isDigit := fun c hc ↦
    Nat.isDigit_of_mem_toDigits (by decide) (by decide) hc
  rcases rest with - | ⟨c, - | ⟨d, rest⟩⟩
  · cases h
  · cases h
  · have hlabel := Option.some.inj h
    split at hlabel
    · cases hlabel
      cases toolFamily c.name <;> simpa [familyLabel] using hdigits _
    · cases hlabel
      simpa using hdigits _

/-- Every failure and every call stays in sight. -/
theorem groupToolActivity_hides_nothing (calls : List Call) :
    (groupToolActivity calls).flatMap segmentCalls = calls ∧
    (groupToolActivity calls).map segmentCalls = stretches calls ∧
    ((groupToolActivity calls).IsChain fun s t ↦ ¬((∀ c ∈ segmentCalls s, groupingEligible c) ∧
      ∀ c ∈ segmentCalls t, groupingEligible c)) ∧ ∀ segment ∈ groupToolActivity calls,
      shown (segmentCalls segment) = some segment ∧ (∀ call ∈ segmentCalls segment,
        call.error ∨ call.status = some .error ∨ call.decision = some .denied ∨
          call.decision = some .requiresDecision ∨ call.approval = some .pendingApproval ∨
          call.approval = some .rejected → segment = .call call) ∧
      ∀ variant family label calls, segment = .summary variant family label calls →
        label.toList.filter Char.isDigit = (toString calls.length).toList := by
  have hlists : (groupToolActivity calls).map segmentCalls = stretches calls := by
    have hshown : ∀ l ∈ stretches calls, (shown l).map segmentCalls = some l := by
      intro l hl
      obtain ⟨s, hs⟩ : ∃ s, shown l = some s := by
        rcases l with - | ⟨c, - | ⟨d, l⟩⟩
        · exact absurd hl (nil_notMem_splitBy _ _)
        · exact ⟨_, rfl⟩
        · exact ⟨_, rfl⟩
      rw [hs, Option.map_some, segmentCalls_of_shown hs]
    rw [groupToolActivity_eq, map_filterMap, filterMap_congr hshown, filterMap_some]
  have hshown (segment : Segment) (hsegment : segment ∈ groupToolActivity calls) :
      shown (segmentCalls segment) = some segment := by
    rw [groupToolActivity_eq] at hsegment
    obtain ⟨l, -, hl⟩ := mem_filterMap.mp hsegment
    rw [segmentCalls_of_shown hl, hl]
  refine ⟨?_, hlists, ?_, fun segment hsegment ↦ ⟨hshown _ hsegment, fun call hcall hexplicit ↦ ?_,
    fun variant family label calls heq ↦ ?_⟩⟩
  · rw [flatMap_def, hlists]
    exact flatten_splitBy _ _
  · have hends := isChain_getLast_head_splitBy
      (fun c d ↦ groupingEligible c && groupingEligible d) calls
    rw [← stretches, ← hlists, isChain_map] at hends
    refine hends.imp fun s t ⟨hs, ht, hfailed⟩ ⟨hall, hall'⟩ ↦ ?_
    simp [hall _ (getLast_mem hs), hall' _ (head_mem ht)] at hfailed
  · have hchain : (segmentCalls segment).IsChain fun c d ↦
        (groupingEligible c && groupingEligible d) :=
      isChain_of_mem_splitBy (hlists ▸ mem_map_of_mem hsegment)
    have hfailed : groupingEligible call = false := by
      rcases hexplicit with h | h | h | h | h | h <;> simp [groupingEligible, h]
    have hthis := hshown _ hsegment
    rcases hcalls : segmentCalls segment with - | ⟨c, - | ⟨d, rest⟩⟩
    · simp [hcalls] at hcall
    · rw [hcalls] at hcall hthis
      rw [← Option.some.inj hthis, mem_singleton.mp hcall]
    · rw [hcalls] at hcall hchain
      simp [eligible_of_isChain hchain call hcall] at hfailed
  · exact digits_label (heq ▸ hshown _ hsegment)

end Simmis.ToolActivity
