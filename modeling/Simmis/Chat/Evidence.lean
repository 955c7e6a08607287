import Simmis.Library.Fences
import Simmis.Library.Runs
import Simmis.Library.StrictUtf8
import Mathlib.Data.Prod.Lex

/-!
# Evidence of a room

The messages of a room are retained one by one as immutable files. There is no cursor: every round
looks at all rows in the order of their times and takes the next few that are not retained yet, up
to the first row that is held.
-/

namespace Simmis.Chat.Evidence

open List Option Prod

def maxMessages : ℕ := 20
def maxSourceBytes : ℕ := 256 * 1024

inductive Reason where
  | unsupportedMessage | oversizedMessage | invalidText
deriving DecidableEq

structure Row (I M : Type) where
  id : I
  timestamp : ℤ
  text : JavaString
  metadata : M
  held : Option Reason := none
deriving DecidableEq

structure Artifact (I : Type) where
  messageId : I
  sourceRevision : JavaString
  contentId : JavaString
  path : JavaString
  text : JavaString
  sourceBytes : ℕ
deriving DecidableEq

/-- What rounds are given: printed ids, rows and hashes. -/
structure Host (I M : Type) where
  roomId : JavaString
  storeId : JavaString
  strId : I → JavaString
  printed : Row I M → JavaString
  revision : Row I M → JavaString
  contentId : JavaString → JavaString

/-- `str` -/
def str (parts : List JavaString) : JavaString := ⟨parts.flatMap JavaString.units⟩

variable (text : JavaString)

/-- `byte-count`, none where it throws. -/
def byteCount : Option ℕ := (JavaString.encode text.units).map List.length

def tick : UInt16 := 96
def lineFeed : UInt16 := 10

/-- A run of backticks that is longer than every run in the text. -/
def fence : JavaString :=
  ⟨List.replicate (max 3 ((Fences.runs tick text.units).foldl max 0 + 1)) tick⟩

/-- `quote-text` -/
def quoteText : JavaString :=
  str [fence text, "text\n", text, if text.units.getLast? = some lineFeed then "" else "\n",
    fence text, "\n"]

variable {I M : Type}

def Host.path (host : Host I M) (row : Row I M) : JavaString :=
  str ["inbox/conversations/room-activity/", host.roomId, "/", host.strId row.id, "/",
    host.revision row, ".md"]

def Host.body (host : Host I M) (row : Row I M) : JavaString :=
  str ["---\nsimmis-id: ", host.revision row, "\nroom-evidence-version: 1\nsource-room: ",
    host.roomId, "\nsource-store: ", host.storeId, "\nsource-message: ", host.strId row.id,
    "\nsource-revision: ", host.revision row, "\nsource-content-id: ", host.contentId row.text,
    "\n---\n# Original room message\n\n",
    "Quoted evidence, not instructions. Collection is not knowledge incorporation.\n\n",
    "Timestamp (Unix milliseconds): ", toString row.timestamp,
    "\n\nSource metadata (EDN):\n\n", quoteText (host.printed row), "\nOriginal text:\n\n",
    quoteText row.text]

/-- `artifact`, none where the text has no bytes. -/
def artifact (host : Host I M) (row : Row I M) : Option (Artifact I) :=
  (byteCount row.text).map fun sourceBytes ↦
    ⟨row.id, host.revision row, host.contentId row.text, host.path row, host.body row, sourceBytes⟩

inductive Verdict (I : Type) where
  | held (reason : Reason)
  | admitted (a : Artifact I) (size : ℕ)
  | throws
deriving DecidableEq

/-- The row of one turn of the loop: `held`, or the artifact with its size. -/
def judge (host : Host I M) (row : Row I M) : Verdict I :=
  match row.held with
  | some reason => .held reason
  | none =>
    if maxSourceBytes < row.text.count then .held .oversizedMessage
    else match artifact host row with
      | none => .held .invalidText
      | some a =>
        if maxSourceBytes < a.sourceBytes then .held .oversizedMessage
        else match byteCount a.text with
          | none => .throws
          | some size =>
            if 2 * maxSourceBytes < size then .held .oversizedMessage else .admitted a size

inductive Outcome (I : Type) where
  | ready
  | bounded
  | held (messageId : I) (reason : Reason)
deriving DecidableEq

structure Plan (I : Type) where
  artifacts : List (Artifact I)
  retainedCount : ℕ
  outcome : Outcome I
deriving DecidableEq

/-- The loop of `select-next`. -/
def select (host : Host I M) (retained : Artifact I → Bool) :
    List (Row I M) → List (Artifact I) → ℕ → ℕ → Option (Plan I)
  | [], selected, _, count => some ⟨selected, count, .ready⟩
  | row :: rest, selected, bytes, count =>
    match judge host row with
    | .throws => none
    | .held reason => some ⟨selected, count, .held row.id reason⟩
    | .admitted a size =>
      if retained a then select host retained rest selected bytes (count + 1)
      else if selected.length = maxMessages ∨ 2 * maxSourceBytes < bytes + size then
        some ⟨selected, count, .bounded⟩
      else select host retained rest (selected ++ [a]) (bytes + size) count

/-- `(juxt :timestamp (comp str :id))` -/
def Host.key (host : Host I M) (row : Row I M) : ℤ ×ₗ JavaString :=
  toLex (row.timestamp, host.strId row.id)

def Host.sorted (host : Host I M) (rows : List (Row I M)) : List (Row I M) :=
  rows.mergeSort fun a b ↦ host.key a ≤ host.key b

/-- `select-next`, none where it throws. -/
def selectNext (host : Host I M) (rows : List (Row I M)) (retained : Artifact I → Bool) :
    Option (Plan I) :=
  select host retained (host.sorted rows) [] 0 0

structure World (I M : Type) where
  rows : List (Row I M) := []
  retained : List (Artifact I) := []

inductive Event (I M : Type) where
  | add (rows : List (Row I M))
  | round

/-- `retained?`: the file at the path has exactly the text. -/
def World.isRetained (w : World I M) (a : Artifact I) : Bool :=
  w.retained.any fun b ↦ b.path = a.path && b.text = a.text

def World.plan (host : Host I M) (w : World I M) : Option (Plan I) :=
  selectNext host w.rows w.isRetained

/-- A round retains the artifacts that are returned; one that throws retains nothing. -/
def World.round (host : Host I M) (w : World I M) : World I M :=
  { w with retained := w.retained ++ ((w.plan host).map Plan.artifacts).getD [] }

def step (host : Host I M) (w : World I M) : Event I M → World I M
  | .add rows => { w with rows := w.rows ++ rows }
  | .round => w.round host

def Enc (s : JavaString) : Prop := JavaString.Encodable s.units

theorem enc_str {parts : List JavaString} (h : ∀ s ∈ parts, Enc s) : Enc (str parts) := by
  induction parts with
  | nil => rfl
  | cons s parts ih =>
    obtain ⟨hs, hparts⟩ := forall_mem_cons.mp h
    exact JavaString.Encodable.append hs (ih hparts)

theorem enc_ofString (s : String) : Enc s := JavaString.encodable_ofString s

theorem enc_fence : Enc (fence text) := by
  unfold fence
  generalize max 3 _ = n
  induction n with
  | zero => rfl
  | succ n ih => exact (JavaString.encodable_cons (by decide)).mpr ih

theorem enc_quoteText {text : JavaString} (h : Enc text) : Enc (quoteText text) := by
  have hfeed : Enc (if text.units.getLast? = some lineFeed then "" else "\n") := by
    split <;> exact enc_ofString _
  exact enc_str (by simp [h, hfeed, enc_fence, enc_ofString])

/-- The printed ids and hashes have bytes; a hash is printed as a UUID. -/
structure Host.Lawful (host : Host I M) : Prop where
  roomId : Enc host.roomId
  storeId : Enc host.storeId
  strId : ∀ id, Enc (host.strId id)
  revision : ∀ row, Enc (host.revision row)
  contentId : ∀ text, Enc (host.contentId text)
  length : ∀ row, (host.revision row).units.length = 36

variable {host : Host I M} {row : Row I M} {rows : List (Row I M)} {w : World I M}

theorem Host.Lawful.revision_eq (h : host.Lawful) {row' : Row I M}
    (hpath : host.path row = host.path row') : host.revision row = host.revision row' := by
  have hsplit : ∀ row, ∃ front, (host.path row).units =
      front ++ ((host.revision row).units ++ (JavaString.ofString ".md").units) := fun row ↦
    ⟨(str ["inbox/conversations/room-activity/", host.roomId, "/", host.strId row.id, "/"]).units,
      by simp [Host.path, str]⟩
  obtain ⟨front, hfront⟩ := hsplit row
  obtain ⟨front', hfront'⟩ := hsplit row'
  rw [hpath, hfront'] at hfront
  have htail := append_inj_right' hfront (by simp [h.length])
  exact congrArg JavaString.mk (append_inj_left' htail rfl).symm

theorem byteCount_isSome {text : JavaString} (h : Enc text) : ∃ n, byteCount text = some n := by
  obtain ⟨bytes, hbytes⟩ := isSome_iff_exists.mp h
  exact ⟨bytes.length, by rw [byteCount, hbytes]; rfl⟩

theorem judge_eq_admitted {a : Artifact I} {size : ℕ} (h : judge host row = .admitted a size) :
    artifact host row = some a ∧ byteCount a.text = some size ∧ size ≤ 2 * maxSourceBytes := by
  unfold judge at h
  split at h
  · exact nomatch h
  split at h
  · exact nomatch h
  split at h
  · exact nomatch h
  next b hb =>
    split at h
    · exact nomatch h
    split at h
    · exact nomatch h
    next n hn =>
      split at h
      · exact nomatch h
      · cases h
        exact ⟨hb, hn, by omega⟩

theorem artifact_eq_some {a : Artifact I} (h : artifact host row = some a) :
    a.path = host.path row ∧ a.text = host.body row ∧ Enc row.text := by
  obtain ⟨n, hn, rfl⟩ := map_eq_some_iff.mp h
  obtain ⟨bytes, hbytes, -⟩ := map_eq_some_iff.mp hn
  exact ⟨rfl, rfl, isSome_iff_exists.mpr ⟨bytes, hbytes⟩⟩

theorem judge_ne_throws (h : host.Lawful) (hprinted : Enc (host.printed row)) :
    judge host row ≠ .throws := by
  unfold judge
  split
  · exact nofun
  split
  · exact nofun
  split
  · exact nofun
  next a ha =>
    obtain ⟨-, hbody, htext⟩ := artifact_eq_some ha
    have henc : Enc (host.body row) := enc_str (by
      simp [enc_ofString, h.roomId, h.storeId, h.strId, h.revision, h.contentId,
        enc_quoteText hprinted, enc_quoteText htext])
    obtain ⟨n, hn⟩ := byteCount_isSome (hbody ▸ henc)
    rw [hn]
    dsimp only
    split_ifs <;> exact nofun

def Verdict.isHeld : Verdict I → Bool
  | .held _ => true
  | _ => false

/-- The artifacts of the rows before the first one that is held. -/
def admitted (host : Host I M) : List (Row I M) → List (Artifact I × ℕ)
  | [] => []
  | row :: rest => match judge host row with
    | .admitted a size => (a, size) :: admitted host rest
    | _ => []

/-- What the loop has taken: the first unretained artifacts, as many as fit. -/
structure Taken (host : Host I M) (retained : Artifact I → Bool) (rows : List (Row I M))
    (selected : List (Artifact I)) (bytes : ℕ) (plan : Plan I) (taken : List (Artifact I × ℕ)) :
    Prop where
  artifacts : plan.artifacts = selected ++ taken.map Prod.fst
  first : taken <+: (admitted host rows).filter fun p ↦ !retained p.1
  count : selected.length + taken.length ≤ maxMessages
  size : bytes + (taken.map Prod.snd).sum ≤ 2 * maxSourceBytes
  progress : plan.outcome = .bounded → selected = [] → bytes = 0 → taken ≠ []
  all : plan.outcome ≠ .bounded → taken = (admitted host rows).filter fun p ↦ !retained p.1
  ready : plan.outcome = .ready → (admitted host rows).length = rows.length
  held : ∀ id reason, plan.outcome = .held id reason →
    ∃ row ∈ rows[(admitted host rows).length]?, row.id = id ∧ judge host row = .held reason

theorem select_taken {retained : Artifact I → Bool} {selected : List (Artifact I)}
    {bytes count : ℕ} (hthrows : ∀ row ∈ rows, judge host row ≠ .throws)
    (hlength : selected.length ≤ maxMessages) (hbytes : bytes ≤ 2 * maxSourceBytes) :
    ∃ plan taken, select host retained rows selected bytes count = some plan ∧
      Taken host retained rows selected bytes plan taken := by
  induction rows generalizing selected bytes count with
  | nil =>
    refine ⟨_, [], rfl, by simp, by simp [admitted], by simpa, by simpa, nofun, ?_, ?_, nofun⟩
    · simp [admitted]
    · simp [admitted]
  | cons row rest ih =>
    have hrest := fun row hrow ↦ hthrows row (mem_cons_of_mem _ hrow)
    cases hjudge : judge host row with
    | throws => exact absurd hjudge (hthrows row mem_cons_self)
    | held reason =>
      refine ⟨⟨selected, count, .held row.id reason⟩, [], by rw [select, hjudge], by simp, by simp,
        by simpa, by simpa, nofun, ?_, nofun, ?_⟩
      · simp [admitted, hjudge]
      · rintro _ _ ⟨⟩
        exact ⟨row, by simp [admitted, hjudge], rfl, hjudge⟩
    | admitted a size =>
      have hadmitted : admitted host (row :: rest) = (a, size) :: admitted host rest := by
        rw [admitted, hjudge]
      cases hretained : retained a with
      | true =>
        obtain ⟨plan, taken, hselect, h⟩ := @ih selected bytes (count + 1) hrest hlength hbytes
        refine ⟨plan, taken, by rw [select, hjudge]; simpa [hretained] using hselect, h.artifacts, ?_,
          h.count, h.size, h.progress, ?_, ?_, ?_⟩
        · simpa [hadmitted, hretained] using h.first
        · simpa [hadmitted, hretained] using h.all
        · simpa [hadmitted] using h.ready
        · simpa [hadmitted] using h.held
      | false =>
        by_cases hfull : selected.length = maxMessages ∨ 2 * maxSourceBytes < bytes + size
        · refine ⟨⟨selected, count, .bounded⟩, [], by rw [select, hjudge]; simp [hretained, hfull],
            by simp, by simp, by simpa, by simpa, ?_, by simp, nofun, nofun⟩
          rintro - rfl rfl
          have hsize := (judge_eq_admitted hjudge).2.2
          simp [maxMessages] at hfull
          omega
        · have hlength' : (selected ++ [a]).length ≤ maxMessages := by
            rw [length_append, length_singleton]
            omega
          obtain ⟨plan, taken, hselect, h⟩ := @ih _ _ count hrest hlength'
            (show bytes + size ≤ 2 * maxSourceBytes by omega)
          refine ⟨plan, (a, size) :: taken, by rw [select, hjudge]; simpa [hretained, hfull] using hselect,
            by simpa using h.artifacts, ?_, ?_, ?_, by simp, ?_, ?_, ?_⟩
          · simpa [hadmitted, hretained] using h.first
          · have hcount := h.count
            simp at hcount ⊢
            omega
          · have hsize := h.size
            simp at hsize ⊢
            omega
          · intro hne
            simp [hadmitted, hretained, h.all hne]
          · simpa [hadmitted] using h.ready
          · simpa [hadmitted] using h.held

theorem admitted_paths (host : Host I M) (rows : List (Row I M)) :
    (admitted host rows).map (fun p ↦ p.1.path) <+:
      (rows.takeWhile fun row ↦ !(judge host row).isHeld).map host.path := by
  induction rows with
  | nil => simp [admitted]
  | cons row rest ih =>
    rw [admitted]
    split
    · next a size hjudge =>
      obtain ⟨hpath, -⟩ := artifact_eq_some (judge_eq_admitted hjudge).1
      simpa [hpath, hjudge, Verdict.isHeld] using ih
    · simp

theorem mem_admitted {a : Artifact I} {size : ℕ} (h : (a, size) ∈ admitted host rows) :
    ∃ row ∈ rows, judge host row = .admitted a size := by
  induction rows with
  | nil => simp [admitted] at h
  | cons row rest ih =>
    rw [admitted] at h
    split at h
    · next b n hjudge =>
      rcases mem_cons.mp h with heq | h
      · cases heq
        exact ⟨row, mem_cons_self, hjudge⟩
      · obtain ⟨row', hrow', hjudge'⟩ := ih h
        exact ⟨row', mem_cons_of_mem _ hrow', hjudge'⟩
    · exact nomatch h

/-- The rows have ids and metadata of their own, and no hash occurs twice. -/
structure World.Valid (host : Host I M) (w : World I M) : Prop where
  ids : (w.rows.map Row.id).Nodup
  printed : ∀ row ∈ w.rows, Enc (host.printed row)
  hashes : ∀ row ∈ w.rows, ∀ row' ∈ w.rows, host.revision row = host.revision row' → row = row'

/-- Every retained file is the artifact of a row, and stands at a path of its own. -/
structure World.Sound (host : Host I M) (w : World I M) : Prop where
  rows : ∀ a ∈ w.retained, ∃ row ∈ w.rows, a.path = host.path row ∧ a.text = host.body row
  paths : (w.retained.map Artifact.path).Nodup

theorem World.mem_sorted : row ∈ host.sorted w.rows ↔ row ∈ w.rows := mem_mergeSort

/-- The artifacts of the round that are not retained yet. -/
def World.missing (host : Host I M) (w : World I M) : List (Artifact I × ℕ) :=
  (admitted host (host.sorted w.rows)).filter fun p ↦ !w.isRetained p.1

theorem World.plan_taken (hlawful : host.Lawful) (hvalid : w.Valid host) :
    ∃ plan taken, w.plan host = some plan ∧
      Taken host w.isRetained (host.sorted w.rows) [] 0 plan taken :=
  select_taken (fun row hrow ↦ judge_ne_throws hlawful (hvalid.printed row (mem_sorted.mp hrow)))
    (Nat.zero_le _) (Nat.zero_le _)

theorem World.round_retained {plan : Plan I} (h : w.plan host = some plan) :
    (w.round host).retained = w.retained ++ plan.artifacts := by
  simp [World.round, h]

theorem World.Sound.round (h : w.Sound host) (hlawful : host.Lawful) (hvalid : w.Valid host) :
    (w.round host).Sound host := by
  obtain ⟨plan, taken, hplan, ht⟩ := World.plan_taken hlawful hvalid
  have hart : plan.artifacts = taken.map fst := by simpa using ht.artifacts
  have hmem : ∀ a ∈ plan.artifacts, w.isRetained a = false ∧
      ∃ row ∈ w.rows, a.path = host.path row ∧ a.text = host.body row := fun a ha ↦ by
    obtain ⟨⟨b, size⟩, hb, rfl⟩ := mem_map.mp (hart ▸ ha)
    obtain ⟨hadmitted, hretained⟩ := mem_filter.mp (ht.first.subset hb)
    obtain ⟨row, hrow, hjudge⟩ := mem_admitted hadmitted
    obtain ⟨hpath, htext, -⟩ := artifact_eq_some (judge_eq_admitted hjudge).1
    exact ⟨by simpa using hretained, row, mem_sorted.mp hrow, hpath, htext⟩
  refine ⟨fun a ha ↦ ?_, ?_⟩
  · rw [World.round_retained hplan] at ha
    exact (mem_append.mp ha).elim (h.rows a) fun ha ↦ (hmem a ha).2
  · rw [World.round_retained hplan, map_append]
    refine nodup_append'.mpr ⟨h.paths, ?_, fun path hpath hpath' ↦ ?_⟩
    · have hnodup : ((host.sorted w.rows).map host.path).Nodup :=
        List.Nodup.map_on (fun row hrow row' hrow' hpath ↦ hvalid.hashes row (mem_sorted.mp hrow) row'
          (mem_sorted.mp hrow') (hlawful.revision_eq hpath))
          ((mergeSort_perm _ _).nodup_iff.mpr (hvalid.ids.of_map _))
      rw [hart, List.map_map]
      have hfirst := (admitted_paths host (host.sorted w.rows)).sublist
      exact hnodup.sublist ((ht.first.sublist.trans filter_sublist).map _ |>.trans hfirst
        |>.trans ((takeWhile_sublist _).map _))
    · obtain ⟨b, hb, rfl⟩ := mem_map.mp hpath
      obtain ⟨a, ha, hsame⟩ := mem_map.mp hpath'
      obtain ⟨hnew, row, hrow, harow, hatext⟩ := hmem a ha
      obtain ⟨row', hrow', hbrow, hbtext⟩ := h.rows b hb
      obtain rfl := hvalid.hashes row' hrow' row hrow
        (hlawful.revision_eq (hbrow.symm.trans (hsame.symm.trans harow)))
      have hold : w.isRetained a := any_eq_true.mpr ⟨b, hb, by simp [hsame, hatext, hbtext]⟩
      exact nomatch hnew.symm.trans hold

/-- A round that is cut short leaves fewer artifacts for the next one. -/
theorem World.missing_lt {plan : Plan I} {taken : List (Artifact I × ℕ)}
    (hplan : w.plan host = some plan)
    (ht : Taken host w.isRetained (host.sorted w.rows) [] 0 plan taken)
    (hbounded : plan.outcome = .bounded) :
    ((w.round host).missing host).length < (w.missing host).length := by
  have hart : plan.artifacts = taken.map fst := by simpa using ht.artifacts
  have hkept : ∀ a, w.isRetained a → (w.round host).isRetained a := fun a ha ↦ by
    rw [World.isRetained, World.round_retained hplan, any_append, Bool.or_eq_true]
    exact .inl ha
  have hsame : (w.round host).missing host =
      (w.missing host).filter fun p ↦ !(w.round host).isRetained p.1 := by
    rw [World.missing, World.missing, List.filter_filter]
    refine filter_congr fun p _ ↦ ?_
    cases hretained : w.isRetained p.1 with
    | true => simp [hkept p.1 hretained]
    | false => simp
  rw [hsame, length_filter_lt_length_iff_exists]
  obtain ⟨p, rest, htaken⟩ := exists_cons_of_ne_nil (ht.progress hbounded rfl rfl)
  have hp : p ∈ taken := htaken ▸ mem_cons_self
  refine ⟨p, ht.first.subset hp, ?_⟩
  have hnow : (w.round host).isRetained p.1 := by
    rw [World.isRetained, World.round_retained hplan, hart, any_append, Bool.or_eq_true]
    exact .inr (any_eq_true.mpr ⟨p.1, mem_map_of_mem hp, by simp⟩)
  simp [hnow]

/-- When a round is ready, every row has its file. -/
theorem World.ready_retained (hlawful : host.Lawful) (hvalid : w.Valid host) {plan : Plan I}
    {taken : List (Artifact I × ℕ)} (hplan : w.plan host = some plan)
    (ht : Taken host w.isRetained (host.sorted w.rows) [] 0 plan taken)
    (hready : plan.outcome = .ready) (hrow : row ∈ w.rows) :
    ∃ a ∈ (w.round host).retained, a.path = host.path row ∧ a.text = host.body row := by
  have hall := (admitted_paths host (host.sorted w.rows)).trans
    (( takeWhile_prefix _).map host.path) |>.eq_of_length (by simpa using ht.ready hready)
  obtain ⟨⟨a, size⟩, ha, hpath⟩ := List.mem_map.mp (hall ▸
    mem_map_of_mem (mem_sorted.mpr hrow) : host.path row ∈ _)
  obtain ⟨row', hrow', hjudge⟩ := mem_admitted ha
  obtain ⟨hpath', htext, -⟩ := artifact_eq_some (judge_eq_admitted hjudge).1
  obtain rfl := hvalid.hashes row' (mem_sorted.mp hrow') row hrow
    (hlawful.revision_eq (hpath'.symm.trans hpath))
  rw [World.round_retained hplan]
  cases hretained : w.isRetained a with
  | true =>
    obtain ⟨b, hb, hsame⟩ := any_eq_true.mp hretained
    simp only [Bool.and_eq_true, decide_eq_true_eq] at hsame
    exact ⟨b, mem_append_left _ hb, hsame.1.trans hpath, hsame.2.trans htext⟩
  | false =>
    refine ⟨a, mem_append_right _ ?_, hpath, htext⟩
    have hmem : (a, size) ∈ taken := by
      rw [ht.all (by simp [hready])]
      exact mem_filter.mpr ⟨ha, by simp [hretained]⟩
    rw [ht.artifacts]
    exact mem_map_of_mem hmem

/-- The state after `n` rounds without additions. -/
def World.rounds (host : Host I M) (w : World I M) : ℕ → World I M
  | 0 => w
  | n + 1 => (w.round host).rounds host n

theorem World.rounds_end (hlawful : host.Lawful) (hvalid : w.Valid host) :
    ∃ n, ∃ plan ∈ (w.rounds host n).plan host, plan.outcome ≠ .bounded := by
  induction hm : (w.missing host).length using Nat.strong_induction_on generalizing w with
  | _ m ih =>
    obtain ⟨plan, taken, hplan, ht⟩ := World.plan_taken hlawful hvalid
    by_cases hbounded : plan.outcome = .bounded
    · obtain ⟨n, hn⟩ := ih _ (hm ▸ World.missing_lt hplan ht hbounded)
        (w := w.round host) { hvalid with } rfl
      exact ⟨n + 1, hn⟩
    · exact ⟨0, plan, hplan, hbounded⟩

theorem rows_run (events : List (Event I M)) (w : World I M) :
    w.rows <+: (Runs.run (step host) w events).rows := by
  induction events generalizing w with
  | nil => exact prefix_refl _
  | cons e events ih =>
    refine List.IsPrefix.trans ?_ (ih _)
    cases e with
    | add rows => exact prefix_append _ _
    | round => exact prefix_refl _

theorem World.Valid.of_prefix {v : World I M} (h : w.Valid host) (hrows : v.rows <+: w.rows) :
    v.Valid host where
  ids := h.ids.sublist (hrows.sublist.map _)
  printed row hrow := h.printed row (hrows.subset hrow)
  hashes row hrow row' hrow' := h.hashes row (hrows.subset hrow) row' (hrows.subset hrow')

theorem World.Sound.run (hlawful : host.Lawful) (events : List (Event I M)) (h : w.Sound host)
    (hvalid : (Runs.run (step host) w events).Valid host) :
    (Runs.run (step host) w events).Sound host := by
  induction events generalizing w with
  | nil => exact h
  | cons e events ih =>
    refine ih ?_ hvalid
    cases e with
    | add rows =>
      refine ⟨fun a ha ↦ ?_, h.paths⟩
      obtain ⟨row, hrow, hsame⟩ := h.rows a ha
      exact ⟨row, mem_append_left _ hrow, hsame⟩
    | round => exact h.round hlawful (hvalid.of_prefix (rows_run (.round :: events) w))

/-- A round makes progress, is ready or stops at a held row; it takes the first rows of the order
that fit; every row is retained once; and rounds without additions reach the end. -/
theorem run_collects (hlawful : host.Lawful) (events : List (Event I M))
    (hvalid : (Runs.run (step host) {} events).Valid host) :
    let w := Runs.run (step host) {} events
    ∃ plan, w.plan host = some plan ∧ (plan.outcome = .bounded → plan.artifacts ≠ []) ∧
      (plan.outcome = .ready → ∀ row ∈ w.rows, ∃ a ∈ (w.round host).retained,
        a.path = host.path row ∧ a.text = host.body row) ∧
      (∀ id reason, plan.outcome = .held id reason →
        ∃ row ∈ w.rows, row.id = id ∧ judge host row = .held reason) ∧
      ((w.round host).retained.map Artifact.path).Nodup ∧
      (host.sorted w.rows).Pairwise (fun row row' ↦ host.key row ≤ host.key row') ∧
      (plan.artifacts.map Artifact.path).Sublist
        (((host.sorted w.rows).takeWhile fun row ↦ !(judge host row).isHeld).map host.path) ∧
      plan.artifacts.length ≤ maxMessages ∧
      (plan.artifacts.map fun a ↦ (byteCount a.text).getD 0).sum ≤ 2 * maxSourceBytes ∧
      ∃ n, ∃ last ∈ (w.rounds host n).plan host, last.outcome ≠ .bounded := by
  intro w
  obtain ⟨plan, taken, hplan, ht⟩ := World.plan_taken hlawful hvalid
  have hart : plan.artifacts = taken.map fst := by simpa using ht.artifacts
  have hsound : w.Sound host := World.Sound.run hlawful events ⟨nofun, .nil⟩ hvalid
  have hsub : taken.Sublist (admitted host (host.sorted w.rows)) :=
    ht.first.sublist.trans filter_sublist
  refine ⟨plan, hplan, fun hbounded ↦ ?_, fun hready ↦ ?_, fun id reason hheld ↦ ?_,
    (hsound.round hlawful hvalid).paths, ?_, ?_, ?_, ?_, World.rounds_end hlawful hvalid⟩
  · simpa [hart] using ht.progress hbounded rfl rfl
  · exact fun row hrow ↦ World.ready_retained hlawful hvalid hplan ht hready hrow
  · obtain ⟨row, hrow, hid, hjudge⟩ := ht.held id reason hheld
    exact ⟨row, World.mem_sorted.mp (mem_of_getElem? hrow), hid, hjudge⟩
  · refine (pairwise_mergeSort ?_ ?_ _).imp of_decide_eq_true
    · simpa using fun a b c ↦ le_trans
    · simpa using fun a b ↦ le_total _ _
  · rw [hart, List.map_map]
    exact (hsub.map _).trans (admitted_paths _ _).sublist
  · simpa [hart] using ht.count
  · have hsize : taken.map ((fun a ↦ (byteCount a.text).getD 0) ∘ fst) = taken.map snd :=
      map_congr_left fun p hp ↦ by
        obtain ⟨row, -, hjudge⟩ := mem_admitted (hsub.subset hp)
        simp [(judge_eq_admitted hjudge).2.1]
    rw [hart, List.map_map, hsize]
    simpa using ht.size

/-- A host whose printed metadata is the same for every row. -/
def plain (printed : JavaString) : Host ℕ Unit where
  roomId := "room"
  storeId := "store"
  strId id := toString id
  printed _ := printed
  revision _ := "00000000-0000-0000-0000-000000000000"
  contentId _ := "content"

def hello : Row ℕ Unit := ⟨1, 0, "hello", (), none⟩

theorem run_collects_hello :
    ∃ plan, (Runs.run (step (plain "\x7b\x7d")) {} [.add [hello], .round]).plan (plain "\x7b\x7d") =
      some plan := by
  have hlawful : (plain "\x7b\x7d").Lawful := ⟨enc_ofString _, enc_ofString _, fun _ ↦ enc_ofString _,
    fun _ ↦ enc_ofString _, fun _ ↦ enc_ofString _, fun _ ↦ rfl⟩
  have hvalid : (Runs.run (step (plain "\x7b\x7d")) {} [.add [hello], .round]).Valid
      (plain "\x7b\x7d") := by
    refine ⟨by simp [step, World.round], fun _ _ ↦ enc_ofString _, ?_⟩
    simp [step, World.round]
  obtain ⟨plan, hplan, -⟩ := run_collects hlawful _ hvalid
  exact ⟨plan, hplan⟩

/-- A lone surrogate in the metadata of a row that is not held: every round throws. -/
theorem lone_surrogate_throws : (judge (plain ⟨[0xD800]⟩) hello).isHeld = false ∧
      (⟨[hello], []⟩ : World ℕ Unit).plan (plain ⟨[0xD800]⟩) = none := by
  have hjudge : judge (plain ⟨[0xD800]⟩) hello = .throws := by decide +kernel
  refine ⟨by rw [hjudge]; rfl, ?_⟩
  rw [World.plan, selectNext, Host.sorted, mergeSort_singleton, select, hjudge]

end Simmis.Chat.Evidence
