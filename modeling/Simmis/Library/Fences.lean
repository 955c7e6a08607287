import Mathlib.Data.List.Infix

/-!
# Texts between fences, and escaped marks

A fence is a run of one mark. A text between two equal fences is found again by reading up to the
first run of exactly that length. An escape puts a guard before every mark.
-/

namespace Fences

open List Option

variable {α : Type} [DecidableEq α]

/-- The lengths of the runs of `mark`, in order. A run of `k` marks is being read. -/
def runsFrom (mark : α) : ℕ → List α → List ℕ
  | k, [] => if k = 0 then [] else [k]
  | k, a :: rest =>
    if a = mark then runsFrom mark (k + 1) rest
    else (if k = 0 then [] else [k]) ++ runsFrom mark 0 rest

/-- The lengths of all runs of `mark`. -/
def runs (mark : α) (text : List α) : List ℕ := runsFrom mark 0 text

/-- What stands before the first run of exactly `n` marks, and what is behind that run. -/
def cutFrom (mark : α) (n : ℕ) : ℕ → List α → Option (List α × List α)
  | k, [] => if k = n then some ([], []) else none
  | k, a :: rest =>
    if a = mark then cutFrom mark n (k + 1) rest
    else if k = n then some ([], a :: rest)
    else (cutFrom mark n 0 rest).map fun (body, left) ↦
      (List.replicate k mark ++ a :: body, left)

/-- The text behind the opening run of marks, up to the next of that length. -/
def between (mark : α) (source : List α) : Option (List α × List α) :=
  let opening := source.takeWhile (· = mark)
  if opening = [] then none
  else cutFrom mark opening.length 0 (source.dropWhile (· = mark))

variable {mark a : α} {text body rest : List α} {k n : ℕ}

theorem runsFrom_of_ne (ha : a ≠ mark) :
    runsFrom mark k (a :: text) = (if k = 0 then [] else [k]) ++ runs mark text := by
  rw [runsFrom, if_neg ha, runs]

theorem runsFrom_concat (ha : a ≠ mark) : runsFrom mark k (text ++ [a]) = runsFrom mark k text := by
  induction text generalizing k with
  | nil => simp [runsFrom, ha]
  | cons b text ih =>
    rw [cons_append, runsFrom, runsFrom]
    split
    · exact ih
    · rw [ih]

/-- The rest of a fence whose first `k` marks were read. -/
theorem cutFrom_fence (hrest : rest.head? ≠ some mark) (more : ℕ) :
    cutFrom mark (k + more) k (List.replicate more mark ++ rest) = some ([], rest) := by
  induction more generalizing k with
  | zero =>
    cases rest with
    | nil => simp [cutFrom]
    | cons b rest =>
      have hb : b ≠ mark := fun heq ↦ hrest (congrArg some heq)
      simp [cutFrom, hb]
  | succ more ih =>
    rw [replicate_succ, cons_append, cutFrom, if_pos rfl,
      show k + (more + 1) = k + 1 + more by omega]
    exact ih

/-- A text none of whose runs has the length of the fence is read up to the fence. -/
theorem cutFrom_body (hn : n ≠ 0) (hrest : rest.head? ≠ some mark)
    (hruns : n ∉ runsFrom mark k body) (hlast : body.getLast? ≠ some mark)
    (hopen : body = [] → k = 0) : cutFrom mark n k (body ++ (List.replicate n mark ++ rest)) =
      some (List.replicate k mark ++ body, rest) := by
  induction body generalizing k with
  | nil =>
    obtain rfl := hopen rfl
    simpa using cutFrom_fence (k := 0) hrest n
  | cons b body ih =>
    rw [cons_append, cutFrom]
    by_cases hb : b = mark
    · subst hb
      have hbody : body ≠ [] := by
        rintro rfl
        exact hlast rfl
      rw [if_pos rfl, ih _ _ fun h ↦ absurd h hbody]
      · rw [replicate_succ', append_assoc, singleton_append]
      · rwa [runsFrom, if_pos rfl] at hruns
      · rwa [getLast?_cons_of_ne_nil hbody] at hlast
    · rw [runsFrom_of_ne hb, mem_append, not_or] at hruns
      have hk : k ≠ n := by
        rintro rfl
        simp [hn] at hruns
      rw [if_neg hb, if_neg hk, ih hruns.2 _ fun _ ↦ rfl]
      · simp
      · cases body with
        | nil => simp
        | cons c body => rwa [getLast?_cons_of_ne_nil (by simp)] at hlast

/-- A text is read back if it has no run of that length and no mark at its ends. -/
theorem between_fences (hn : n ≠ 0) (hrest : rest.head? ≠ some mark) (hbody : body ≠ [])
    (hruns : n ∉ runs mark body) (hhead : body.head? ≠ some mark)
    (hlast : body.getLast? ≠ some mark) :
    between mark (List.replicate n mark ++ (body ++ (List.replicate n mark ++ rest))) =
      some (body, rest) := by
  obtain ⟨b, body, rfl⟩ := exists_cons_of_ne_nil hbody
  have hb : b ≠ mark := fun heq ↦ hhead (congrArg some heq)
  have htake : (replicate n mark ++ (b :: body ++ (replicate n mark ++ rest))).takeWhile
      (· = mark) = replicate n mark := by
    rw [takeWhile_append_of_pos (by simp)]
    simp [hb]
  have hdrop : (replicate n mark ++ (b :: body ++ (replicate n mark ++ rest))).dropWhile
      (· = mark) = b :: body ++ (replicate n mark ++ rest) := by
    rw [dropWhile_append_of_pos (by simp)]
    simp [hb]
  rw [between, htake, hdrop, length_replicate, if_neg (by simpa using hn),
    cutFrom_body hn hrest hruns hlast (by simp)]
  rfl

/-- Every `find` in a text, from left to right and not overlapping, is replaced by `put`. The next
`skip` entries belong to a replaced one. -/
def replaceFrom (find put : List α) : ℕ → List α → List α
  | _, [] => []
  | skip + 1, _ :: text => replaceFrom find put skip text
  | 0, a :: text =>
    if find <+: a :: text then put ++ replaceFrom find put (find.length - 1) text
    else a :: replaceFrom find put 0 text

/-- `text` with every `find` replaced by `put`. -/
def replace (find put text : List α) : List α := replaceFrom find put 0 text

theorem replace_cons_of_not {find put : List α} (h : ¬find <+: a :: text) :
    replace find put (a :: text) = a :: replace find put text := by
  rw [replace, replaceFrom, if_neg h, replace]

variable {find put : List α}

theorem replace_append_self (hfind : find ≠ []) (s : List α) :
    replace find put (find ++ s) = put ++ replace find put s := by
  have hskip (w : List α) : replaceFrom find put w.length (w ++ s) = replace find put s := by
    induction w with
    | nil => rfl
    | cons a w ih => exact ih
  cases find with
  | nil => contradiction
  | cons a w =>
    rw [replace, cons_append, replaceFrom, if_pos (by simp)]
    exact congrArg (put ++ ·) (hskip w)

theorem replace_append_of_not (hhead : find.head? = some a) {w : List α} (hw : a ∉ w)
    (s : List α) : replace find put (w ++ s) = w ++ replace find put s := by
  induction w with
  | nil => rfl
  | cons b w ih =>
    have hnot : ¬find <+: b :: (w ++ s) := by
      cases find with
      | nil => cases hhead
      | cons c find =>
        cases hhead
        simp_all
    rw [cons_append, replace_cons_of_not hnot, ih (by simp_all), cons_append]

theorem replace_of_not {s : List α} (h : ¬find <:+: s) : replace find put s = s := by
  induction s with
  | nil => rfl
  | cons a s ih =>
    rw [infix_cons_iff, not_or] at h
    rw [replace_cons_of_not h.1, ih h.2]

/-- Replacing by less loses weight wherever something is found. -/
theorem countP_replace (p : α → Bool) (hfind : put.countP p < find.countP p) (s : List α) :
    (replace find put s).countP p + (if find <:+: s then 1 else 0) ≤ s.countP p := by
  induction hn : s.length using Nat.strong_induction_on generalizing s with
  | _ n ih =>
  subst hn
  have hne : find ≠ [] := by
    rintro rfl
    simp at hfind
  by_cases hprefix : find <+: s
  · obtain ⟨rest, rfl⟩ := hprefix
    have hrest := ih rest.length (by simpa using length_pos_iff.mpr hne) rest rfl
    rw [replace_append_self hne, countP_append, countP_append]
    split <;> omega
  · cases s with
    | nil => simp [replace, replaceFrom, hne]
    | cons a s =>
      have hrest := ih s.length (Nat.lt_succ_self _) s rfl
      have hlater : find <:+: a :: s ↔ find <:+: s := by simp [infix_cons_iff, hprefix]
      rw [replace_cons_of_not hprefix, countP_cons, countP_cons]
      simp only [hlater]
      omega

variable {guard : α}

theorem escape_cons : replace [mark] [guard, mark] (a :: text) =
      (if a = mark then [guard, mark] else [a]) ++ replace [mark] [guard, mark] text := by
  by_cases ha : a = mark
  · simp [replace, replaceFrom, ha]
  · have hnot : ¬[mark] <+: a :: text := by simpa using fun h ↦ ha h.symm
    rw [replace_cons_of_not hnot, if_neg ha, singleton_append]

theorem escape_append (later : List α) : replace [mark] [guard, mark] (text ++ later) =
    replace [mark] [guard, mark] text ++ replace [mark] [guard, mark] later := by
  induction text with
  | nil => rfl
  | cons a text ih => rw [cons_append, escape_cons, escape_cons, ih, append_assoc]

theorem escape_eq_nil : replace [mark] [guard, mark] text = [] ↔ text = [] := by
  cases text with
  | nil => simp [replace, replaceFrom]
  | cons a text =>
    rw [escape_cons]
    split <;> simp

/-- What starts an escaped text is a mark only where nothing is. -/
theorem escape_head (hne : guard ≠ mark) :
    (replace [mark] [guard, mark] text).head? ≠ some mark := by
  cases text with
  | nil => simp [replace, replaceFrom]
  | cons a text =>
    rw [escape_cons]
    split
    · simpa using hne
    · rename_i ha
      simpa using ha

variable {b : α}

theorem mem_escape (hguard : b ≠ guard) : b ∈ replace [mark] [guard, mark] text ↔ b ∈ text := by
  induction text with
  | nil => rfl
  | cons a text ih =>
    rw [escape_cons, mem_append, ih, mem_cons]
    by_cases ha : a = mark <;> simp [ha, hguard]

theorem forall_mem_escape (hguard : b ≠ guard) (hmark : b ≠ mark) :
    (∀ a ∈ replace [mark] [guard, mark] text, a = b) ↔ ∀ a ∈ text, a = b := by
  induction text with
  | nil => rfl
  | cons a text ih =>
    rw [escape_cons, forall_mem_append, ih, forall_mem_cons]
    by_cases ha : a = mark <;> simp [ha, hguard.symm, hmark.symm]

theorem escape_of_not_mem (h : mark ∉ text) : replace [mark] [guard, mark] text = text := by
  induction text with
  | nil => rfl
  | cons a text ih =>
    rw [mem_cons, not_or] at h
    rw [escape_cons, if_neg (Ne.symm h.1), singleton_append, ih h.2]

theorem escape_head_iff (hguard : b ≠ guard) (hmark : b ≠ mark) :
    (replace [mark] [guard, mark] text).head? = some b ↔ text.head? = some b := by
  cases text with
  | nil => rfl
  | cons a text =>
    rw [escape_cons]
    by_cases ha : a = mark <;> simp [ha, hguard.symm, hmark.symm]

theorem escape_getLast_iff (hmark : b ≠ mark) :
    (replace [mark] [guard, mark] text).getLast? = some b ↔ text.getLast? = some b := by
  rcases eq_nil_or_concat text with rfl | ⟨text, a, rfl⟩
  · rfl
  · rw [concat_eq_append, escape_append, getLast?_concat, escape_cons]
    by_cases ha : a = mark
    · rw [if_pos ha, ← append_assoc, show [guard, mark] = [guard] ++ [mark] from rfl]
      simp [replace, replaceFrom, ha, hmark.symm]
    · simp [replace, replaceFrom, ha]

/-- Taking guarded marks for marks undoes the escape. -/
theorem unescape_escape (hne : guard ≠ mark) :
    replace [guard, mark] [mark] (replace [mark] [guard, mark] text) = text := by
  induction text with
  | nil => rfl
  | cons a text ih =>
    rw [escape_cons]
    by_cases ha : a = mark
    · rw [if_pos ha, ha]
      have hstep : replace [guard, mark] [mark]
          ([guard, mark] ++ replace [mark] [guard, mark] text) =
            mark :: replace [guard, mark] [mark] (replace [mark] [guard, mark] text) := by
        simp [replace, replaceFrom]
      rw [hstep, ih]
    · rw [if_neg ha, singleton_append, replace_cons_of_not, ih]
      intro h
      obtain ⟨rfl, hnext⟩ := cons_prefix_cons.mp h
      have hhead : (replace [mark] [guard, mark] text).head? ≠ some mark := escape_head hne
      cases hescaped : replace [mark] [guard, mark] text with
      | nil => simp [hescaped] at hnext
      | cons b later =>
        rw [hescaped] at hnext hhead
        exact hhead (congrArg some (cons_prefix_cons.mp hnext).1.symm)

/-- Every mark of an escaped text stands behind a guard. -/
theorem escape_guarded (hne : guard ≠ mark) {before after : List α}
    (h : replace [mark] [guard, mark] text = before ++ mark :: after) :
    before.getLast? = some guard := by
  induction text generalizing before with
  | nil => simp [replace, replaceFrom] at h
  | cons a text ih =>
    have hlater : ∀ {b before}, replace [mark] [guard, mark] text = before ++ mark :: after →
        (b :: before).getLast? = some guard := by
      intro b before hbefore
      rw [getLast?_cons, ih hbefore, getD_some]
    rw [escape_cons] at h
    by_cases ha : a = mark
    · rw [if_pos ha] at h
      match before, h with
      | [], h => exact absurd (cons.inj h).1 hne
      | [b], h => exact congrArg some (cons.inj h).1.symm
      | b :: c :: before, h =>
        rw [getLast?_cons_cons]
        exact hlater (cons.inj (cons.inj h).2).2
    · rw [if_neg ha] at h
      match before, h with
      | [], h => exact absurd (cons.inj h).1 ha
      | b :: before, h => exact hlater (cons.inj h).2

end Fences
