import Simmis.Library.Lists
import Simmis.Models.Catalog

/-!
# Refreshes of the model catalog

Every ticket is either delivered, once, or owned by the one call that claimed it. A refresh that was
reset or superseded never installs what it fetched.
-/

namespace Simmis.Models

open List Option Ticket Nat Runs

variable {E κ M : Type}

/-- The ticket that a call has claimed and not yet delivered. -/
def At.owned : At E κ M → Option (Ticket κ)
  | .fetch ticket _ _ | .publish ticket _ | .fail ticket | .deliver ticket _ => some ticket
  | _ => none

/-- The steps that the owner of a ticket still takes, its fetch's end included. -/
def At.remaining : At E κ M → ℕ
  | .fetch .. => 3
  | .publish .. | .fail _ => 2
  | .deliver .. => 1
  | _ => 0

/-- The call at position `i` owns the ticket with this token. -/
def World.Owner (w : World E κ M) (token i : ℕ) : Prop :=
  ∃ reader, w.readers[i]? = some reader ∧ reader.at_.owned.map Ticket.token = some token

def World.delivered (w : World E κ M) : List ℕ := w.deliveries.map Prod.fst

/-- The tokens that the calls own. -/
def World.held (w : World E κ M) : List ℕ :=
  w.readers.filterMap fun reader ↦ reader.at_.owned.map Ticket.token

/-- The issued tokens are those that were delivered and those that the calls own. -/
structure World.Issued (w : World E κ M) : Prop where
  tokens : (w.delivered ++ w.held).Perm (range w.next)
  waits : ∀ reader ∈ w.readers, ∀ ticket, reader.at_ = .wait ticket → ticket.token < w.next

namespace World

variable {w : World E κ M} {i : ℕ} {reader : Reader E κ M} {at_ : At E κ M} {force : Bool}

section

variable (h : w.Issued)
include h

theorem Issued.nodup : (w.delivered ++ w.held).Nodup := h.tokens.nodup_iff.mpr nodup_range

theorem Issued.cases {token : ℕ} (hlt : token < w.next) :
    token ∈ w.delivered ∨ ∃ i, w.Owner token i := by
  rcases mem_append.mp (h.tokens.mem_iff.mpr (mem_range.mpr hlt)) with hdelivered | hheld
  · exact .inl hdelivered
  · obtain ⟨reader, hmem, htoken⟩ := mem_filterMap.mp hheld
    obtain ⟨i, hget⟩ := getElem?_of_mem hmem
    exact .inr ⟨i, reader, hget, htoken⟩

theorem Issued.undelivered {token : ℕ} (howner : w.Owner token i) : token ∉ w.delivered := by
  obtain ⟨reader, hget, htoken⟩ := howner
  have hheld : token ∈ w.held := mem_filterMap.mpr ⟨reader, mem_of_getElem? hget, htoken⟩
  exact fun hdelivered ↦ (nodup_append.mp h.nodup).2.2 token hdelivered token hheld rfl

theorem Issued.unique {token j : ℕ} (hi : w.Owner token i) (hj : w.Owner token j) : i = j := by
  obtain ⟨r, hr, htoken⟩ := hi
  obtain ⟨r', hr', htoken'⟩ := hj
  obtain ⟨hi, rfl⟩ := List.getElem?_eq_some_iff.mp hr
  obtain ⟨hj, rfl⟩ := List.getElem?_eq_some_iff.mp hr'
  have hpair := pairwise_iff_getElem.mp (pairwise_filterMap.mp (nodup_append.mp h.nodup).2.1)
  rcases Nat.lt_trichotomy i j with hlt | heq | hlt
  · exact absurd rfl (hpair i j hi hj hlt token htoken token htoken')
  · exact heq
  · exact absurd rfl (hpair j i hj hi hlt token htoken' token htoken)

end

/-- What a move does to the tokens that the calls own. -/
theorem held_move (hget : w.readers[i]? = some reader) :
    ∃ rest, w.held.Perm ((reader.at_.owned.map token).toList ++ rest) ∧
      ∀ w' : World E κ M, w'.readers = w.readers → ∀ force at_,
        (w'.move i force at_).held.Perm ((at_.owned.map token).toList ++ rest) := by
  obtain ⟨rest, hperm, hset⟩ := Lists.filterMap_set_perm hget fun reader : Reader E κ M ↦
    reader.at_.owned.map token
  refine ⟨rest, hperm, fun w' hreaders force at_ ↦ ?_⟩
  unfold held move
  rw [hreaders]
  exact hset ⟨force, at_⟩

end World

variable [DecidableEq κ] (key : E → κ)

/-- What a call carries agrees with the cache that it was read from. -/
def World.Reads (w : World E κ M) : At E κ M → Prop
  | .claim generation _ cached => cached.generation = generation ∧
      cached.version ≤ w.cache.version ∧ (cached.version = w.cache.version → cached = w.cache)
  | .fetch ticket endpoints _ => endpoints.map key = ticket.configuration
  | .publish ticket refreshed => refreshed.generation = ticket.generation ∧
      refreshed.refresh = none ∧ refreshed.endpoints.map Prod.fst = refreshed.configuration
  | _ => True

/-- The cached ticket and states are those of its generation and configuration. -/
structure World.Contents (w : World E κ M) : Prop where
  refresh : ∀ ticket, w.cache.refresh = some ticket →
    ticket.generation = w.cache.generation ∧ ticket.token < w.next
  keys : w.cache.endpoints.map Prod.fst = w.cache.configuration
  reads : ∀ reader ∈ w.readers, w.Reads key reader.at_

/-- The call that an event moves. -/
def Event.target : Event E M → Option ℕ
  | .advance i _ | .fetched i _ _ | .threw i => some i
  | _ => none

namespace World

variable {w : World E κ M} {i : ℕ} {reader : Reader E κ M} {at_ : At E κ M} {force : Bool} {key}

/-- The steps that the call at `i` still takes for its ticket. -/
def left (w : World E κ M) (i : ℕ) : ℕ := (w.readers[i]?).elim 0 fun reader ↦ reader.at_.remaining

/-- The event is the next step of the call at `i`. -/
def drivenBy (w : World E κ M) (i : ℕ) (e : Event E M) : Bool :=
  match (w.readers[i]?).map Reader.at_, e with
  | some (.fetch ..), .fetched j _ _ => j = i
  | some (.fetch ..), .threw j => j = i
  | some (.fetch ..), _ => false
  | some _, .advance j _ => j = i
  | _, _ => false

/-- How many events of a run are steps of the call at `i`. -/
def drives (key : E → κ) (i : ℕ) : World E κ M → List (Event E M) → ℕ
  | _, [] => 0
  | w, e :: events => (if w.drivenBy i e then 1 else 0) + drives key i (w.step key e) events

omit [DecidableEq κ] in
theorem target_of_drivenBy {e : Event E M} (h : w.drivenBy i e) : e.target = some i := by
  unfold drivenBy at h
  split at h
  all_goals first | exact congrArg some (of_decide_eq_true h) | cases h

/-- What a call does when it moves: where it was and where it goes. -/
inductive Moves (key : E → κ) (w : World E κ M) : At E κ M → World E κ M → At E κ M → Prop
  | on {a a' : At E κ M} (owned : a'.owned = a.owned)
      (remaining : a.owned ≠ none → a'.remaining + 1 = a.remaining)
      (waits : ∀ ticket, a' = .wait ticket → a = .wait ticket ∨ w.cache.refresh = some ticket)
      (reads : w.Reads key a → w.Reads key a') : Moves key w a w a'
  | claim {generation : ℕ} {endpoints : List E} {cached : Cache E κ M} {ticket : Ticket κ}
      (same : w.cache.version = cached.version)
      (ticket_eq : ticket = ⟨endpoints.map key, generation, w.next⟩) :
      Moves key w (.claim generation endpoints cached)
        { w.replace { cached with refresh := some ticket } with next := w.next + 1 }
        (.fetch ticket endpoints cached.endpoints)
  | publish {ticket : Ticket κ} {refreshed : Cache E κ M} (holds : w.Holds ticket) :
      Moves key w (.publish ticket refreshed) (w.replace refreshed)
        (.deliver ticket (some refreshed.records))
  | fail {ticket : Ticket κ} (holds : w.Holds ticket) :
      Moves key w (.fail ticket) (w.replace { w.cache with refresh := none }) (.deliver ticket none)
  | deliver {ticket : Ticket κ} {outcome : Outcome E M} :
      Moves key w (.deliver ticket outcome)
        { w with deliveries := w.deliveries ++ [(ticket.token, outcome)] } (.done outcome)

/-- What an event does: something beside the calls, a reset, or the move of one call. -/
inductive Step (key : E → κ) (w : World E κ M) : Event E M → World E κ M → Prop
  | beside {e : Event E M} {w' : World E κ M}
      (undriven : ∀ token i, w.Owner token i → w.drivenBy i e = false)
      (readers : w'.readers = w.readers ∨ ∃ force, w'.readers = w.readers ++ [⟨force, .capture⟩])
      (cache : w'.cache = w.cache) (next : w'.next = w.next)
      (deliveries : w'.deliveries = w.deliveries) : Step key w e w'
  | reset : Step key w .reset w.reset
  | moves {e : Event E M} {i : ℕ} {reader : Reader E κ M} {w' : World E κ M} {at_ : At E κ M}
      (get : w.readers[i]? = some reader) (driven : ∀ j, w.drivenBy j e = true ↔ j = i)
      (moves : Moves key w reader.at_ w' at_) : Step key w e (w'.move i reader.force at_)

theorem choose_cases (force : Bool) (generation : ℕ) (endpoints : List E) (now : ℤ) :
    w.choose key force generation endpoints now = .capture ∨
      (w.choose key force generation endpoints now = .done (some w.cache.records) ∧
        generation = w.cache.generation ∧ endpoints.map key = w.cache.configuration) ∨
      (∃ ticket, w.choose key force generation endpoints now = .wait ticket ∧
        w.cache.refresh = some ticket) ∨
      (w.choose key force generation endpoints now = .claim generation endpoints w.cache ∧
        generation = w.cache.generation) := by
  unfold choose
  dsimp only
  split_ifs with hgeneration hfresh
  · exact .inl rfl
  · exact .inr (.inl ⟨rfl, by simpa using hgeneration, hfresh.1.1⟩)
  · have hgeneration' : generation = w.cache.generation := by simpa using hgeneration
    cases hrefresh : w.cache.refresh with
    | none => exact .inr (.inr (.inr ⟨rfl, hgeneration'⟩))
    | some ticket =>
      dsimp only
      split_ifs
      · exact .inr (.inr (.inl ⟨ticket, rfl, rfl⟩))
      · exact .inr (.inr (.inr ⟨rfl, hgeneration'⟩))

variable {a : At E κ M}

omit [DecidableEq κ] in
/-- A call that owns nothing moves on. -/
theorem Moves.free {a' : At E κ M} (ha : a.owned = none) (ha' : a'.owned = none)
    (hwaits : ∀ ticket, a' = .wait ticket → a = .wait ticket ∨ w.cache.refresh = some ticket)
    (hreads : w.Reads key a') : Moves key w a w a' :=
  .on (ha'.trans ha.symm) (fun hne ↦ absurd ha hne) hwaits fun _ ↦ hreads

theorem stepAt_moves (w : World E κ M) (force : Bool) (now : ℤ)
    (hfetch : ∀ ticket endpoints previous, a ≠ .fetch ticket endpoints previous) :
    Moves key w a (w.stepAt key force now a).1 (w.stepAt key force now a).2 := by
  cases a with
  | capture => exact .free rfl rfl nofun trivial
  | configure generation => exact .free rfl rfl nofun trivial
  | loop generation endpoints =>
    dsimp only [stepAt]
    obtain hat | ⟨hat, -⟩ | ⟨ticket, hat, hrefresh⟩ | ⟨hat, hgeneration⟩ :=
      @choose_cases E κ M _ key w force generation endpoints now
    all_goals rw [hat]
    · exact .free rfl rfl nofun trivial
    · exact .free rfl rfl nofun trivial
    · exact .free rfl rfl (fun _ heq ↦ .inr (At.wait.inj heq ▸ hrefresh)) trivial
    · exact .free rfl rfl nofun ⟨hgeneration.symm, Nat.le_refl _, fun _ ↦ rfl⟩
  | claim generation endpoints cached =>
    dsimp only [stepAt]
    split_ifs with hversion
    · exact .claim hversion rfl
    · exact .free rfl rfl nofun trivial
  | fetch ticket endpoints previous => exact absurd rfl (hfetch ticket endpoints previous)
  | publish ticket refreshed =>
    dsimp only [stepAt]
    split_ifs with hholds
    · exact .publish hholds
    · exact .on rfl (fun _ ↦ rfl) nofun fun _ ↦ trivial
  | fail ticket =>
    dsimp only [stepAt]
    split_ifs with hholds
    · exact .fail hholds
    · exact .on rfl (fun _ ↦ rfl) nofun fun _ ↦ trivial
  | deliver ticket outcome => exact .deliver
  | wait ticket =>
    dsimp only [stepAt]
    split
    · exact .free rfl rfl nofun trivial
    · exact .free rfl rfl (fun _ ↦ .inl) trivial
  | done outcome => exact .free rfl rfl nofun trivial

omit [DecidableEq κ] in
theorem Step.idle {e : Event E M} (htarget : e.target = some i) (h : w.drivenBy i e = false) :
    Step key w e w := by
  refine .beside (fun _ j _ ↦ Bool.eq_false_iff.mpr fun hdriven ↦ ?_) (.inl rfl) rfl rfl rfl
  obtain rfl := some.inj (htarget.symm.trans (target_of_drivenBy hdriven))
  rw [h] at hdriven
  cases hdriven

theorem step_cases (w : World E κ M) (e : Event E M) : Step key w e (w.step key e) := by
  have hdriven {i : ℕ} (htarget : e.target = some i) (h : w.drivenBy i e) (j : ℕ) :
      w.drivenBy j e ↔ j = i :=
    ⟨fun hj ↦ some.inj ((target_of_drivenBy hj).symm.trans htarget), fun hj ↦ hj ▸ h⟩
  have hundriven (h : e.target = none) (token i : ℕ) (_ : w.Owner token i) :
      w.drivenBy i e = false := by
    refine Bool.eq_false_iff.mpr fun hdriven ↦ ?_
    rw [target_of_drivenBy hdriven] at h
    cases h
  cases e with
  | read force => exact .beside (hundriven rfl) (.inr ⟨force, rfl⟩) rfl rfl rfl
  | configure => exact .beside (hundriven rfl) (.inl rfl) rfl rfl rfl
  | reset => exact .reset
  | advance i now =>
    cases hget : w.readers[i]? with
    | none =>
      simp only [step, hget]
      exact .idle rfl (by simp [drivenBy, hget])
    | some reader =>
      obtain ⟨force, a⟩ := reader
      simp only [step, hget]
      cases a with
      | fetch ticket endpoints previous =>
        obtain ⟨hi, heq⟩ := List.getElem?_eq_some_iff.mp hget
        have hsame : w.move i force (.fetch ticket endpoints previous) = w := by
          unfold move
          rw [← heq, set_getElem_self]
        simp only [stepAt, hsame]
        exact .idle rfl (by simp [drivenBy, hget])
      | _ =>
        exact .moves hget (hdriven rfl (by simp [drivenBy, hget])) (stepAt_moves _ _ _ (by simp))
  | fetched i answers now =>
    cases hget : w.readers[i]? with
    | none =>
      simp only [step, hget]
      exact .idle rfl (by simp [drivenBy, hget])
    | some reader =>
      obtain ⟨force, a⟩ := reader
      simp only [step, hget]
      cases a with
      | fetch ticket endpoints previous =>
        refine .moves hget (hdriven rfl (by simp [drivenBy, hget])) (.on rfl (fun _ ↦ rfl) nofun
          fun hreads ↦ ⟨rfl, rfl, ?_⟩)
        have hkeys : endpoints.map key = ticket.configuration := hreads
        simpa [refreshed, Function.comp_def] using hkeys
      | _ => exact .idle rfl (by simp [drivenBy, hget])
  | threw i =>
    cases hget : w.readers[i]? with
    | none =>
      simp only [step, hget]
      exact .idle rfl (by simp [drivenBy, hget])
    | some reader =>
      obtain ⟨force, a⟩ := reader
      simp only [step, hget]
      cases a with
      | fetch ticket endpoints previous =>
        exact .moves hget (hdriven rfl (by simp [drivenBy, hget]))
          (.on rfl (fun _ ↦ rfl) nofun fun _ ↦ trivial)
      | _ => exact .idle rfl (by simp [drivenBy, hget])

section

omit [DecidableEq κ]

theorem reads_congr {w' : World E κ M} (hcache : w'.cache = w.cache) (a : At E κ M) :
    w'.Reads key a ↔ w.Reads key a := by
  cases a <;> simp only [Reads, hcache]

theorem Contents.move (h : w.Contents key) (hreads : w.Reads key at_) :
    (w.move i force at_).Contents key where
  refresh := h.refresh
  keys := h.keys
  reads r hr := by
    rcases mem_or_eq_of_mem_set hr with hold | rfl
    · exact h.reads r hold
    · exact hreads

/-- Another map in the cache ends every claim that was read before. -/
theorem Contents.replace (h : w.Contents key) {cache : Cache E κ M} {next : ℕ}
    (hrefresh : ∀ ticket, cache.refresh = some ticket →
      ticket.generation = cache.generation ∧ ticket.token < next)
    (hkeys : cache.endpoints.map Prod.fst = cache.configuration) :
    ({ w.replace cache with next } : World E κ M).Contents key where
  refresh := hrefresh
  keys := hkeys
  reads r hr := by
    have hold := h.reads r hr
    cases hat : r.at_ with
    | claim generation endpoints cached =>
      rw [hat] at hold
      obtain ⟨hgeneration, hversion, -⟩ := hold
      have hlt : cached.version < w.cache.version + 1 := lt_succ_of_le hversion
      exact ⟨hgeneration, Nat.le_of_lt hlt, fun heq ↦ absurd heq (Nat.ne_of_lt hlt)⟩
    | fetch ticket endpoints previous =>
      rw [hat] at hold
      exact hold
    | publish ticket refreshed =>
      rw [hat] at hold
      exact hold
    | capture | configure | loop | fail | deliver | wait | done => trivial

structure Sound (key : E → κ) (w : World E κ M) : Prop where
  issued : w.Issued
  contents : w.Contents key

theorem Sound.initial : (initial E κ M).Sound key where
  issued := ⟨.refl _, fun _ hmem ↦ nomatch hmem⟩
  contents := ⟨fun _ hrefresh ↦ (nomatch hrefresh), rfl, fun _ hmem ↦ (nomatch hmem)⟩

variable {w' : World E κ M}

/-- The rest of the catalog moves with the calls. -/
theorem Moves.readers (h : Moves key w a w' at_) : w'.readers = w.readers := by
  cases h <;> rfl

theorem Moves.next_le (h : Moves key w a w' at_) : w.next ≤ w'.next := by
  cases h with
  | claim => exact le_succ _
  | on | publish | fail | deliver => exact Nat.le_refl _

theorem Moves.issued (hmoves : Moves key w reader.at_ w' at_) (h : w.Sound key)
    (hget : w.readers[i]? = some reader) : (w'.move i force at_).Issued := by
  obtain ⟨rest, hheld, hmove⟩ := held_move hget
  have hheld' := hmove w' hmoves.readers force at_
  have hreaders : (w'.move i force at_).readers = w.readers.set i ⟨force, at_⟩ := by
    rw [← hmoves.readers]
    rfl
  have htokens := h.issued.tokens
  have hwaits := h.issued.waits reader (mem_of_getElem? hget)
  obtain ⟨force', a⟩ := reader
  constructor
  · have hsame (howned : at_.owned.map token = a.owned.map token) :
        (w.delivered ++ (w'.move i force at_).held).Perm (range w.next) :=
      ((hheld'.trans (howned ▸ hheld.symm)).append_left _).trans htokens
    cases hmoves with
    | on owned => exact hsame (congrArg (Option.map token) owned)
    | publish | fail => exact hsame rfl
    | claim same ticket_eq =>
      subst ticket_eq
      have hnext : (w.delivered ++ w.next :: w.held).Perm (w.next :: range w.next) :=
        perm_middle.trans (htokens.cons _)
      change (w.delivered ++ _).Perm (range (w.next + 1))
      rw [range_succ]
      exact ((hheld'.trans (hheld.symm.cons _)).append_left _).trans
        (hnext.trans (perm_append_singleton _ _).symm)
    | @deliver ticket outcome =>
      have hdelivered : ({ w with deliveries := w.deliveries ++ [(ticket.token, outcome)] }.move i
          force (.done outcome)).delivered = w.delivered ++ [ticket.token] := map_append
      rw [hdelivered, append_assoc]
      exact ((hheld'.cons ticket.token).trans hheld.symm).append_left _ |>.trans htokens
  · intro r hr ticket hat
    refine Nat.lt_of_lt_of_le ?_ hmoves.next_le
    rw [hreaders] at hr
    rcases mem_or_eq_of_mem_set hr with hold | rfl
    · exact h.issued.waits r hold ticket hat
    · cases hmoves with
      | on owned remaining waits =>
        rcases waits ticket hat with hold | hrefresh
        · exact hwaits ticket hold
        · exact (h.contents.refresh ticket hrefresh).2
      | claim | publish | fail | deliver => cases hat

theorem Moves.contents (hmoves : Moves key w a w' at_) (h : w.Contents key)
    (hreads : w.Reads key a) : (w'.move i force at_).Contents key := by
  cases hmoves with
  | on _ _ _ hreads' => exact h.move (hreads' hreads)
  | claim same ticket_eq =>
    subst ticket_eq
    obtain ⟨hgeneration, -, hsame⟩ := hreads
    obtain rfl := hsame same.symm
    refine Contents.move (h.replace (fun ticket hticket ↦ ?_) h.keys) rfl
    obtain rfl := some.inj hticket
    exact ⟨hgeneration.symm, lt_succ_self _⟩
  | publish =>
    obtain ⟨-, hrefresh, hkeys⟩ := hreads
    refine Contents.move (h.replace (fun ticket hsome ↦ ?_) hkeys) trivial
    rw [hrefresh] at hsome
    cases hsome
  | fail => exact Contents.move (h.replace nofun h.keys) trivial
  | deliver =>
    exact Contents.move ⟨h.refresh, h.keys, fun r hr ↦ (reads_congr rfl _).mpr (h.reads r hr)⟩ trivial

theorem Step.sound {e : Event E M} (hstep : Step key w e w') (h : w.Sound key) : w'.Sound key := by
  cases hstep with
  | beside undriven readers cache next deliveries =>
    have hmem {r : Reader E κ M} (hr : r ∈ w'.readers) : r ∈ w.readers ∨ r.at_ = .capture := by
      obtain hreaders | ⟨force, hreaders⟩ := readers
      · exact .inl (hreaders ▸ hr)
      · rw [hreaders] at hr
        exact (mem_append.mp hr).imp_right fun hnew ↦ by rw [mem_singleton.mp hnew]
    have hheld : w'.held = w.held := by
      unfold held
      obtain hreaders | ⟨force, hreaders⟩ := readers
      · rw [hreaders]
      · rw [hreaders, filterMap_append]
        exact append_nil _
    have hdelivered : w'.delivered = w.delivered := congrArg (map Prod.fst) deliveries
    refine ⟨⟨?_, fun r hr ticket hat ↦ ?_⟩, ?_, ?_, fun r hr ↦ (reads_congr cache _).mpr ?_⟩
    · rw [hdelivered, hheld, next]
      exact h.issued.tokens
    · rw [next]
      rcases hmem hr with hold | hnew
      · exact h.issued.waits r hold ticket hat
      · rw [hnew] at hat
        cases hat
    · rw [cache, next]
      exact h.contents.refresh
    · rw [cache]
      exact h.contents.keys
    · rcases hmem hr with hold | hnew
      · exact h.contents.reads r hold
      · rw [hnew]
        trivial
  | reset => exact ⟨⟨h.issued.tokens, h.issued.waits⟩, h.contents.replace nofun rfl⟩
  | moves hget driven moves =>
    exact ⟨moves.issued h hget, moves.contents h.contents (h.contents.reads _ (mem_of_getElem? hget))⟩

end

theorem Sound.step (h : w.Sound key) (e : Event E M) : (w.step key e).Sound key :=
  (step_cases w e).sound h

theorem sound_run (events : List (Event E M)) {w : World E κ M} (h : w.Sound key) :
    (run (step key) w events).Sound key :=
  run_preserves (Sound key) (fun _ e h ↦ h.step e) h events

variable {ticket : Ticket κ}

section

omit [DecidableEq κ]

variable {w' : World E κ M} {e : Event E M}

theorem holds_congr (hcache : w'.cache = w.cache) (ticket : Ticket κ) :
    w'.Holds ticket ↔ w.Holds ticket := by
  unfold Holds
  rw [hcache]

/-- A ticket that no longer stands never stands again. -/
theorem Step.holds_back (hstep : Step key w e w') (h : w.Sound key)
    (hissued : ticket.token < w.next) (hholds : w'.Holds ticket) : w.Holds ticket := by
  have htoken := hholds.2
  cases hstep with
  | beside undriven readers cache next deliveries => exact (holds_congr cache ticket).mp hholds
  | reset => cases htoken
  | @moves _ i reader w' at_ hget driven moves =>
    have hreads := h.contents.reads _ (mem_of_getElem? hget)
    obtain ⟨force, a⟩ := reader
    cases moves with
    | on | deliver => exact hholds
    | fail => cases htoken
    | @publish ticket' refreshed =>
      have htoken : refreshed.refresh.map Ticket.token = some ticket.token := htoken
      rw [hreads.2.1] at htoken
      cases htoken
    | claim same ticket_eq =>
      subst ticket_eq
      exact absurd (some.inj htoken) (Nat.ne_of_gt hissued)

theorem Step.next_le (hstep : Step key w e w') : w.next ≤ w'.next := by
  cases hstep with
  | beside undriven readers cache next deliveries => exact Nat.le_of_eq next.symm
  | reset => exact Nat.le_refl _
  | moves hget driven moves => exact moves.next_le

/-- Only the holder of the ticket changes what is cached, or a reset forgets it. -/
theorem Step.installs (hstep : Step key w e w') (h : w.Sound key)
    (hchanged : w'.cache.endpoints ≠ w.cache.endpoints) :
    e = .reset ∨ ∃ i now force ticket refreshed, e = .advance i now ∧
      w.readers[i]? = some ⟨force, .publish ticket refreshed⟩ ∧ w.Holds ticket := by
  cases hstep with
  | beside undriven readers cache next deliveries => exact absurd (by rw [cache]) hchanged
  | reset => exact .inl rfl
  | @moves _ i reader w' at_ hget driven moves =>
    have hreads := h.contents.reads _ (mem_of_getElem? hget)
    obtain ⟨force, a⟩ := reader
    cases moves with
    | on | deliver | fail => exact absurd rfl hchanged
    | claim same ticket_eq =>
      obtain rfl := hreads.2.2 same.symm
      exact absurd rfl hchanged
    | @publish ticket refreshed holds =>
      have hown := (driven i).mpr rfl
      unfold drivenBy at hown
      rw [hget] at hown
      cases e with
      | advance j now =>
        obtain rfl : j = i := of_decide_eq_true hown
        exact .inr ⟨j, now, force, ticket, refreshed, rfl, hget, holds⟩
      | read | fetched | threw | configure | reset => cases hown

end

theorem Sound.fenced (h : w.Sound key) (hissued : ticket.token < w.next)
    (hlost : ¬ w.Holds ticket) (events : List (Event E M)) :
    ¬ (Runs.run (World.step key) w events).Holds ticket := by
  induction events generalizing w with
  | nil => exact hlost
  | cons e events ih =>
    have hstep : Step key w e (w.step key e) := step_cases w e
    exact ih (h.step e) (Nat.lt_of_lt_of_le hissued hstep.next_le)
      fun hholds ↦ hlost (hstep.holds_back h hissued hholds)

section

omit [DecidableEq κ]

variable {w' : World E κ M} {e : Event E M} {token : ℕ}

theorem left_pos (howner : w.Owner token i) : 0 < w.left i := by
  obtain ⟨⟨force, at_⟩, hget, howned⟩ := howner
  unfold left
  rw [hget]
  cases at_ with
  | fetch | publish | fail | deliver => exact succ_pos _
  | capture | configure | loop | claim | wait | done => cases howned

/-- What was delivered stays delivered. -/
theorem Step.delivered (hstep : Step key w e w') (h : token ∈ w.delivered) :
    token ∈ w'.delivered := by
  cases hstep with
  | beside undriven readers cache next deliveries =>
    unfold World.delivered
    rwa [deliveries]
  | reset => exact h
  | moves hget driven moves =>
    generalize Reader.at_ _ = a at moves
    cases moves with
    | deliver =>
      obtain ⟨d, hd, htoken⟩ := mem_map.mp h
      exact mem_map.mpr ⟨d, mem_append_left _ hd, htoken⟩
    | on | claim | publish | fail => exact h

/-- An owner that an event passes by keeps its place. -/
theorem Step.other (hstep : Step key w e w') (hget : w.readers[i]? = some reader)
    (hother : w.drivenBy i e = false) : w'.readers[i]? = some reader := by
  cases hstep with
  | beside undriven readers cache next deliveries =>
    obtain hreaders | ⟨force, hreaders⟩ := readers
    · rw [hreaders, hget]
    · rw [hreaders, getElem?_append_left (List.getElem?_eq_some_iff.mp hget).1, hget]
  | reset => exact hget
  | @moves _ j reader' w' at_ hget' driven moves =>
    have hne : j ≠ i := by
      rintro rfl
      rw [(driven j).mpr rfl] at hother
      cases hother
    change (w'.readers.set j _)[i]? = _
    rw [getElem?_set_ne hne, moves.readers, hget]

/-- The owner takes a step: it delivers its ticket, or has one step less to take. -/
theorem Step.driven (hstep : Step key w e w') (howner : w.Owner token i)
    (hdriven : w.drivenBy i e) :
    token ∈ w'.delivered ∨ (w'.Owner token i ∧ w'.left i + 1 = w.left i) := by
  cases hstep with
  | beside undriven =>
    rw [undriven token i howner] at hdriven
    cases hdriven
  | reset =>
    cases target_of_drivenBy hdriven
  | @moves _ j reader w' at_ hget driven moves =>
    obtain rfl := (driven i).mp hdriven
    obtain ⟨_, hget', htoken⟩ := howner
    obtain rfl := some.inj (hget.symm.trans hget')
    have hlength : i < w'.readers.length := by
      rw [moves.readers]
      exact (List.getElem?_eq_some_iff.mp hget).1
    have hplace : (w'.move i reader.force at_).readers[i]? = some ⟨reader.force, at_⟩ :=
      getElem?_set_self hlength
    have hkeeps (howned : at_.owned.map Ticket.token = some token)
        (hleft : at_.remaining + 1 = reader.at_.remaining) :
        (w'.move i reader.force at_).Owner token i ∧
          (w'.move i reader.force at_).left i + 1 = w.left i := by
      refine ⟨⟨_, hplace, howned⟩, ?_⟩
      unfold left
      rw [hplace, hget]
      exact hleft
    obtain ⟨force, a⟩ := reader
    cases moves with
    | on owned remaining =>
      refine .inr (hkeeps (owned ▸ htoken) (remaining fun hnone ↦ ?_))
      rw [hnone] at htoken
      cases htoken
    | claim => cases htoken
    | publish | fail => exact .inr (hkeeps htoken rfl)
    | @deliver ticket outcome =>
      obtain rfl : ticket.token = token := some.inj htoken
      exact .inl (mem_map.mpr ⟨_, mem_append_right _ (mem_singleton_self _), rfl⟩)

end

/-- A ticket is delivered once its owner has taken its steps. -/
theorem drives_delivers (events : List (Event E M)) {token : ℕ} (howner : w.Owner token i) :
    token ∈ (run (step key) w events).delivered ∨ ((run (step key) w events).Owner token i ∧
        (run (step key) w events).left i + drives key i w events = w.left i) := by
  induction events generalizing w with
  | nil => exact .inr ⟨howner, rfl⟩
  | cons e events ih =>
    have hstep : Step key w e (w.step key e) := step_cases w e
    have hkept : token ∈ (w.step key e).delivered →
        token ∈ (run (step key) (w.step key e) events).delivered :=
      fun h ↦ run_preserves (fun w : World E κ M ↦ token ∈ w.delivered)
        (fun w e h ↦ (step_cases w e).delivered h) h events
    cases hdriven : w.drivenBy i e with
    | true =>
      obtain hdelivered | ⟨howner', hleft⟩ := hstep.driven howner hdriven
      · exact .inl (hkept hdelivered)
      · obtain hdelivered | ⟨hlast, hcount⟩ := ih howner'
        · exact .inl hdelivered
        · refine .inr ⟨hlast, ?_⟩
          simp only [run_cons, drives, hdriven, if_true]
          omega
    | false =>
      obtain ⟨reader, hget, htoken⟩ := howner
      have hget' := hstep.other hget hdriven
      have hleft : (w.step key e).left i = w.left i := by
        unfold left
        rw [hget, hget']
      obtain hdelivered | ⟨hlast, hcount⟩ := ih ⟨reader, hget', htoken⟩
      · exact .inl hdelivered
      · refine .inr ⟨hlast, ?_⟩
        simp only [run_cons, drives, hdriven]
        simp
        omega

omit [DecidableEq κ] in
/-- A delivered promise has a value. -/
theorem promise_of_delivered {token : ℕ} (h : token ∈ w.delivered) :
    ∃ outcome, w.promise token = some outcome ∧ (token, outcome) ∈ w.deliveries := by
  obtain ⟨⟨token', outcome⟩, hmem, htoken⟩ := mem_map.mp h
  obtain ⟨found, hfound⟩ : ∃ found, (w.deliveries.find? fun d ↦ d.1 = token) = some found := by
    refine isSome_iff_exists.mp (find?_isSome.mpr ⟨_, hmem, ?_⟩)
    exact decide_eq_true htoken
  have hsame : found.1 = token := by simpa using find?_some hfound
  refine ⟨found.2, by simp [promise, hfound], ?_⟩
  have hfound' : found ∈ w.deliveries := mem_of_find?_eq_some hfound
  rwa [← hsame]

/-- A call that takes the cached records reads its own configuration. -/
theorem served_step {generation : ℕ} {endpoints : List E} {outcome : Outcome E M} {now : ℤ}
    (hget : w.readers[i]? = some ⟨force, .loop generation endpoints⟩)
    (hdone : (w.step key (.advance i now)).readers[i]? = some ⟨force, .done outcome⟩) :
    outcome = some w.cache.records ∧ generation = w.cache.generation ∧
      endpoints.map key = w.cache.configuration := by
  have hlength : i < w.readers.length := (List.getElem?_eq_some_iff.mp hget).1
  have hchosen : w.choose key force generation endpoints now = .done outcome := by
    simp only [step, hget, stepAt, move, getElem?_set_self hlength] at hdone
    exact (Reader.mk.inj (some.inj hdone)).2
  obtain hat | ⟨hat, hgeneration, hkeys⟩ | ⟨ticket, hat, -⟩ | ⟨hat, -⟩ :=
    @choose_cases E κ M _ key w force generation endpoints now
  · rw [hchosen] at hat
    cases hat
  · rw [hchosen] at hat
    exact ⟨At.done.inj hat, hgeneration, hkeys⟩
  · rw [hchosen] at hat
    cases hat
  · rw [hchosen] at hat
    cases hat

/-- A waiting call takes the value of its promise. -/
theorem wait_step {outcome : Outcome E M} (now : ℤ)
    (hget : w.readers[i]? = some ⟨force, .wait ticket⟩)
    (hpromise : w.promise ticket.token = some outcome) :
    (w.step key (.advance i now)).readers[i]? = some ⟨force, .done outcome⟩ := by
  have hlength : i < w.readers.length := (List.getElem?_eq_some_iff.mp hget).1
  simp [step, hget, stepAt, hpromise, move, getElem?_set_self hlength]

/-- A reset or another ticket takes the place of an issued one. -/
theorem lost (hissued : ticket.token < w.next) {e : Event E M} (hgone : e = .reset ∨
      ∃ other, (w.step key e).cache.refresh = some other ∧ other.token ≠ ticket.token) :
    ¬ (w.step key e).Holds ticket ∧ ticket.token < (w.step key e).next := by
  refine ⟨fun hholds ↦ ?_, Nat.lt_of_lt_of_le hissued (step_cases w e).next_le⟩
  obtain rfl | ⟨other, hrefresh, hne⟩ := hgone
  · have hnone := hholds.2
    simp [World.step, World.reset, World.replace] at hnone
  · have hsome := hholds.2
    rw [hrefresh] at hsome
    exact hne (some.inj hsome)

/-- A call whose ticket no longer stands leaves the cache alone. -/
theorem publish_lost {refreshed : Cache E κ M} (now : ℤ)
    (hget : w.readers[i]? = some ⟨force, .publish ticket refreshed⟩) (hlost : ¬ w.Holds ticket) :
    (w.step key (.advance i now)).cache = w.cache := by
  simp [step, hget, stepAt, hlost, move]

end World

/-- The catalog after a run. -/
def catalogAfter (key : E → κ) (events : List (Event E M)) : World E κ M :=
  Runs.run (World.step key) (World.initial E κ M) events

/-- What holds of the refreshes after a run from the start. -/
structure Fenced (key : E → κ) (events : List (Event E M)) : Prop where
  stale : ∀ first e last i now force ticket refreshed, events = first ++ e :: last →
    ticket.token < (catalogAfter key first).next →
    (e = .reset ∨ ∃ other, (catalogAfter key (first ++ [e])).cache.refresh = some other ∧
      other.token ≠ ticket.token) →
    (catalogAfter key events).readers[i]? = some ⟨force, .publish ticket refreshed⟩ →
    ((catalogAfter key events).step key (.advance i now)).cache = (catalogAfter key events).cache
  installs : ∀ e, ((catalogAfter key events).step key e).cache.endpoints ≠
      (catalogAfter key events).cache.endpoints →
    e = .reset ∨ ∃ i now force ticket refreshed, e = .advance i now ∧
      (catalogAfter key events).readers[i]? = some ⟨force, .publish ticket refreshed⟩ ∧
      (catalogAfter key events).Holds ticket
  holder : ∀ (i j : ℕ) (r r' : Reader E κ M) (ticket ticket' : Ticket κ),
    (catalogAfter key events).readers[i]? = some r →
    (catalogAfter key events).readers[j]? = some r' →
    r.at_.owned = some ticket → r'.at_.owned = some ticket' →
    (catalogAfter key events).Holds ticket → (catalogAfter key events).Holds ticket' → i = j
  served : ∀ i now force generation endpoints outcome,
    (catalogAfter key events).readers[i]? = some ⟨force, .loop generation endpoints⟩ →
    ((catalogAfter key events).step key (.advance i now)).readers[i]? =
      some ⟨force, .done outcome⟩ →
    outcome = some (catalogAfter key events).cache.records ∧
      (catalogAfter key events).cache.endpoints.map Prod.fst = endpoints.map key ∧
      (catalogAfter key events).cache.generation = generation
  once : (catalogAfter key events).delivered.Nodup
  promised : ∀ token < (catalogAfter key events).next,
    token ∈ (catalogAfter key events).delivered ∨
      ∃ i, (catalogAfter key events).Owner token i ∧ token ∉ (catalogAfter key events).delivered ∧
        ∀ late, (catalogAfter key events).left i ≤
            World.drives key i (catalogAfter key events) late →
          token ∈ (catalogAfter key (events ++ late)).delivered
  waits : ∀ i force ticket, (catalogAfter key events).readers[i]? = some ⟨force, .wait ticket⟩ →
    ticket.token < (catalogAfter key events).next ∧
      (ticket.token ∈ (catalogAfter key events).delivered → ∀ now, ∃ outcome,
        (ticket.token, outcome) ∈ (catalogAfter key events).deliveries ∧
        ((catalogAfter key events).step key (.advance i now)).readers[i]? =
          some ⟨force, .done outcome⟩)

/-- A read that fetches, a reset, and another read of the same endpoint. -/
def resetWhileFetching : List (Event ℕ ℕ) :=
  [.configure [7], .read true, .advance 0 0, .advance 0 0, .advance 0 0, .advance 0 0, .reset,
    .read true, .advance 1 0, .advance 1 0, .advance 1 0, .advance 1 0]

end Simmis.Models
