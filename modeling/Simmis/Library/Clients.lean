import Simmis.Library.Runs
import Mathlib.Data.List.Basic

/-!
# Clients of a serialized writer

A client call alternates between reads of published snapshots and transactions that the writer runs
one at a time. A read may show any state that was ever committed. A transaction may be refused, or
answered with the connection's own exception before or after it committed.
-/

namespace Simmis.Clients

open List Option Runs

/-- A call, as the reads and transactions that remain. A transaction is answered by nothing, or by
what it raised. -/
inductive Call (D T E α : Type)
  | done (outcome : Except E α)
  | read (next : D → Call D T E α)
  | transact (tx : T) (next : Option E → Call D T E α)

/-- The program of the `n`-th call, the writer, and the connection's exception. -/
structure Service (L D T E α : Type) where
  call : ℕ → L → Call D T E α
  exec : T → D → Except E D
  lost : E

inductive Verdict (E : Type)
  | undecided
  | committed
  | refused (e : E)

/-- A submitted transaction. -/
structure Ticket (T E : Type) where
  tx : T
  verdict : Verdict E

structure Client (L D T E α : Type) where
  request : L
  now : Call D T E α
  ticket : Option ℕ

/-- The committed states, newest first, and everything that is under way. -/
structure World (L D T E α : Type) where
  db : D
  past : List D
  clients : List (Client L D T E α)
  tickets : List (Ticket T E)

variable {L D T E α : Type}

def World.init (db : D) : World L D T E α := ⟨db, [], [], []⟩

/-- The states that were ever committed. -/
def World.seen (w : World L D T E α) (db : D) : Prop := db ∈ w.db :: w.past

inductive Event (L : Type)
  | start (request : L)
  | read (client snapshot : ℕ)
  | submit (client : ℕ)
  | commit (ticket : ℕ)
  | answer (client : ℕ)
  | fail (client : ℕ)

variable (S : Service L D T E α)

/-- An event that does not apply to what it names leaves the world alone. -/
def World.step (w : World L D T E α) : Event L → World L D T E α
  | .start request =>
    { w with clients := w.clients ++ [⟨request, S.call w.clients.length request, none⟩] }
  | .read i j =>
    match w.clients[i]?, (w.db :: w.past)[j]? with
    | some ⟨request, .read next, _⟩, some db =>
      { w with clients := w.clients.set i ⟨request, next db, none⟩ }
    | _, _ => w
  | .submit i =>
    match w.clients[i]? with
    | some ⟨request, .transact tx next, none⟩ =>
      { w with
        clients := w.clients.set i ⟨request, .transact tx next, some w.tickets.length⟩
        tickets := w.tickets ++ [⟨tx, .undecided⟩] }
    | _ => w
  | .commit n =>
    match w.tickets[n]? with
    | some ⟨tx, .undecided⟩ =>
      match S.exec tx w.db with
      | .ok db =>
        { w with db, past := w.db :: w.past, tickets := w.tickets.set n ⟨tx, .committed⟩ }
      | .error e => { w with tickets := w.tickets.set n ⟨tx, .refused e⟩ }
    | _ => w
  | .answer i =>
    match w.clients[i]? with
    | some ⟨request, .transact _ next, some n⟩ =>
      match w.tickets[n]? with
      | some ⟨_, .committed⟩ => { w with clients := w.clients.set i ⟨request, next none, none⟩ }
      | some ⟨_, .refused e⟩ => { w with clients := w.clients.set i ⟨request, next (some e), none⟩ }
      | _ => w
    | _ => w
  | .fail i =>
    match w.clients[i]? with
    | some ⟨request, .read _, _⟩ =>
      { w with clients := w.clients.set i ⟨request, .done (.error S.lost), none⟩ }
    | some ⟨request, .transact _ next, _⟩ =>
      { w with clients := w.clients.set i ⟨request, next (some S.lost), none⟩ }
    | _ => w

/-- The outcomes of a call that meets only the states `known`. -/
def Yields (known : D → Prop) : Call D T E α → Except E α → Prop
  | .done out, o => o = out
  | .read next, o => o = .error S.lost ∨ ∃ db, known db ∧ Yields known (next db) o
  | .transact tx next, o =>
    Yields known (next (some S.lost)) o ∨
      (∃ db e, known db ∧ S.exec tx db = .error e ∧ Yields known (next (some e)) o) ∨
      ∃ db db', known db ∧ known db' ∧ S.exec tx db = .ok db' ∧ Yields known (next none) o

/-- The transactions of a call that meets only the states `known`. -/
def Issues (known : D → Prop) : Call D T E α → T → Prop
  | .done _, _ => False
  | .read next, t => ∃ db, known db ∧ Issues known (next db) t
  | .transact tx next, t => t = tx ∨ ∃ answer, Issues known (next answer) t

/-- What is left of a call is a part of it, also when more is committed later. -/
def Follows (known : D → Prop) (origin now : Call D T E α) : Prop :=
  ∀ later : D → Prop, (∀ db, known db → later db) →
    (∀ o, Yields S later now o → Yields S later origin o) ∧
      ∀ tx, Issues later now tx → Issues later origin tx

variable {S} {known later : D → Prop} {origin now : Call D T E α}

theorem Follows.refl (known : D → Prop) (origin : Call D T E α) :
    Follows S known origin origin := fun _ _ ↦ ⟨fun _ h ↦ h, fun _ h ↦ h⟩

theorem Follows.mono (hfollows : Follows S known origin now) (hlater : ∀ db, known db → later db) :
    Follows S later origin now :=
  fun further hfurther ↦ hfollows further fun db hdb ↦ hfurther db (hlater db hdb)

variable {db : D}

theorem Follows.read {next : D → Call D T E α}
    (hfollows : Follows S known origin (.read next)) (hdb : known db) :
    Follows S known origin (next db) := by
  intro later hlater
  obtain ⟨hyields, hissues⟩ := hfollows later hlater
  exact ⟨fun o ho ↦ hyields o (.inr ⟨db, hlater db hdb, ho⟩),
    fun tx htx ↦ hissues tx ⟨db, hlater db hdb, htx⟩⟩

theorem Follows.unread {next : D → Call D T E α} (hfollows : Follows S known origin (.read next)) :
    Follows S known origin (.done (.error S.lost)) := by
  intro later hlater
  exact ⟨fun o ho ↦ (hfollows later hlater).1 o (.inl ho), fun _ htx ↦ htx.elim⟩

variable {tx : T}

section

variable {next : Option E → Call D T E α} (hfollows : Follows S known origin (.transact tx next))
include hfollows

theorem Follows.committed {db' : D} (hdb : known db) (hdb' : known db')
    (hexec : S.exec tx db = .ok db') : Follows S known origin (next none) := by
  intro later hlater
  obtain ⟨hyields, hissues⟩ := hfollows later hlater
  exact ⟨fun o ho ↦ hyields o (.inr (.inr ⟨db, db', hlater db hdb, hlater db' hdb', hexec, ho⟩)),
    fun tx htx ↦ hissues tx (.inr ⟨none, htx⟩)⟩

theorem Follows.refused {e : E} (hdb : known db) (hexec : S.exec tx db = .error e) :
    Follows S known origin (next (some e)) := by
  intro later hlater
  obtain ⟨hyields, hissues⟩ := hfollows later hlater
  exact ⟨fun o ho ↦ hyields o (.inr (.inl ⟨db, e, hlater db hdb, hexec, ho⟩)),
    fun tx htx ↦ hissues tx (.inr ⟨some e, htx⟩)⟩

theorem Follows.failed : Follows S known origin (next (some S.lost)) := by
  intro later hlater
  obtain ⟨hyields, hissues⟩ := hfollows later hlater
  exact ⟨fun o ho ↦ hyields o (.inl ho), fun tx htx ↦ hissues tx (.inr ⟨some S.lost, htx⟩)⟩

end

variable (S)

/-- A decided transaction was decided by the writer, in a committed state. -/
def Ticket.Decided (known : D → Prop) (t : Ticket T E) : Prop :=
  match t.verdict with
  | .undecided => True
  | .committed => ∃ db db', known db ∧ known db' ∧ S.exec t.tx db = .ok db'
  | .refused e => ∃ db, known db ∧ S.exec t.tx db = .error e

/-- Some call of the world has issued the transaction. -/
def World.Issued (w : World L D T E α) (tx : T) : Prop :=
  ∃ i c, w.clients[i]? = some c ∧ Issues w.seen (S.call i c.request) tx

/-- A call that waits on a ticket waits on its own transaction. -/
def Client.Waits (tickets : List (Ticket T E)) (c : Client L D T E α) : Prop :=
  match c.now, c.ticket with
  | .transact tx _, some n => ∃ t, tickets[n]? = some t ∧ t.tx = tx
  | _, _ => True

structure World.Sound (w : World L D T E α) : Prop where
  follows : ∀ (i : ℕ) (c : Client L D T E α), w.clients[i]? = some c →
    Follows S w.seen (S.call i c.request) c.now
  waits : ∀ (i : ℕ) (c : Client L D T E α), w.clients[i]? = some c → c.Waits w.tickets
  decided : ∀ (n : ℕ) (t : Ticket T E), w.tickets[n]? = some t → t.Decided S w.seen
  issued : ∀ (n : ℕ) (t : Ticket T E), w.tickets[n]? = some t → w.Issued S t.tx

variable {S} {w : World L D T E α}

theorem Ticket.Decided.mono {t : Ticket T E} (hdecided : t.Decided S known)
    (hlater : ∀ db, known db → later db) : t.Decided S later := by
  unfold Ticket.Decided at hdecided ⊢
  split at hdecided
  · trivial
  · obtain ⟨db, db', hdb, hdb', hexec⟩ := hdecided
    exact ⟨db, db', hlater db hdb, hlater db' hdb', hexec⟩
  · obtain ⟨db, hdb, hexec⟩ := hdecided
    exact ⟨db, hlater db hdb, hexec⟩

theorem Issues.mono {call : Call D T E α} (hissues : Issues known call tx)
    (hlater : ∀ db, known db → later db) : Issues later call tx := by
  induction call with
  | done out => exact hissues
  | read next ih =>
    obtain ⟨db, hdb, htx⟩ := hissues
    exact ⟨db, hlater db hdb, ih db htx⟩
  | transact tx' next ih =>
    rcases hissues with rfl | ⟨answer, htx⟩
    · exact .inl rfl
    · exact .inr ⟨answer, ih answer htx⟩

theorem Client.waits_none (tickets : List (Ticket T E)) (request : L) (now : Call D T E α) :
    (⟨request, now, none⟩ : Client L D T E α).Waits tickets := by
  unfold Client.Waits
  split
  · next hnone => cases hnone
  · trivial

/-- Giving a client another rest of its call changes nothing else. -/
def World.put (w : World L D T E α) (i : ℕ) (c : Client L D T E α) : World L D T E α :=
  { w with clients := w.clients.set i c }

variable {c c' : Client L D T E α}

variable {i : ℕ}

theorem World.get_put (hc : w.clients[i]? = some c) (j : ℕ) :
    (w.put i c').clients[j]? = if i = j then some c' else w.clients[j]? := by
  obtain ⟨hi, -⟩ := List.getElem?_eq_some_iff.mp hc
  simp only [World.put, getElem?_set, hi]
  simp

theorem World.issued_put (hc : w.clients[i]? = some c) (hrequest : c'.request = c.request)
    (hissued : w.Issued S tx) : (w.put i c').Issued S tx := by
  obtain ⟨j, d, hd, htx⟩ := hissued
  by_cases hij : i = j
  · subst hij
    rw [hc] at hd
    cases hd
    refine ⟨i, c', by rw [World.get_put hc, if_pos rfl], ?_⟩
    rw [hrequest]
    exact htx
  · exact ⟨j, d, by rw [World.get_put hc, if_neg hij]; exact hd, htx⟩

variable {request : L}

section

variable (hw : w.Sound S)
include hw

/-- A client that goes on with a part of its call. -/
theorem World.Sound.advance (hc : w.clients[i]? = some c)
    (hrequest : c'.request = c.request) (hfollows : Follows S w.seen (S.call i c.request) c'.now)
    (hwaits : c'.Waits w.tickets) : (w.put i c').Sound S where
  follows j d hd := by
    rw [World.get_put hc] at hd
    split at hd
    · next hij =>
      subst hij
      cases hd
      rw [hrequest]
      exact hfollows
    · exact hw.follows j d hd
  waits j d hd := by
    rw [World.get_put hc] at hd
    split at hd
    · cases hd
      exact hwaits
    · exact hw.waits j d hd
  decided := hw.decided
  issued n t ht := World.issued_put hc hrequest (hw.issued n t ht)

theorem World.Sound.start (request : L) : (w.step S (.start request)).Sound S := by
  have hclients (j : ℕ) (c : Client L D T E α)
      (hc : (w.clients ++ [⟨request, S.call w.clients.length request, none⟩])[j]? = some c) :
      w.clients[j]? = some c ∨
        j = w.clients.length ∧ c = ⟨request, S.call w.clients.length request, none⟩ := by
    grind
  refine ⟨fun j c hc ↦ ?_, fun j c hc ↦ ?_, hw.decided, fun n t ht ↦ ?_⟩
  · rcases hclients j c hc with hold | ⟨rfl, rfl⟩
    · exact hw.follows j c hold
    · exact .refl _ _
  · rcases hclients j c hc with hold | ⟨rfl, rfl⟩
    · exact hw.waits j c hold
    · exact Client.waits_none _ _ _
  · obtain ⟨i, c, hc, htx⟩ := hw.issued n t ht
    obtain ⟨hi, -⟩ := List.getElem?_eq_some_iff.mp hc
    exact ⟨i, c, (getElem?_append_left hi).trans hc, htx⟩

theorem World.Sound.submit {next : Option E → Call D T E α}
    (hc : w.clients[i]? = some ⟨request, .transact tx next, none⟩) : World.Sound S { w with
      clients := w.clients.set i ⟨request, .transact tx next, some w.tickets.length⟩
      tickets := w.tickets ++ [⟨tx, .undecided⟩] } := by
  have htickets (n : ℕ) (t : Ticket T E)
      (ht : (w.tickets ++ [⟨tx, .undecided⟩])[n]? = some t) :
      w.tickets[n]? = some t ∨ t = ⟨tx, .undecided⟩ := by
    grind
  have hsame (j : ℕ) (d : Client L D T E α)
      (hd : (w.put i ⟨request, .transact tx next, some w.tickets.length⟩).clients[j]? = some d) :
      w.clients[j]? = some d ∨ i = j ∧ d = ⟨request, .transact tx next, some w.tickets.length⟩ := by
    rw [World.get_put hc] at hd
    split at hd
    · next hij => exact .inr ⟨hij, (some.inj hd).symm⟩
    · exact .inl hd
  have hissued : w.Issued S tx :=
    ⟨i, _, hc, (hw.follows i _ hc w.seen fun _ h ↦ h).2 tx (.inl rfl)⟩
  refine ⟨fun j d hd ↦ ?_, fun j d hd ↦ ?_, fun n t ht ↦ ?_, fun n t ht ↦ ?_⟩
  · rcases hsame j d hd with hold | ⟨rfl, rfl⟩
    · exact hw.follows j d hold
    · exact hw.follows i ⟨request, .transact tx next, none⟩ hc
  · rcases hsame j d hd with hold | ⟨rfl, rfl⟩
    · have hwaits := hw.waits j d hold
      unfold Client.Waits at hwaits ⊢
      split
      · next tx' next' n hnow hticket =>
        simp only [hnow, hticket] at hwaits
        obtain ⟨t, ht, htx⟩ := hwaits
        obtain ⟨hn, -⟩ := List.getElem?_eq_some_iff.mp ht
        exact ⟨t, (getElem?_append_left hn).trans ht, htx⟩
      · trivial
    · exact ⟨⟨tx, .undecided⟩, getElem?_concat_length, rfl⟩
  · rcases htickets n t ht with hold | rfl
    · exact hw.decided n t hold
    · trivial
  · have hold : w.Issued S t.tx := by
      rcases htickets n t ht with hold | rfl
      · exact hw.issued n t hold
      · exact hissued
    have hput : (w.put i ⟨request, .transact tx next, some w.tickets.length⟩).Issued S t.tx := by
      apply World.issued_put hc _ hold
      rfl
    exact hput

/-- A verdict of the writer, with the state that it committed, if any. -/
theorem World.Sound.decide {n : ℕ} {verdict : Verdict E} {past : List D}
    (ht : w.tickets[n]? = some ⟨tx, .undecided⟩) (hseen : ∀ d, w.seen d → d ∈ db :: past)
    (hdecided : Ticket.Decided S (· ∈ db :: past) ⟨tx, verdict⟩) :
    World.Sound S { w with db, past, tickets := w.tickets.set n ⟨tx, verdict⟩ } := by
  have htickets (m : ℕ) (t : Ticket T E)
      (hm : (w.tickets.set n ⟨tx, verdict⟩)[m]? = some t) :
      w.tickets[m]? = some t ∨ n = m ∧ t = ⟨tx, verdict⟩ := by
    grind
  refine ⟨fun j c hc ↦ (hw.follows j c hc).mono hseen, fun j c hc ↦ ?_, fun m t hm ↦ ?_,
    fun m t hm ↦ ?_⟩
  · have hwaits := hw.waits j c hc
    unfold Client.Waits at hwaits ⊢
    split
    · next tx' next' m hnow hticket =>
      simp only [hnow, hticket] at hwaits
      obtain ⟨t, hm, htx⟩ := hwaits
      by_cases hnm : n = m
      · subst hnm
        rw [ht] at hm
        cases hm
        obtain ⟨hn, -⟩ := List.getElem?_eq_some_iff.mp ht
        exact ⟨⟨tx, verdict⟩, by simp [hn], htx⟩
      · exact ⟨t, by rw [getElem?_set_ne hnm]; exact hm, htx⟩
    · trivial
  · rcases htickets m t hm with hold | ⟨rfl, rfl⟩
    · exact (hw.decided m t hold).mono hseen
    · exact hdecided
  · have hissued : w.Issued S t.tx := by
      rcases htickets m t hm with hold | ⟨rfl, rfl⟩
      · exact hw.issued m t hold
      · exact hw.issued n ⟨tx, .undecided⟩ ht
    obtain ⟨i, c, hc, htx⟩ := hissued
    exact ⟨i, c, hc, htx.mono hseen⟩

theorem World.Sound.step (event : Event L) : (w.step S event).Sound S := by
  cases event with
  | start request => exact hw.start request
  | read i j =>
    simp only [World.step]
    split
    · next request next ticket db hc hdb =>
      exact hw.advance hc rfl ((hw.follows i _ hc).read (mem_of_getElem? hdb))
        (Client.waits_none _ _ _)
    · exact hw
  | submit i =>
    simp only [World.step]
    split
    · next request tx next hc => exact hw.submit hc
    · exact hw
  | commit n =>
    simp only [World.step]
    split
    · next tx ht =>
      split
      · next db hexec =>
        exact hw.decide ht (fun d hd ↦ mem_cons_of_mem _ hd)
          ⟨w.db, db, by simp, by simp, hexec⟩
      · next e hexec => exact hw.decide ht (fun d hd ↦ hd) ⟨w.db, by simp, hexec⟩
    · exact hw
  | answer i =>
    simp only [World.step]
    split
    · next request tx next n hc =>
      obtain ⟨t, ht, htx⟩ := hw.waits i _ hc
      have hdecided := hw.decided n t ht
      split
      · next tx' hn =>
        rw [ht] at hn
        cases hn
        obtain ⟨db, db', hdb, hdb', hexec⟩ := hdecided
        exact hw.advance hc rfl ((hw.follows i _ hc).committed hdb hdb' (htx ▸ hexec))
          (Client.waits_none _ _ _)
      · next tx' e hn =>
        rw [ht] at hn
        cases hn
        obtain ⟨db, hdb, hexec⟩ := hdecided
        exact hw.advance hc rfl ((hw.follows i _ hc).refused hdb (htx ▸ hexec))
          (Client.waits_none _ _ _)
      · exact hw
    · exact hw
  | fail i =>
    simp only [World.step]
    split
    · next request next ticket hc =>
      exact hw.advance hc rfl (hw.follows i _ hc).unread (Client.waits_none _ _ _)
    · next request tx next ticket hc =>
      exact hw.advance hc rfl (hw.follows i _ hc).failed (Client.waits_none _ _ _)
    · exact hw

end

theorem sound_init (db : D) : (World.init db : World L D T E α).Sound S where
  follows _ _ hc := nomatch hc
  waits _ _ hc := nomatch hc
  decided _ _ ht := nomatch ht
  issued _ _ ht := nomatch ht

theorem run_sound (hw : w.Sound S) (events : List (Event L)) :
    (run (World.step S) w events).Sound S :=
  run_preserves (World.Sound S) (fun _ event hw ↦ hw.step event) hw events

/-- What a finished call returned is an outcome of the call itself. -/
theorem World.Sound.yields (hw : w.Sound S) (hc : w.clients[i]? = some c) {o : Except E α}
    (hdone : c.now = .done o) : Yields S w.seen (S.call i c.request) o := by
  have hfollows := hw.follows i c hc w.seen fun _ hdb ↦ hdb
  rw [hdone] at hfollows
  exact hfollows.1 o rfl

/-- An event commits nothing, or one issued transaction. -/
theorem World.Sound.commits (hw : w.Sound S) (event : Event L) :
    (w.step S event).db = w.db ∧ (w.step S event).past = w.past ∨
      ∃ tx, w.Issued S tx ∧ S.exec tx w.db = .ok (w.step S event).db ∧
        (w.step S event).past = w.db :: w.past := by
  cases event with
  | start request => exact .inl ⟨rfl, rfl⟩
  | commit n =>
    simp only [World.step]
    split
    · next tx ht =>
      split
      · next db hexec => exact .inr ⟨tx, hw.issued n _ ht, hexec, rfl⟩
      · exact .inl ⟨rfl, rfl⟩
    · exact .inl ⟨rfl, rfl⟩
  | _ =>
    simp only [World.step]
    repeat' split
    all_goals exact .inl ⟨rfl, rfl⟩

/-- A preorder climbed by every transaction orders the committed states. -/
theorem run_climbs_seen (rel : D → D → Prop) (hrefl : ∀ db, rel db db)
    (htrans : ∀ a b c, rel a b → rel b c → rel a c)
    (hexec : ∀ tx db db', S.exec tx db = .ok db' → rel db db') (hw : w.Sound S)
    (hseen : ∀ db, w.seen db → rel db w.db) (events : List (Event L)) :
    ∀ db, (run (World.step S) w events).seen db → rel db (run (World.step S) w events).db := by
  have hstep (w : World L D T E α) (event : Event L)
      (hw : w.Sound S ∧ ∀ db, w.seen db → rel db w.db) :
      (w.step S event).Sound S ∧ ∀ db, (w.step S event).seen db → rel db (w.step S event).db := by
    refine ⟨hw.1.step event, fun db hdb ↦ ?_⟩
    rcases hw.1.commits event with ⟨hsame, hpast⟩ | ⟨tx, -, hok, hpast⟩
    · rw [World.seen, hsame, hpast] at hdb
      rw [hsame]
      exact hw.2 db hdb
    · rw [World.seen, hpast] at hdb
      rcases mem_cons.mp hdb with rfl | hold
      · exact hrefl _
      · exact htrans _ _ _ (hw.2 db hold) (hexec tx w.db _ hok)
  exact (run_preserves _ hstep ⟨hw, hseen⟩ events).2

/-- No run takes a committed state back. -/
theorem seen_step (hw : w.Sound S) (event : Event L) (db : D) (hdb : w.seen db) :
    (w.step S event).seen db := by
  rcases hw.commits event with ⟨hsame, hpast⟩ | ⟨tx, -, -, hpast⟩
  · rw [World.seen, hsame, hpast]
    exact hdb
  · rw [World.seen, hpast]
    exact mem_cons_of_mem _ hdb

theorem run_seen (hw : w.Sound S) (events : List (Event L)) (db : D) (hdb : w.seen db) :
    (run (World.step S) w events).seen db :=
  (run_preserves (fun v : World L D T E α ↦ v.Sound S ∧ v.seen db)
    (fun _ event hv ↦ ⟨hv.1.step event, seen_step hv.1 event db hv.2⟩) ⟨hw, hdb⟩ events).2

/-- The requests that were ever made. -/
def World.Requested (w : World L D T E α) (request : L) : Prop :=
  ∃ (i : ℕ) (c : Client L D T E α), w.clients[i]? = some c ∧ c.request = request

theorem World.requested_put (hc : w.clients[i]? = some c)
    (hrequest : c'.request = c.request) (hrequested : w.Requested request) :
    (w.put i c').Requested request := by
  obtain ⟨j, d, hd, rfl⟩ := hrequested
  by_cases hij : i = j
  · subst hij
    rw [hc] at hd
    cases hd
    exact ⟨i, c', by rw [World.get_put hc, if_pos rfl], hrequest⟩
  · exact ⟨j, d, by rw [World.get_put hc, if_neg hij]; exact hd, rfl⟩

theorem requested_step (event : Event L) (hrequested : w.Requested request) :
    (w.step S event).Requested request := by
  cases event with
  | start l =>
    obtain ⟨j, c, hc, rfl⟩ := hrequested
    obtain ⟨hj, -⟩ := List.getElem?_eq_some_iff.mp hc
    exact ⟨j, c, (getElem?_append_left hj).trans hc, rfl⟩
  | commit n =>
    simp only [World.step]
    repeat' split
    all_goals exact hrequested
  | read i j =>
    simp only [World.step]
    split
    · next hc _ => exact World.requested_put hc (by rfl) hrequested
    · exact hrequested
  | submit i =>
    simp only [World.step]
    split
    · next request' tx next hc =>
      have hput : (w.put i ⟨request', .transact tx next, some w.tickets.length⟩).Requested request :=
        World.requested_put hc (by rfl) hrequested
      exact hput
    · exact hrequested
  | answer i =>
    simp only [World.step]
    split
    · next hc =>
      split
      · exact World.requested_put hc (by rfl) hrequested
      · exact World.requested_put hc (by rfl) hrequested
      · exact hrequested
    · exact hrequested
  | fail i =>
    simp only [World.step]
    split
    · next hc => exact World.requested_put hc (by rfl) hrequested
    · next hc => exact World.requested_put hc (by rfl) hrequested
    · exact hrequested

/-- What the requests say of every committed state, a transaction of one of them keeps. -/
theorem run_keeps_seen (rel : D → D → Prop) (hrefl : ∀ db, rel db db)
    (htrans : ∀ a b c, rel a b → rel b c → rel a c)
    (hclimbs : ∀ tx db db', S.exec tx db = .ok db' → rel db db') (inv : (L → Prop) → D → Prop)
    (hmono : ∀ old new : L → Prop, (∀ l, old l → new l) → ∀ db, inv old db → inv new db)
    (hexec : ∀ (known : D → Prop) (requested : L → Prop) (i : ℕ) (l : L) (tx : T) (db db' : D),
      (∀ d, known d → inv requested d ∧ rel d db) → requested l → known db →
      Issues known (S.call i l) tx → S.exec tx db = .ok db' → inv requested db')
    (hinit : inv (fun _ ↦ False) db) (events : List (Event L)) :
    ∀ d, (run (World.step S) (World.init db) events).seen d →
      inv (run (World.step S) (World.init db) events).Requested d := by
  have hstep (w : World L D T E α) (event : Event L)
      (hw : w.Sound S ∧ ∀ d, w.seen d → inv w.Requested d ∧ rel d w.db) :
      (w.step S event).Sound S ∧
        ∀ d, (w.step S event).seen d → inv (w.step S event).Requested d ∧ rel d (w.step S event).db := by
    obtain ⟨hsound, hseen⟩ := hw
    have hold (d : D) (hd : w.seen d) : inv (w.step S event).Requested d :=
      hmono _ _ (fun l hl ↦ requested_step event hl) d (hseen d hd).1
    refine ⟨hsound.step event, fun d hd ↦ ?_⟩
    rcases hsound.commits event with ⟨hsame, hpast⟩ | ⟨tx, ⟨i, c, hc, htx⟩, hok, hpast⟩
    · rw [World.seen, hsame, hpast] at hd
      rw [hsame]
      exact ⟨hold d hd, (hseen d hd).2⟩
    · rw [World.seen, hpast] at hd
      rcases mem_cons.mp hd with rfl | hd
      · refine ⟨hmono _ _ (fun l hl ↦ requested_step event hl) _ ?_, hrefl _⟩
        exact hexec w.seen w.Requested i c.request tx w.db _ hseen ⟨i, c, hc, rfl⟩
          (mem_cons_self) htx hok
      · exact ⟨hold d hd, htrans _ _ _ (hseen d hd).2 (hclimbs tx w.db _ hok)⟩
  have hfirst (d : D) (hd : (World.init db : World L D T E α).seen d) :
      inv (World.init db : World L D T E α).Requested d ∧ rel d db := by
    obtain rfl := mem_singleton.mp hd
    exact ⟨hmono _ _ (fun _ hl ↦ hl.elim) d hinit, hrefl d⟩
  exact fun d hd ↦ ((run_preserves _ hstep ⟨sound_init db, hfirst⟩ events).2 d hd).1

end Simmis.Clients
