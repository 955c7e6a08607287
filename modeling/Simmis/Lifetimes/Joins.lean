import Simmis.Lifetimes.Owner
import Mathlib.Data.List.Nodup

/-!
# Joins of an operation lifetime

A thread is idle, in nested bodies of one ticket, or in one call of `join!`; a ticket stands in the
registry until its body has exited and its cleanup has succeeded. So an empty registry behind the
fence means that nothing runs.
-/

namespace Simmis.Lifetimes

open List Option Nat Function Owner Runs Frame Ticket Phase

variable {τ : Type}

/-- The calls of a thread that runs a body, and in it the nested operations. -/
def bodies (t : Ticket τ) (depth : ℕ) : List (Frame τ) :=
  List.replicate depth (.body t true) ++ [.body t false]

@[simp] theorem bodies_zero (t : Ticket τ) : bodies t 0 = [.body t false] := rfl

section

variable (t : Ticket τ) (depth : ℕ)

@[simp] theorem bodies_succ : bodies t (depth + 1) = .body t true :: bodies t depth := rfl

theorem bodies_ne_nil : bodies t depth ≠ [] := by
  simp [bodies]

theorem bodies_ne_join (at_ : Join τ) (below : List (Frame τ)) :
    bodies t depth ≠ .join at_ :: below := by
  cases depth <;> simp

end

theorem bodies_ticket {t t' : Ticket τ} {depth depth' : ℕ}
    (h : bodies t depth = bodies t' depth') : t = t' := by
  have hlast := congrArg getLast? h
  simpa [bodies] using hlast

/-- The ticket as it was issued. -/
def Ticket.original (t : Ticket τ) : Ticket τ := { t with recovery := false }

/-- The tickets that a join still goes through. -/
def Join.pending : Join τ → List (Ticket τ)
  | .each rest => rest
  | .origin t rest | .monitor t rest | .cleanup t rest | .completion t rest => t :: rest

/-! ## The invariant -/

namespace Owner

/-- The body of the ticket has not exited, and its slot in the registry is taken. -/
structure Running (w : Owner τ) (T : τ) (t : Ticket τ) : Prop where
  thread : t.thread = T
  original : t.recovery = false
  inside : t.id ∉ w.exited
  registered : t ∈ w.tickets ∨ t.transferred ∈ w.tickets

/-- What a join knows of the ticket that it stands at. -/
def Joining (w : Owner τ) (T : τ) : Join τ → Prop
  | .each _ | .completion .. => True
  | .origin t _ => t.recovery = true
  | .monitor t _ => t.recovery = true ∧ t.id ∈ w.exited
  | .cleanup t _ => (t.recovery = true ∧ t.id ∈ w.exited) ∧ t ∈ w.tickets ∧
      w.cleanupThread t.id = some T

inductive Stands (w : Owner τ) (T : τ) : Prop where
  | idle (stack : w.frames T = [])
  | running (t : Ticket τ) (depth : ℕ) (stack : w.frames T = bodies t depth)
      (running : w.Running T t)
  | joining (at_ : Join τ) (stack : w.frames T = [.join at_]) (fenced : w.phase = .stopping)
      (known : ∀ t ∈ at_.pending, t.recovery = true → t.id ∈ w.released ∨ t ∈ w.tickets)
      (place : w.Joining T at_)

/-- What the registry knows of a ticket. -/
structure Holds (phase : Phase) (next : ℕ) (exited released : List ℕ) (t : Ticket τ) : Prop where
  fresh : t.id < next
  original : t.recovery = false → t.id ∉ exited
  unreleased : t.id ∉ released
  recovery : t.recovery = true → phase = .stopping

/-- The registry and the records. -/
structure Registry (w : Owner τ) : Prop where
  ids : (w.tickets.map Ticket.id).Nodup
  holds : ∀ t ∈ w.tickets, Holds w.phase w.next w.exited w.released t
  used : ∀ id, id ∈ w.exited ∨ id ∈ w.released → id < w.next
  bound : w.tickets.length ≤ capacity
  retained : ∀ id ∈ w.retained, id ∈ w.released ∨ ∃ t ∈ w.tickets, t.recovery = true ∧ t.id = id
  runs : ∀ id, (id, true) ∈ w.runs ↔ id ∈ w.released
  once : w.runs.Pairwise fun a b ↦ a.2 = true → b.1 ≠ a.1
  joined : w.joined ≠ [] → w.phase = .stopping ∧ w.tickets = []

/-- What holds of a thread. -/
structure OfThread (w : Owner τ) (T : τ) : Prop where
  stands : w.Stands T
  live : ∀ t ∈ w.tickets, t.thread = T → t.id ∉ w.exited →
    ∃ depth, w.frames T = bodies t.original depth
  monitors : ∀ id, w.cleanupThread id = some T →
    ∃ t rest, w.frames T = [.join (.cleanup t rest)] ∧ t.id = id

structure Sound (w : Owner τ) : Prop where
  threads : ∀ T, w.OfThread T
  registry : w.Registry

theorem Sound.create : (create τ).Sound where
  threads _ := ⟨.idle rfl, nofun, nofun⟩
  registry := ⟨nodup_nil, nofun, nofun, zero_le _, nofun, fun _ ↦ ⟨nofun, nofun⟩,
    List.Pairwise.nil, fun h ↦ absurd rfl h⟩

theorem Sound.stands {w : Owner τ} (h : w.Sound) (T : τ) : w.Stands T := (h.threads T).stands

theorem Registry.unique {w : Owner τ} (h : w.Registry) {t u : Ticket τ} (ht : t ∈ w.tickets)
    (hu : u ∈ w.tickets) (hid : t.id = u.id) : t = u :=
  inj_on_of_nodup_map h.ids ht hu hid

/-- Two tickets in the registry whose bodies one thread runs are one. -/
theorem Running.id_ne {w : Owner τ} {T : τ} {t u : Ticket τ} (h : w.Registry)
    (hrunning : w.Running T t) (hu : u ∈ w.tickets) (hthread : u.thread ≠ T) : u.id ≠ t.id := by
  intro hid
  obtain ht | ht := hrunning.registered
  · exact hthread (h.unique hu ht hid ▸ hrunning.thread)
  · exact hthread (h.unique hu ht hid ▸ hrunning.thread)

/-- What a step leaves to a thread that does not take it. -/
structure Keeps (w w' : Owner τ) (T : τ) : Prop where
  frames : w'.frames T = w.frames T
  phase : w.phase = .stopping → w'.phase = .stopping
  exited : w.exited ⊆ w'.exited
  released : w.released ⊆ w'.released
  issued : ∀ t ∈ w'.tickets, t.thread = T → t ∈ w.tickets
  kept : ∀ t ∈ w.tickets, t.thread = T → t.id ∉ w.exited → t ∈ w'.tickets ∧ t.id ∉ w'.exited
  retained : ∀ t ∈ w.tickets, t.recovery = true → t ∈ w'.tickets ∨ t.id ∈ w'.released
  monitors : ∀ t ∈ w.tickets, t.recovery = true → w.cleanupThread t.id = some T →
    t ∈ w'.tickets ∧ w'.cleanupThread t.id = some T
  watched : ∀ id, w'.cleanupThread id = some T → w.cleanupThread id = some T

theorem Keeps.refl (w : Owner τ) (T : τ) : w.Keeps w T :=
  ⟨rfl, id, Subset.refl _, Subset.refl _, fun _ ht _ ↦ ht, fun _ ht _ hinside ↦ ⟨ht, hinside⟩,
    fun _ ht _ ↦ .inl ht, fun _ ht _ h ↦ ⟨ht, h⟩, fun _ ↦ id⟩

theorem Stands.keep {w w' : Owner τ} {T : τ} (h : w.Stands T) (he : w.Keeps w' T) :
    w'.Stands T := by
  cases h with
  | idle stack => exact .idle (he.frames.trans stack)
  | running t depth stack running =>
    refine .running t depth (he.frames.trans stack) ?_
    obtain ht | ht := running.registered
    · obtain ⟨hkept, hinside⟩ := he.kept t ht running.thread running.inside
      exact ⟨running.thread, running.original, hinside, .inl hkept⟩
    · obtain ⟨hkept, hinside⟩ := he.kept t.transferred ht running.thread running.inside
      exact ⟨running.thread, running.original, hinside, .inr hkept⟩
  | joining at_ stack fenced known place =>
    refine .joining at_ (he.frames.trans stack) (he.phase fenced) ?_ ?_
    · intro t ht hrecovery
      obtain hreleased | hticket := known t ht hrecovery
      · exact .inl (he.released hreleased)
      · exact (he.retained t hticket hrecovery).symm
    · cases at_ with
      | each | completion => trivial
      | origin => exact place
      | monitor t rest => exact ⟨place.1, he.exited place.2⟩
      | cleanup t rest =>
        obtain ⟨⟨hrecovery, hexited⟩, hticket, hmonitor⟩ := place
        exact ⟨⟨hrecovery, he.exited hexited⟩, he.monitors t hticket hrecovery hmonitor⟩

theorem OfThread.keep {w w' : Owner τ} {T : τ} (h : w.OfThread T) (he : w.Keeps w' T) :
    w'.OfThread T where
  stands := h.stands.keep he
  live t ht hthread hinside := by
    obtain ⟨depth, hstack⟩ :=
      h.live t (he.issued t ht hthread) hthread fun hexited ↦ hinside (he.exited hexited)
    exact ⟨depth, he.frames.trans hstack⟩
  monitors id hmonitor := by
    obtain ⟨t, rest, hstack, hid⟩ := h.monitors id (he.watched id hmonitor)
    exact ⟨t, rest, he.frames.trans hstack, hid⟩

/-- A step of one thread. -/
theorem Sound.moves {w w' : Owner τ} {T : τ} (h : w.Sound) (hothers : ∀ T' ≠ T, w.Keeps w' T')
    (hself : w'.OfThread T) (hregistry : w'.Registry) : w'.Sound := by
  refine ⟨fun T' ↦ ?_, hregistry⟩
  by_cases hT : T' = T
  · rwa [hT]
  · exact (h.threads T').keep (hothers T' hT)

/-- A thread that runs no body has left those of its tickets. -/
theorem OfThread.exited {w : Owner τ} {T : τ} (h : w.OfThread T)
    (hout : ∀ t depth, w.frames T ≠ bodies t depth) {t : Ticket τ} (ht : t ∈ w.tickets)
    (hthread : t.thread = T) : t.id ∈ w.exited := by
  by_contra hinside
  obtain ⟨depth, hstack⟩ := h.live t ht hthread hinside
  exact hout _ depth hstack

/-! ## Steps -/

section Steps

variable [DecidableEq τ] {w : Owner τ} {T : τ}

@[simp] theorem put_self (w : Owner τ) (T : τ) (stack : List (Frame τ)) :
    (w.put T stack).frames T = stack := update_self ..

@[simp] theorem put_exited (w : Owner τ) (T : τ) (stack : List (Frame τ)) :
    (w.put T stack).exited = w.exited := rfl

theorem put_ne (w : Owner τ) {T T' : τ} (hT : T' ≠ T) (stack : List (Frame τ)) :
    (w.put T stack).frames T' = w.frames T' := update_of_ne hT ..

variable {t : Ticket τ}

omit [DecidableEq τ] in
theorem bound_bodies {depth : ℕ} (hstack : w.frames T = bodies t depth) :
    w.bound T = List.replicate (depth + 1) t := by
  unfold bound
  rw [hstack]
  clear hstack
  induction depth with
  | zero => rfl
  | succ depth ih =>
    rw [bodies_succ, filterMap_cons, replicate_succ, ih]

/-- A step that only moves its thread, and leaves a cleanup or a body where it was. -/
theorem Sound.put (h : w.Sound) {stack : List (Frame τ)} (hstands : (w.put T stack).Stands T)
    (hbodies : ∀ t depth, w.frames T = bodies t depth → ∃ depth', stack = bodies t depth')
    (hcleanup : ∀ t rest, w.frames T ≠ [.join (.cleanup t rest)]) : (w.put T stack).Sound := by
  refine h.moves (fun T' hT ↦ { Keeps.refl w T' with frames := put_ne w hT stack }) ⟨hstands, ?_, ?_⟩
    { h.registry with }
  · intro t ht hthread hinside
    obtain ⟨depth, hstack⟩ := (h.threads T).live t ht hthread hinside
    obtain ⟨depth', hstack'⟩ := hbodies t.original depth hstack
    exact ⟨depth', by rw [put_self, hstack']⟩
  · intro id hmonitor
    obtain ⟨t, rest, hstack, -⟩ := (h.threads T).monitors id hmonitor
    exact absurd hstack (hcleanup t rest)

/-- The same for a call of `join!`. -/
theorem Sound.put_join (h : w.Sound) {at_ : Join τ} (hstack : w.frames T = [.join at_])
    (hcleanup : ∀ t rest, at_ ≠ .cleanup t rest) {stack : List (Frame τ)}
    (hstands : (w.put T stack).Stands T) : (w.put T stack).Sound := by
  refine h.put hstands ?_ ?_
  · intro t depth hbodies
    exact absurd (hbodies.symm.trans hstack) (bodies_ne_join t depth at_ [])
  · intro t rest heq
    rw [hstack] at heq
    exact hcleanup t rest (join.inj (cons.inj heq).1)

variable {frames : τ → List (Frame τ)}

omit [DecidableEq τ] in
/-- A ticket is issued. -/
theorem Registry.admission (h : w.Registry) (T : τ) (hready : w.phase = .ready)
    (hroom : w.tickets.length < capacity) :
    ({ w with tickets := w.tickets ++ [⟨w.next, T, false⟩], next := w.next + 1, frames } :
      Owner τ).Registry := by
  have hunused : w.next ∉ w.exited ∧ w.next ∉ w.released :=
    ⟨fun hin ↦ Nat.lt_irrefl _ (h.used _ (.inl hin)),
      fun hin ↦ Nat.lt_irrefl _ (h.used _ (.inr hin))⟩
  refine { h with ids := ?_, holds := ?_, used := ?_, bound := ?_, retained := ?_, joined := ?_ }
  · rw [map_append]
    refine List.Nodup.append h.ids (nodup_singleton _) ?_
    intro id hold hnew
    obtain ⟨t, ht, rfl⟩ := mem_map.mp hold
    have heq : t.id = w.next := by simpa using hnew
    exact Nat.ne_of_lt (h.holds t ht).fresh heq
  · intro t ht
    obtain hold | hnew := mem_append.mp ht
    · exact { h.holds t hold with fresh := lt_succ_of_lt (h.holds t hold).fresh }
    · obtain rfl := mem_singleton.mp hnew
      exact ⟨lt_succ_self _, fun _ ↦ hunused.1, hunused.2, nofun⟩
  · exact fun id hin ↦ lt_succ_of_lt (h.used id hin)
  · rw [length_append]
    exact hroom
  · intro id hid
    obtain hreleased | ⟨t, ht, hrecovery, hid⟩ := h.retained id hid
    · exact .inl hreleased
    · exact .inr ⟨t, mem_append_left _ ht, hrecovery, hid⟩
  · intro hjoined
    have hstopping := (h.joined hjoined).1
    rw [hready] at hstopping
    cases hstopping

/-- What is left when a ticket is removed. -/
theorem mem_drop {u : Ticket τ} : u ∈ w.drop t ↔ u ∈ w.tickets ∧ (t ∈ w.tickets → u.id ≠ t.id) := by
  unfold drop
  split_ifs with ht <;> simp [ht]

theorem drop_sublist (t : Ticket τ) : (w.drop t).Sublist w.tickets := by
  unfold drop
  split_ifs
  · exact filter_sublist
  · exact List.Sublist.refl _

theorem released_or_dropped {u : Ticket τ} (hu : u ∈ w.tickets) :
    u.id ∈ w.released ++ [t.id] ∨ u ∈ w.drop t := by
  by_cases hid : u.id = t.id
  · exact .inl (mem_append_right _ (mem_singleton.mpr hid))
  · exact .inr (mem_drop.mpr ⟨hu, fun _ ↦ hid⟩)

omit [DecidableEq τ] in
theorem update_eq_some {f : ℕ → Option τ} {a b : ℕ} {c : Option τ} {T : τ} :
    update f a c b = some T ↔ b = a ∧ c = some T ∨ b ≠ a ∧ f b = some T := by
  by_cases hb : b = a
  · simp [hb]
  · simp [hb]

/-- A body exits. -/
theorem Registry.exit (h : w.Registry) (hrunning : w.Running T t) :
    ({ w with tickets := w.drop t, exited := w.exited ++ [t.id], frames } : Owner τ).Registry := by
  have hlt : t.id < w.next :=
    hrunning.registered.elim (fun ht ↦ (h.holds t ht).fresh) fun ht ↦ (h.holds _ ht).fresh
  have hsub := drop_sublist (w := w) t
  refine { h with
    ids := h.ids.sublist (hsub.map _), holds := ?_, used := ?_
    bound := Nat.le_trans hsub.length_le h.bound, retained := ?_, joined := ?_ }
  · intro u hu
    obtain ⟨hin, hne⟩ := mem_drop.mp hu
    refine { h.holds u hin with original := fun horiginal hexited ↦ ?_ }
    obtain hold | hnew := mem_append.mp hexited
    · exact (h.holds u hin).original horiginal hold
    · have hid : u.id = t.id := mem_singleton.mp hnew
      obtain ht | ht := hrunning.registered
      · exact hne ht hid
      · rw [h.unique hin ht hid] at horiginal
        cases horiginal
  · rintro id (hexited | hreleased)
    · obtain hold | hnew := mem_append.mp hexited
      · exact h.used id (.inl hold)
      · rwa [mem_singleton.mp hnew]
    · exact h.used id (.inr hreleased)
  · intro id hid
    obtain hreleased | ⟨u, hu, hrecovery, hid⟩ := h.retained id hid
    · exact .inl hreleased
    · refine .inr ⟨u, mem_drop.mpr ⟨hu, fun ht hsame ↦ ?_⟩, hrecovery, hid⟩
      rw [h.unique hu ht hsame, hrunning.original] at hrecovery
      cases hrecovery
  · intro hjoined
    obtain ⟨hstopping, hempty⟩ := h.joined hjoined
    exact ⟨hstopping, eq_nil_of_subset_nil (hempty ▸ hsub.subset)⟩

omit [DecidableEq τ] in
theorem mem_transfer {u : Ticket τ} (ht : t ∈ w.tickets) :
    u ∈ w.transfer t ↔ u = t.transferred ∨ (u ∈ w.tickets ∧ u.id ≠ t.id) := by
  constructor
  · intro hu
    obtain ⟨v, hv, rfl⟩ := mem_map.mp hu
    split_ifs with hid
    · exact .inl rfl
    · exact .inr ⟨hv, hid⟩
  · rintro (rfl | ⟨hu, hid⟩)
    · exact mem_map.mpr ⟨t, ht, by simp⟩
    · exact mem_map.mpr ⟨u, hu, by simp [hid]⟩

omit [DecidableEq τ] in
theorem Registry.transfer (h : w.Registry) (ht : t ∈ w.tickets) (horiginal : t.recovery = false) :
    ({ w with phase := .stopping, tickets := w.transfer t, retained := w.retained ++ [t.id] } :
      Owner τ).Registry := by
  have hids : (w.transfer t).map Ticket.id = w.tickets.map Ticket.id := by
    unfold Owner.transfer
    rw [List.map_map]
    refine map_congr_left fun u _ ↦ ?_
    by_cases hid : u.id = t.id <;> simp [hid, transferred]
  refine { h with ids := ?_, holds := ?_, bound := ?_, retained := ?_, joined := ?_ }
  · rw [hids]
    exact h.ids
  · intro u hu
    obtain rfl | ⟨hu, -⟩ := (mem_transfer ht).mp hu
    · exact { h.holds t ht with original := nofun, recovery := fun _ ↦ rfl }
    · exact { h.holds u hu with recovery := fun _ ↦ rfl }
  · unfold Owner.transfer
    rw [length_map]
    exact h.bound
  · intro id hid
    obtain hold | hnew := mem_append.mp hid
    · obtain hreleased | ⟨u, hu, hrecovery, hid⟩ := h.retained id hold
      · exact .inl hreleased
      · refine .inr ⟨u, (mem_transfer ht).mpr (.inr ⟨hu, fun hsame ↦ ?_⟩), hrecovery, hid⟩
        rw [h.unique hu ht hsame, horiginal] at hrecovery
        cases hrecovery
    · rw [mem_singleton.mp hnew]
      exact .inr ⟨t.transferred, (mem_transfer ht).mpr (.inl rfl), rfl, rfl⟩
  · intro hjoined
    have hempty := (h.joined hjoined).2
    rw [hempty] at ht
    cases ht

/-- A thread that runs a body does not pass the guard of `join!`. -/
theorem Running.selfDrain (h : w.Running T t) : w.selfDrain T := by
  refine any_eq_true.mpr ?_
  obtain ht | ht := h.registered
  · exact ⟨t, ht, by simp [h.thread, h.original]⟩
  · refine ⟨t.transferred, ht, ?_⟩
    have hthread : t.transferred.thread = T := h.thread
    have hinside : t.transferred.id ∉ w.exited := h.inside
    simp [hthread, hinside]

/-- A thread that runs a cleanup does not pass it either. -/
theorem selfDrain_of_cleanup (ht : t ∈ w.tickets) (hrecovery : t.recovery)
    (hmonitor : w.cleanupThread t.id = some T) : w.selfDrain T :=
  any_eq_true.mpr ⟨t, ht, by simp [hrecovery, hmonitor]⟩

omit [DecidableEq τ] in
/-- A thread in `join!` is in nothing else. -/
theorem Sound.of_join (h : w.Sound) {at_ : Join τ} {below : List (Frame τ)}
    (hstack : w.frames T = .join at_ :: below) : below = [] ∧ w.phase = .stopping ∧
      (∀ t ∈ at_.pending, t.recovery → t.id ∈ w.released ∨ t ∈ w.tickets) ∧ w.Joining T at_ := by
  cases h.stands T with
  | idle stack =>
    rw [stack] at hstack
    cases hstack
  | running t depth stack running =>
    exact absurd (stack.symm.trans hstack) (bodies_ne_join t depth _ _)
  | joining at_' stack fenced known place =>
    obtain ⟨heq, rfl⟩ := cons.inj (stack.symm.trans hstack)
    obtain rfl := join.inj heq
    exact ⟨rfl, fenced, known, place⟩

omit [DecidableEq τ] in
theorem Registry.once_append (h : w.Registry) (ht : t ∈ w.tickets) (ok : Bool) :
    (w.runs ++ [(t.id, ok)]).Pairwise fun a b ↦ a.2 → b.1 ≠ a.1 := by
  refine pairwise_append.mpr ⟨h.once, pairwise_singleton _ _, ?_⟩
  intro a ha b hb hok hsame
  obtain rfl := mem_singleton.mp hb
  obtain ⟨id, ok⟩ := a
  obtain rfl : ok := hok
  obtain rfl : t.id = id := hsame
  exact (h.holds t ht).unreleased ((h.runs t.id).mp ha)

/-- A cleanup has succeeded. -/
theorem Registry.release (h : w.Registry) (ht : t ∈ w.tickets) {cleanupThread : ℕ → Option τ} :
    ({ w with tickets := w.drop t, released := w.released ++ [t.id], cleanupThread,
              runs := w.runs ++ [(t.id, true)], frames } : Owner τ).Registry := by
  have hsub := drop_sublist (w := w) t
  refine ⟨h.ids.sublist (hsub.map _), ?_, ?_, Nat.le_trans hsub.length_le h.bound, ?_, ?_, ?_, ?_⟩
  · intro u hu
    obtain ⟨hin, hne⟩ := mem_drop.mp hu
    refine { h.holds u hin with unreleased := ?_ }
    simp [(h.holds u hin).unreleased, hne ht]
  · rintro id (hexited | hreleased)
    · exact h.used id (.inl hexited)
    · obtain hold | hnew := mem_append.mp hreleased
      · exact h.used id (.inr hold)
      · rw [mem_singleton.mp hnew]
        exact (h.holds t ht).fresh
  · intro id hid
    obtain hreleased | ⟨u, hu, hrecovery, hid⟩ := h.retained id hid
    · exact .inl (mem_append_left _ hreleased)
    · by_cases hsame : u.id = t.id
      · exact .inl (mem_append_right _ (by simp [← hid, hsame]))
      · exact .inr ⟨u, mem_drop.mpr ⟨hu, fun _ ↦ hsame⟩, hrecovery, hid⟩
  · simp [h.runs]
  · exact h.once_append ht _
  · intro hjoined
    have hempty := (h.joined hjoined).2
    rw [hempty] at ht
    cases ht

omit [DecidableEq τ] in
/-- A cleanup has failed; its ticket stays. -/
theorem Registry.failed (h : w.Registry) (ht : t ∈ w.tickets) {cleanupThread : ℕ → Option τ} :
    ({ w with cleanupThread, runs := w.runs ++ [(t.id, false)], frames } : Owner τ).Registry := by
  refine { h with runs := fun id ↦ ?_, once := h.once_append ht false }
  simp [h.runs]

omit [DecidableEq τ] in
theorem Sound.open_ (h : w.Sound) (hphase : w.phase = .installing) :
    ({ w with phase := .ready } : Owner τ).Sound := by
  have hregistry := h.registry
  have hunfenced : w.phase ≠ .stopping := by
    rw [hphase]
    decide
  refine ⟨fun T ↦ (h.threads T).keep
    { Keeps.refl w T with phase := fun hfenced ↦ absurd hfenced hunfenced }, { hregistry with
      holds := fun t ht ↦ { hregistry.holds t ht with recovery := fun hrecovery ↦ ?_ }
      joined := fun hjoined ↦ absurd (hregistry.joined hjoined).1 hunfenced }⟩
  exact absurd ((hregistry.holds t ht).recovery hrecovery) hunfenced

section

variable (h : w.Sound)
include h

theorem Sound.enter : (w.enter T).Sound := by
  have hidle (hready : w.phase = .ready) (hfound : (w.bound T).find?
      (fun ticket ↦ ticket.thread = T ∧ ticket ∈ w.tickets) = none) : w.frames T = [] := by
    cases h.stands T with
    | idle stack => exact stack
    | running t depth stack running =>
      have hgone : t ∉ w.tickets := by
        have hmem : t ∈ w.bound T := by
          rw [bound_bodies stack]
          exact mem_cons_self
        simpa [running.thread] using find?_eq_none.mp hfound t hmem
      have hfenced := (h.registry.holds _ (running.registered.resolve_left hgone)).recovery rfl
      rw [hready] at hfenced
      cases hfenced
    | joining at_ stack fenced =>
      rw [hready] at fenced
      cases fenced
  unfold Owner.enter
  split
  · next t hfound =>
    cases h.stands T with
    | idle stack => simp [bound, stack] at hfound
    | joining at_ stack => simp [bound, stack] at hfound
    | running t' depth stack running =>
      have hmem := mem_of_find?_eq_some hfound
      rw [bound_bodies stack] at hmem
      obtain rfl := eq_of_mem_replicate hmem
      refine h.put (.running t (depth + 1) (by rw [put_self, stack, bodies_succ]) ?_) ?_ ?_
      · exact { running with }
      · intro t' depth' hbodies
        obtain rfl := bodies_ticket (stack.symm.trans hbodies)
        exact ⟨depth + 1, by rw [stack, bodies_succ]⟩
      · intro t' rest hjoin
        exact bodies_ne_join t depth _ [] (stack.symm.trans hjoin)
  · next hfound =>
    split_ifs with hphase hcapacity
    · exact h
    · exact h
    · have hready : w.phase = .ready := by simpa using hphase
      have hempty := hidle hready hfound
      have hregistry := h.registry
      have hunused : w.next ∉ w.exited := fun hin ↦ Nat.lt_irrefl _ (hregistry.used _ (.inl hin))
      refine h.moves (fun T' hT ↦ { Keeps.refl w T' with
        frames := put_ne _ hT _
        issued := fun t ht hthread ↦ (mem_append.mp ht).resolve_right fun hnew ↦ hT ?_
        kept := fun _ ht _ hinside ↦ ⟨mem_append_left _ ht, hinside⟩
        retained := fun _ ht _ ↦ .inl (mem_append_left _ ht)
        monitors := fun _ ht _ h ↦ ⟨mem_append_left _ ht, h⟩ }) ⟨?_, ?_, ?_⟩
        (hregistry.admission T hready (by omega))
      · rw [← hthread, mem_singleton.mp hnew]
      · refine .running ⟨w.next, T, false⟩ 0 (by rw [put_self, hempty]; rfl) ⟨rfl, rfl, hunused, ?_⟩
        exact .inl (mem_append_right _ mem_cons_self)
      · intro t ht hthread hinside
        obtain hold | hnew := mem_append.mp ht
        · have hout (t : Ticket τ) (depth : ℕ) : w.frames T ≠ bodies t depth := by
            rw [hempty]
            exact (bodies_ne_nil t depth).symm
          exact absurd ((h.threads T).exited hout hold hthread) hinside
        · obtain rfl := mem_singleton.mp hnew
          exact ⟨0, by rw [put_self, hempty]; rfl⟩
      · intro id hmonitor
        obtain ⟨t, rest, hstack, -⟩ := (h.threads T).monitors id hmonitor
        rw [hempty] at hstack
        cases hstack

theorem Sound.exit (hstack : w.frames T = bodies t 0) (hrunning : w.Running T t) :
    ({ w with tickets := w.drop t, exited := w.exited ++ [t.id] }.put T []).Sound := by
  have hregistry := h.registry
  have hkept : ∀ u ∈ w.tickets, u.recovery → u ∈ w.drop t := by
    intro u hu hrecovery
    refine mem_drop.mpr ⟨hu, fun ht hsame ↦ ?_⟩
    rw [hregistry.unique hu ht hsame, hrunning.original] at hrecovery
    cases hrecovery
  refine h.moves (fun T' hT ↦ { Keeps.refl w T' with
    frames := put_ne _ hT _
    exited := subset_append_left _ _
    issued := fun u hu _ ↦ (mem_drop.mp hu).1
    kept := fun u hu hthread hinside ↦ ?_
    retained := fun u hu hrecovery ↦ .inl (hkept u hu hrecovery)
    monitors := fun u hu hrecovery hmonitor ↦ ⟨hkept u hu hrecovery, hmonitor⟩ })
    ⟨.idle (put_self ..), ?_, ?_⟩ (hregistry.exit hrunning)
  · have hne := hrunning.id_ne hregistry hu (hthread ▸ hT)
    exact ⟨mem_drop.mpr ⟨hu, fun _ ↦ hne⟩, by simp [hinside, hne]⟩
  · intro u hu hthread hinside
    have hout : u.id ∉ w.exited ∧ u.id ≠ t.id := by simpa using hinside
    obtain ⟨depth, hstack'⟩ := (h.threads T).live u (mem_drop.mp hu).1 hthread hout.1
    have hsame := bodies_ticket (hstack.symm.trans hstack')
    exact absurd (congrArg Ticket.id hsame).symm hout.2
  · intro id hmonitor
    obtain ⟨u, rest, hstack', -⟩ := (h.threads T).monitors id hmonitor
    exact absurd (hstack.symm.trans hstack') (bodies_ne_join t 0 _ [])

theorem Sound.leave : (w.leave T).Sound := by
  cases h.stands T with
  | idle stack => simpa [Owner.leave, stack] using h
  | joining at_ stack => simpa [Owner.leave, stack] using h
  | running t depth stack running =>
    cases depth with
    | zero =>
      have hleave : w.leave T =
          { w with tickets := w.drop t, exited := w.exited ++ [t.id] }.put T [] := by
        simp [Owner.leave, stack]
      rw [hleave]
      exact h.exit stack running
    | succ depth =>
      have hleave : w.leave T = w.put T (bodies t depth) := by
        simp [Owner.leave, stack]
      rw [hleave]
      refine h.put (.running t depth (put_self ..) ?_) ?_ ?_
      · exact { running with }
      · intro t' depth' hbodies
        obtain rfl := bodies_ticket (stack.symm.trans hbodies)
        exact ⟨depth, rfl⟩
      · intro t' rest hjoin
        exact bodies_ne_join t (depth + 1) _ [] (stack.symm.trans hjoin)

theorem Sound.retain : (w.retain T).Sound := by
  cases h.stands T with
  | idle stack => simpa [Owner.retain, bound, stack] using h
  | joining at_ stack => simpa [Owner.retain, bound, stack] using h
  | running t depth stack running =>
    unfold Owner.retain
    rw [bound_bodies stack, replicate_succ]
    dsimp only
    split_ifs with hallowed
    · obtain ⟨⟨-, ht⟩, horiginal⟩ := hallowed
      have hregistry := h.registry
      have hne : ∀ u ∈ w.tickets, u.recovery → u.id ≠ t.id := by
        intro u hu hrecovery hsame
        rw [hregistry.unique hu ht hsame, horiginal] at hrecovery
        cases hrecovery
      have hkept : ∀ u ∈ w.tickets, u.id ≠ t.id → u ∈ w.transfer t :=
        fun u hu hid ↦ (mem_transfer ht).mpr (.inr ⟨hu, hid⟩)
      refine h.moves (fun T' hT ↦ { Keeps.refl w T' with
        phase := fun _ ↦ rfl
        issued := fun u hu hthread ↦ ((mem_transfer ht).mp hu).elim (fun heq ↦ ?_) And.left
        kept := fun u hu hthread hinside ↦
          ⟨hkept u hu (running.id_ne hregistry hu (hthread ▸ hT)), hinside⟩
        retained := fun u hu hrecovery ↦ .inl (hkept u hu (hne u hu hrecovery))
        monitors := fun u hu hrecovery hmonitor ↦ ⟨hkept u hu (hne u hu hrecovery), hmonitor⟩ })
        ⟨?_, fun u hu hthread hinside ↦ ?_, (h.threads T).monitors⟩
        (hregistry.transfer ht horiginal)
      · subst heq
        exact absurd (hthread.symm.trans running.thread) hT
      · refine .running t depth stack ⟨running.thread, horiginal, running.inside, .inr ?_⟩
        exact (mem_transfer ht).mpr (.inl rfl)
      · obtain rfl | ⟨hu, -⟩ := (mem_transfer ht).mp hu
        · exact (h.threads T).live t ht hthread hinside
        · exact (h.threads T).live u hu hthread hinside
    · exact h

theorem Sound.fence : (w.fence T).Sound := by
  unfold Owner.fence
  split_ifs
  · exact h
  · exact ⟨fun T' ↦ (h.threads T').keep { Keeps.refl w T' with phase := fun _ ↦ rfl }, { h.registry with
      holds := fun t ht ↦ { h.registry.holds t ht with recovery := fun _ ↦ rfl }
      joined := fun hjoined ↦ ⟨rfl, (h.registry.joined hjoined).2⟩ }⟩

/-- The locked section of `join!`, from outside or in a turn of its loop. -/
theorem Sound.snapshot_outside (hout : w.frames T = [] ∨
    ∃ at_, w.frames T = [.join at_] ∧ ∀ t rest, at_ ≠ .cleanup t rest) :
    (w.snapshot T []).Sound := by
  have hput {w' : Owner τ} (h' : w'.Sound) (hframes : w'.frames = w.frames)
      {stack : List (Frame τ)} (hstands : (w'.put T stack).Stands T) :
      (w'.put T stack).Sound := by
    obtain hempty | ⟨at_, hjoin, hat⟩ := hout
    · have hempty' : w'.frames T = [] := by rw [hframes, hempty]
      refine h'.put hstands ?_ ?_
      · intro t depth hbodies
        exact absurd (hbodies.symm.trans hempty') (bodies_ne_nil t depth)
      · intro t rest heq
        rw [hempty'] at heq
        cases heq
    · exact h'.put_join (by rw [hframes, hjoin]) hat hstands
  unfold snapshot
  split_ifs with hrefused hempty
  · exact hput h rfl (.idle (put_self ..))
  · have hfenced : w.phase = .stopping := by
      by_contra hphase
      exact hrefused (.inr hphase)
    have hjoined : ({ w with joined := w.joined ++ [T] } : Owner τ).Sound :=
      ⟨fun T' ↦ (h.threads T').keep { Keeps.refl w T' with },
        { h.registry with joined := fun _ ↦ ⟨hfenced, hempty⟩ }⟩
    exact hput hjoined rfl (.idle (put_self ..))
  · have hfenced : w.phase = .stopping := by
      by_contra hphase
      exact hrefused (.inr hphase)
    exact hput h rfl (.joining (.each w.tickets) (put_self ..) hfenced
      (fun t ht _ ↦ .inr ht) trivial)

theorem Sound.snapshot (hfree : w.free T) : (w.snapshot T (w.frames T)).Sound := by
  have hrefused (hdrain : w.selfDrain T) : (w.snapshot T (w.frames T)).Sound := by
    have hsame : w.snapshot T (w.frames T) = w := by
      simp [Owner.snapshot, hdrain, Owner.put]
    rwa [hsame]
  cases h.stands T with
  | idle stack =>
    rw [stack]
    exact h.snapshot_outside (.inl stack)
  | running t depth stack running => exact hrefused running.selfDrain
  | joining at_ stack fenced known place =>
    cases at_ with
    | cleanup t rest =>
      obtain ⟨⟨hrecovery, -⟩, ht, hmonitor⟩ := place
      exact hrefused (selfDrain_of_cleanup ht hrecovery hmonitor)
    | each | origin | monitor | completion => simp [free, stack] at hfree

theorem Sound.pick (k : ℕ) : (w.pick T k).Sound := by
  unfold Owner.pick
  split
  · next rest below hstack =>
    obtain ⟨rfl, fenced, known, -⟩ := h.of_join hstack
    split
    · next ticket hget =>
      have hknown : ∀ t ∈ ticket :: rest.eraseIdx k, t.recovery →
          t.id ∈ w.released ∨ t ∈ w.tickets := by
        intro t ht
        obtain rfl | ht := mem_cons.mp ht
        · exact known t (mem_of_getElem? hget)
        · exact known t (eraseIdx_subset ht)
      split_ifs with hrecovery
      · refine h.put_join hstack (fun _ _ heq ↦ by cases heq) ?_
        exact .joining _ (put_self ..) fenced hknown hrecovery
      · refine h.put_join hstack (fun _ _ heq ↦ by cases heq) ?_
        exact .joining _ (put_self ..) fenced hknown trivial
    · exact h
  · exact h

theorem Sound.giveUp : (w.giveUp T).Sound := by
  unfold Owner.giveUp
  split
  · next hstack =>
    obtain ⟨rfl, -⟩ := h.of_join hstack
    exact h.put_join hstack (fun _ _ heq ↦ by cases heq) (.idle (put_self ..))
  · next hstack =>
    obtain ⟨rfl, -⟩ := h.of_join hstack
    exact h.put_join hstack (fun _ _ heq ↦ by cases heq) (.idle (put_self ..))
  · exact h

/-- A join takes the monitor of a cleanup that has not succeeded, and runs it. -/
theorem Sound.start {rest : List (Ticket τ)} (hstack : w.frames T = [.join (.monitor t rest)])
    (hmonitor : w.cleanupThread t.id = none ∨ w.cleanupThread t.id = some T)
    (hunreleased : t.id ∉ w.released) :
    ({ w with cleanupThread := update w.cleanupThread t.id (some T) }.put T
      [.join (.cleanup t rest)]).Sound := by
  obtain ⟨-, fenced, known, hrecovery, hexited⟩ := h.of_join hstack
  have ht : t ∈ w.tickets := (known t mem_cons_self hrecovery).resolve_left hunreleased
  have hnone : w.cleanupThread t.id = none := by
    refine hmonitor.resolve_right fun hself ↦ ?_
    obtain ⟨u, rest', hstack', -⟩ := (h.threads T).monitors t.id hself
    rw [hstack] at hstack'
    cases hstack'
  have hout (u : Ticket τ) (depth : ℕ) : w.frames T ≠ bodies u depth := by
    rw [hstack]
    exact (bodies_ne_join u depth _ _).symm
  refine h.moves (fun T' hT ↦ { Keeps.refl w T' with
    frames := put_ne _ hT _
    monitors := fun u hu _ hheld ↦ ⟨hu, (update_of_ne (fun hid ↦ ?_) ..).trans hheld⟩
    watched := fun id hheld ↦ ?_ }) ⟨?_, ?_, fun id hheld ↦ ?_⟩ { h.registry with }
  · rw [hid, hnone] at hheld
    cases hheld
  · obtain ⟨-, hself⟩ | ⟨-, hold⟩ := update_eq_some.mp hheld
    · exact absurd (some.inj hself).symm hT
    · exact hold
  · exact .joining _ (put_self ..) fenced known ⟨⟨hrecovery, hexited⟩, ht, update_self ..⟩
  · exact fun u hu hthread hinside ↦ absurd ((h.threads T).exited hout hu hthread) hinside
  · obtain ⟨rfl, -⟩ | ⟨-, hold⟩ := update_eq_some.mp hheld
    · exact ⟨t, rest, put_self .., rfl⟩
    · obtain ⟨u, rest', hstack', -⟩ := (h.threads T).monitors id hold
      rw [hstack] at hstack'
      cases hstack'

theorem Sound.advance : (w.advance T).Sound := by
  unfold Owner.advance
  split
  · next below hstack =>
    obtain ⟨rfl, -⟩ := h.of_join hstack
    exact h.snapshot_outside (.inr ⟨_, hstack, fun _ _ heq ↦ by cases heq⟩)
  · next t rest below hstack =>
    obtain ⟨rfl, fenced, known, hrecovery⟩ := h.of_join hstack
    split_ifs with hexited
    · refine h.put_join hstack (fun _ _ heq ↦ by cases heq) ?_
      exact .joining _ (put_self ..) fenced known ⟨hrecovery, hexited⟩
    · exact h
  · next t rest below hstack =>
    obtain ⟨rfl, fenced, known, hrecovery, hexited⟩ := h.of_join hstack
    split_ifs with hmonitor hrealized
    · refine h.put_join hstack (fun _ _ heq ↦ by cases heq) ?_
      exact .joining _ (put_self ..) fenced known trivial
    · refine h.start hstack hmonitor ?_
      simpa [Realized, hrecovery] using hrealized
    · exact h
  · next t rest below hstack =>
    obtain ⟨rfl, fenced, known, -⟩ := h.of_join hstack
    split_ifs
    · refine h.put_join hstack (fun _ _ heq ↦ by cases heq) ?_
      exact .joining _ (put_self ..) fenced (fun t ht ↦ known t (mem_cons_of_mem _ ht)) trivial
    · exact h
  · exact h

theorem Sound.cleaned (ok : Bool) : (w.cleaned T ok).Sound := by
  unfold Owner.cleaned
  split
  · next t rest below hstack =>
    obtain ⟨rfl, fenced, known, ⟨hrecovery, hexited⟩, ht, hmonitor⟩ := h.of_join hstack
    have hregistry := h.registry
    have hlive {u : Ticket τ} (hu : u ∈ w.tickets) (hthread : u.thread = T) : u.id ∈ w.exited := by
      refine (h.threads T).exited (fun u depth ↦ ?_) hu hthread
      rw [hstack]
      exact (bodies_ne_join u depth _ _).symm
    have hheld {u : Ticket τ} {T' : τ} (hT : T' ≠ T) (hmonitor' : w.cleanupThread u.id = some T') :
        u.id ≠ t.id ∧ update w.cleanupThread t.id none u.id = some T' := by
      have hne : u.id ≠ t.id := by
        intro hid
        rw [hid, hmonitor] at hmonitor'
        exact hT (some.inj hmonitor').symm
      exact ⟨hne, (update_of_ne hne ..).trans hmonitor'⟩
    have hwatched {id : ℕ} {T' : τ} (h : update w.cleanupThread t.id none id = some T') :
        id ≠ t.id ∧ w.cleanupThread id = some T' :=
      (update_eq_some.mp h).resolve_left nofun
    have hended (id : ℕ) : update w.cleanupThread t.id none id ≠ some T := by
      intro hmonitor'
      obtain ⟨hne, hold⟩ := hwatched hmonitor'
      obtain ⟨u, rest', hstack', hid⟩ := (h.threads T).monitors id hold
      rw [hstack] at hstack'
      obtain ⟨rfl, -⟩ := Join.cleanup.inj (join.inj (cons.inj hstack').1)
      exact hne hid.symm
    split_ifs
    · refine h.moves (fun T' hT ↦ { Keeps.refl w T' with
        frames := put_ne _ hT _
        released := subset_append_left _ _
        issued := fun u hu _ ↦ (mem_drop.mp hu).1
        kept := fun u hu _ hinside ↦
          ⟨mem_drop.mpr ⟨hu, fun _ hid ↦ hinside (hid ▸ hexited)⟩, hinside⟩
        retained := fun u hu _ ↦ ?_
        monitors := fun u hu _ hmonitor' ↦
          ⟨mem_drop.mpr ⟨hu, fun _ ↦ (hheld hT hmonitor').1⟩, (hheld hT hmonitor').2⟩
        watched := fun id h ↦ (hwatched h).2 })
        ⟨.joining _ (put_self ..) fenced (fun u hu hrecovery' ↦ ?_) trivial,
          fun u hu hthread hinside ↦ absurd (hlive (mem_drop.mp hu).1 hthread) hinside,
          fun id h ↦ absurd h (hended id)⟩ (hregistry.release ht)
      · exact (released_or_dropped hu).symm
      · obtain hreleased | hin := known u hu hrecovery'
        · exact .inl (mem_append_left _ hreleased)
        · exact released_or_dropped hin
    · exact h.moves (fun T' hT ↦ { Keeps.refl w T' with
        frames := put_ne _ hT _
        monitors := fun u hu _ hmonitor' ↦ ⟨hu, (hheld hT hmonitor').2⟩
        watched := fun id h ↦ (hwatched h).2 })
        ⟨.idle (put_self ..), fun u hu hthread hinside ↦ absurd (hlive hu hthread) hinside,
          fun id h ↦ absurd h (hended id)⟩ (hregistry.failed ht)
  · exact h

theorem Sound.step (e : Event τ) : (w.step e).Sound := by
  cases e with
  | open_ =>
    simp only [Owner.step]
    split_ifs with hphase
    · exact h.open_ hphase
    · exact h
  | enter T =>
    simp only [Owner.step]
    split_ifs
    · exact h.enter
    · exact h
  | leave T exit => exact h.leave
  | retain T =>
    simp only [Owner.step]
    split_ifs
    · exact h.retain
    · exact h
  | fence T =>
    simp only [Owner.step]
    split_ifs
    · exact h.fence
    · exact h
  | join T =>
    simp only [Owner.step]
    split_ifs with hfree
    · exact h.snapshot hfree
    · exact h
  | pick T k => exact h.pick k
  | advance T => exact h.advance
  | giveUp T => exact h.giveUp
  | cleaned T ok => exact h.cleaned ok

theorem Sound.run (events : List (Event τ)) : (Runs.run Owner.step w events).Sound :=
  run_preserves Sound (fun _ e h ↦ h.step e) h events

end

/-- The records and the phase only grow, and behind the fence no ticket is issued. -/
structure Grows (w w' : Owner τ) : Prop where
  phase : w.phase.rank ≤ w'.phase.rank
  next : w.phase = .stopping → w'.next = w.next
  joined : w.joined ≠ [] → w'.joined ≠ []
  retained : w.retained ⊆ w'.retained

section

omit [DecidableEq τ]

theorem Grows.refl (w : Owner τ) : w.Grows w := ⟨Nat.le_refl _, fun _ ↦ rfl, id, fun _ ↦ id⟩

theorem stopping_of_rank {phase : Phase} (h : stopping.rank ≤ phase.rank) : phase = .stopping := by
  cases phase <;> simp_all [rank]

theorem Grows.trans {a b c : Owner τ} (h₁ : a.Grows b) (h₂ : b.Grows c) : a.Grows c where
  phase := Nat.le_trans h₁.phase h₂.phase
  next hphase := by
    have hphase' : b.phase = .stopping := stopping_of_rank (hphase ▸ h₁.phase)
    rw [h₂.next hphase', h₁.next hphase]
  joined h := h₂.joined (h₁.joined h)
  retained := List.Subset.trans h₁.retained h₂.retained

end

theorem snapshot_grows (w : Owner τ) (T : τ) (below : List (Frame τ)) :
    w.Grows (w.snapshot T below) := by
  unfold snapshot
  split_ifs
  · exact { Grows.refl w with }
  · exact { Grows.refl w with joined := fun _ h ↦ by simp [put] at h }
  · exact { Grows.refl w with }

theorem rank_le_stopping (phase : Phase) : phase.rank ≤ stopping.rank := by
  cases phase <;> decide

theorem enter_grows (w : Owner τ) (T : τ) : w.Grows (w.enter T) := by
  unfold enter
  split
  · exact { Grows.refl w with }
  · split_ifs with hphase hcapacity
    · exact { Grows.refl w with }
    · exact { Grows.refl w with }
    · refine { Grows.refl w with next := fun hstopping ↦ ?_ }
      rw [hstopping] at hphase
      exact absurd (by decide) hphase

theorem retain_grows (w : Owner τ) (T : τ) : w.Grows (w.retain T) := by
  unfold retain
  split
  · exact { Grows.refl w with }
  · split_ifs
    · exact { Grows.refl w with phase := rank_le_stopping _, retained := subset_append_left _ _ }
    · exact { Grows.refl w with }

theorem step_grows (w : Owner τ) (e : Event τ) : w.Grows (w.step e) := by
  cases e with
  | open_ =>
    simp only [step]
    split_ifs with hphase
    · refine { Grows.refl w with phase := ?_ }
      rw [hphase]
      exact zero_le _
    · exact { Grows.refl w with }
  | enter T =>
    simp only [step]
    split_ifs
    · exact enter_grows w T
    · exact { Grows.refl w with }
  | leave T exit =>
    simp only [step]
    unfold leave
    split <;> exact { Grows.refl w with }
  | retain T =>
    simp only [step]
    split_ifs
    · exact retain_grows w T
    · exact { Grows.refl w with }
  | fence T =>
    simp only [step]
    unfold fence
    split_ifs
    · exact { Grows.refl w with }
    · exact { Grows.refl w with phase := rank_le_stopping _ }
    · exact { Grows.refl w with }
  | join T =>
    simp only [step]
    split_ifs
    · exact snapshot_grows w T _
    · exact { Grows.refl w with }
  | pick T k =>
    simp only [step]
    unfold pick
    split
    · split
      · split_ifs <;> exact { Grows.refl w with }
      · exact { Grows.refl w with }
    · exact { Grows.refl w with }
  | advance T =>
    simp only [step]
    unfold advance
    split
    · exact snapshot_grows w T _
    · split_ifs <;> exact { Grows.refl w with }
    · split_ifs <;> exact { Grows.refl w with }
    · split_ifs <;> exact { Grows.refl w with }
    · exact { Grows.refl w with }
  | giveUp T =>
    simp only [step]
    unfold giveUp
    split <;> exact { Grows.refl w with }
  | cleaned T ok =>
    simp only [step]
    unfold cleaned
    split
    · split_ifs <;> exact { Grows.refl w with }
    · exact { Grows.refl w with }

theorem run_grows (w : Owner τ) (events : List (Event τ)) : w.Grows (run step w events) :=
  run_climbs Grows (fun _ ↦ True) Grows.refl (fun _ _ _ ↦ Grows.trans) (fun _ _ _ ↦ trivial)
    (fun w e _ ↦ step_grows w e) trivial events

/-- Behind the fence a body is entered in the body of a ticket that its thread runs. -/
theorem Sound.enter_fenced (h : w.Sound) (hfenced : w.phase = .stopping) :
    w.enter T = w ∨ ∃ t ∈ w.tickets, .body t false ∈ w.frames T ∧ t.thread = T ∧
      w.enter T = w.put T (.body t true :: w.frames T) := by
  unfold Owner.enter
  split
  · next t hfound =>
    have hmem := mem_of_find?_eq_some hfound
    have hheld : t.thread = T ∧ t ∈ w.tickets := by simpa using find?_some hfound
    refine .inr ⟨t, hheld.2, ?_, hheld.1, rfl⟩
    cases h.stands T with
    | idle stack => simp [bound, stack] at hmem
    | joining at_ stack => simp [bound, stack] at hmem
    | running t' depth stack running =>
      rw [bound_bodies stack] at hmem
      obtain rfl := eq_of_mem_replicate hmem
      simp [stack, bodies]
  · rw [if_pos (by rw [hfenced]; decide)]
    exact .inl rfl

/-- An idle thread passes the guard of `join!`. -/
theorem Sound.selfDrain_idle (h : w.Sound) (hidle : w.frames T = []) : w.selfDrain T = false := by
  refine Bool.eq_false_iff.mpr fun hdrain ↦ ?_
  obtain ⟨t, ht, hself⟩ := any_eq_true.mp hdrain
  obtain ⟨hthread, hinside⟩ | ⟨-, hmonitor⟩ := of_decide_eq_true hself
  · have hout (t : Ticket τ) (depth : ℕ) : w.frames T ≠ bodies t depth := by
      rw [hidle]
      exact (bodies_ne_nil t depth).symm
    have hexited := (h.threads T).exited hout ht hthread
    exact hinside.elim (fun horiginal ↦ (h.registry.holds t ht).original horiginal hexited)
      fun hinside ↦ hinside hexited
  · obtain ⟨u, rest, hstack, -⟩ := (h.threads T).monitors t.id hmonitor
    rw [hidle] at hstack
    cases hstack

/-- Any idle thread that joins comes to a cleanup that has not succeeded, once its body has exited
and nobody else runs it. -/
theorem Sound.retry (h : w.Sound) (ht : t ∈ w.tickets) (hrecovery : t.recovery)
    (hidle : w.frames T = []) (hexited : t.id ∈ w.exited) (hfree : w.cleanupThread t.id = none) :
    ∃ k rest, (Runs.run Owner.step w [.join T, .pick T k, .advance T, .advance T]).frames T =
      [.join (.cleanup t rest)] := by
  obtain ⟨k, hk⟩ := getElem?_of_mem ht
  have hfenced := (h.registry.holds t ht).recovery hrecovery
  have hjoin : w.step (.join T) = w.put T [.join (.each w.tickets)] := by
    have hsome : w.tickets ≠ [] := ne_nil_of_mem ht
    simp [Owner.step, free, Owner.snapshot, hidle, h.selfDrain_idle hidle, hfenced, hsome]
  have hpick (w' : Owner τ) (hstack : w'.frames T = [.join (.each w.tickets)]) :
      w'.step (.pick T k) = w'.put T [.join (.origin t (w.tickets.eraseIdx k))] := by
    simp [Owner.step, Owner.pick, hstack, hk, hrecovery]
  have hwait (w' : Owner τ) (rest : List (Ticket τ)) (hstack : w'.frames T = [.join (.origin t rest)])
      (hexited : t.id ∈ w'.exited) :
      w'.step (.advance T) = w'.put T [.join (.monitor t rest)] := by
    simp [Owner.step, Owner.advance, hstack, hexited]
  have hstart (w' : Owner τ) (rest : List (Ticket τ))
      (hstack : w'.frames T = [.join (.monitor t rest)]) (hfree : w'.cleanupThread t.id = none)
      (hunreleased : t.id ∉ w'.released) :
      (w'.step (.advance T)).frames T = [.join (.cleanup t rest)] := by
    simp [Owner.step, Owner.advance, hstack, hfree, Realized, hrecovery, hunreleased]
  refine ⟨k, w.tickets.eraseIdx k, ?_⟩
  rw [run_cons, run_cons, run_cons, run_cons, run_nil, hjoin,
    hpick _ (put_self ..), hwait ((w.put T _).put T _) _ (put_self ..) hexited]
  exact hstart _ _ (put_self ..) hfree (h.registry.holds t ht).unreleased

end Steps

end Owner

/-! ## Every interleaving -/

variable [DecidableEq τ]

/-- What holds of an owner after a run from its creation. -/
structure Final (events : List (Event τ)) : Prop where
  phase : ∀ first last, events = first ++ last →
    (Owner.after first).phase.rank ≤ (Owner.after events).phase.rank
  issued : ∀ first last, events = first ++ last → (Owner.after first).phase = .stopping →
    (Owner.after events).next = (Owner.after first).next
  entered : ∀ T, (Owner.after events).phase = .stopping →
    (Owner.after (events ++ [.enter T])).frames = (Owner.after events).frames ∨
      ∃ t ∈ (Owner.after events).tickets, t.thread = T ∧
        .body t false ∈ (Owner.after events).frames T ∧
        (Owner.after (events ++ [.enter T])).frames T =
          .body t true :: (Owner.after events).frames T
  joined : ∀ first last, events = first ++ last → (Owner.after first).joined ≠ [] →
    (Owner.after events).tickets = [] ∧
      (∀ T t nested, .body t nested ∉ (Owner.after events).frames T) ∧
      (∀ T t rest, .join (.cleanup t rest) ∉ (Owner.after events).frames T) ∧
      ∀ id ∈ (Owner.after events).retained, (id, true) ∈ (Owner.after events).runs
  outstanding : ∀ id ∈ (Owner.after events).retained, (id, true) ∉ (Owner.after events).runs →
    (Owner.after events).joined = [] ∧ ∃ t ∈ (Owner.after events).tickets, t.id = id ∧
      ∀ T, (Owner.after events).frames T = [] → id ∈ (Owner.after events).exited →
        (Owner.after events).cleanupThread id = none →
        ∃ k rest, (Owner.after (events ++ [.join T, .pick T k, .advance T, .advance T])).frames T =
          [.join (.cleanup t rest)]
  once : ∀ early id late, (Owner.after events).runs = early ++ (id, true) :: late →
    (∀ ok, (id, ok) ∉ late) ∧
      ∀ T t rest, .join (.cleanup t rest) ∈ (Owner.after events).frames T → t.id ≠ id
  bound : (Owner.after events).tickets.length ≤ capacity

/-- A worker that the owner is fenced behind, and its next operation. -/
def nestedBehindFence : List (Event ℕ) := [.open_, .enter 0, .fence 1]

end Simmis.Lifetimes
