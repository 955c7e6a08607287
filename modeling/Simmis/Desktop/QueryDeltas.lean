import Simmis.Library.Deltas
import Simmis.Library.Runs

/-!
# Query deltas

A query's result is kept for each query id with the identity of its database. A call with another
database emits the difference of the two results by key; one with the same database, or with none,
emits the cached result twice and no delta.
-/

namespace Simmis.Desktop.QueryDeltas

open List Option Maps Deltas Runs

/-- A set or a map is enumerated in some order of its keys. -/
structure SetOrder (κ : Type) where
  seq : List κ → List κ
  perm : ∀ keys, (seq keys).Perm keys

structure Diff (κ V : Type) where
  added : List V
  removed : List V
  updated : List (κ × V × V)

structure Interval (V : Type) where
  old : Option (List V)
  new : Option (List V)
  deltas : List (Delta V)
deriving DecidableEq

/-- Query ids are keywords or vectors. -/
inductive QueryId (P : Type)
  | keyword (name : String)
  | vector (parts : List P)
deriving DecidableEq

structure Entry (H V : Type) where
  result : Option (List V)
  dbIdentity : Option H

abbrev Cache (P H V : Type) := List (QueryId P × Entry H V)

variable {κ V P D H : Type} [DecidableEq κ] [DecidableEq V] [DecidableEq P] [DecidableEq H]

/-- `(into {} (map (juxt key-fn identity)) (or coll []))` -/
def byKey (keyFn : V → κ) (coll : Option (List V)) : List (κ × V) :=
  ofPairs ((coll.getD []).map fun item ↦ (keyFn item, item))

def keys (m : List (κ × V)) : List κ := m.map (·.1)

def updatedItem (oldByKey newByKey : List (κ × V)) (k : κ) : Option (κ × V × V) := do
  let oldItem ← get? oldByKey k
  let newItem ← get? newByKey k
  if oldItem ≠ newItem then some (k, oldItem, newItem) else none

variable (order : SetOrder κ)

def diffByKey (keyFn : V → κ) (oldColl newColl : Option (List V)) : Diff κ V :=
  let oldByKey := byKey keyFn oldColl
  let newByKey := byKey keyFn newColl
  let addedKeys := order.seq ((keys newByKey).filter (· ∉ keys oldByKey))
  let removedKeys := order.seq ((keys oldByKey).filter (· ∉ keys newByKey))
  let commonKeys := order.seq ((keys oldByKey).filter (· ∈ keys newByKey))
  { added := addedKeys.filterMap (get? newByKey)
    removed := removedKeys.filterMap (get? oldByKey)
    updated := commonKeys.filterMap (updatedItem oldByKey newByKey) }

def spindelDeltas (diff : Diff κ V) : List (Delta V) :=
  diff.added.map .add ++ (diff.removed.map .remove ++ diff.updated.map fun u ↦ .update u.2.1 u.2.2)

/-- A call: the database of the interval, the query, its key function and its id. -/
structure Call (κ V P D : Type) where
  db : Option D
  queryFn : D → Option (List V)
  keyFn : V → κ
  queryId : QueryId P

def queryWithDeltas (hash : D → H) (cache : Cache P H V) (call : Call κ V P D) :
    Cache P H V × Interval V :=
  let entry := get? cache call.queryId
  let oldResult := entry.bind (·.result)
  let oldDbIdentity := entry.bind (·.dbIdentity)
  match call.db with
  | none => (cache, ⟨oldResult, oldResult, []⟩)
  | some db =>
    if oldDbIdentity.isNone ∨ oldDbIdentity ≠ some (hash db) then
      let newResult := call.queryFn db
      let diff := diffByKey order call.keyFn oldResult newResult
      (assoc cache call.queryId ⟨newResult, some (hash db)⟩,
        ⟨oldResult, newResult, spindelDeltas diff⟩)
    else (cache, ⟨oldResult, oldResult, []⟩)

inductive Event (κ V P D H : Type)
  | query (call : Call κ V P D)
  | setCacheEntry (queryId : QueryId P) (entry : Entry H V)
  | clearCache
  | evictCacheForEntity (entity : P)

def QueryId.mentions (entity : P) : QueryId P → Bool
  | .keyword _ => false
  | .vector parts => parts.any (· = entity)

def step (hash : D → H) (cache : Cache P H V) : Event κ V P D H → Cache P H V
  | .query call => (queryWithDeltas order hash cache call).1
  | .setCacheEntry queryId entry => assoc cache queryId entry
  | .clearCache => []
  | .evictCacheForEntity entity => cache.filter fun p ↦ !p.1.mentions entity

/-- The event may change what is cached for a query id. -/
def Event.touches (queryId : QueryId P) : Event κ V P D H → Bool
  | .query call => call.queryId = queryId
  | .setCacheEntry other _ => other = queryId
  | .clearCache => true
  | .evictCacheForEntity entity => queryId.mentions entity

/-- Nothing but calls with the query of this call is cached under its id. -/
def Event.Reads (call : Call κ V P D) : Event κ V P D H → Prop
  | .query earlier => earlier.queryId = call.queryId → earlier.queryFn = call.queryFn
  | .setCacheEntry other _ => other ≠ call.queryId
  | .clearCache => True
  | .evictCacheForEntity _ => True

/-- The interval of a call after some events. -/
def interval (hash : D → H) (events : List (Event κ V P D H)) (call : Call κ V P D) :
    Interval V :=
  (queryWithDeltas order hash (run (step order hash) [] events) call).2

/-- The deltas replay the old result to the new one, and name each key once at most. -/
structure Exact (keyFn : V → κ) (iv : Interval V) : Prop where
  replays : ∃ m, replay keyFn (byKey keyFn iv.old) iv.deltas = some m ∧
    ∀ k, get? m k = get? (byKey keyFn iv.new) k
  unchanged : iv.deltas = [] → ∀ k, get? (byKey keyFn iv.old) k = get? (byKey keyFn iv.new) k
  once : (iv.deltas.map (key keyFn)).Nodup

section

omit [DecidableEq V]

theorem keyFn_of_byKey {keyFn : V → κ} {coll : Option (List V)} {k : κ} {v : V}
    (h : get? (byKey keyFn coll) k = some v) : keyFn v = k := by
  have hmem := mem_ofPairs (mem_of_get? h)
  obtain ⟨item, -, hitem⟩ := mem_map.mp hmem
  obtain ⟨rfl, rfl⟩ := Prod.mk.inj hitem
  rfl

theorem nodup_keys_byKey (keyFn : V → κ) (coll : Option (List V)) :
    (keys (byKey keyFn coll)).Nodup :=
  nodup_ofPairs _

theorem mem_keys {m : List (κ × V)} {k : κ} : k ∈ keys m ↔ ∃ v, get? m k = some v := by
  unfold keys
  rw [← get?_isSome, isSome_iff_exists]

end

/-- The keys of what is found under some keys are some of them, in their order. -/
theorem map_filterMap_sublist {α β : Type} {f : α → Option β} {g : β → α}
    (hfg : ∀ a b, f a = some b → g b = a) (l : List α) : ((l.filterMap f).map g).Sublist l := by
  induction l with
  | nil => exact List.Sublist.refl _
  | cons a l ih =>
    cases hfa : f a with
    | none =>
      rw [filterMap_cons_none hfa]
      exact ih.cons a
    | some b =>
      rw [filterMap_cons_some hfa, map_cons, hfg a b hfa]
      exact ih.cons_cons a

theorem updatedItem_eq {old new : List (κ × V)} {k : κ} {u : κ × V × V} :
    updatedItem old new k = some u ↔
      u.1 = k ∧ get? old k = some u.2.1 ∧ get? new k = some u.2.2 ∧ u.2.1 ≠ u.2.2 := by
  unfold updatedItem
  cases hold : get? old k with
  | none => simp
  | some oldItem' =>
    cases hnew : get? new k with
    | none => simp
    | some newItem' =>
      by_cases hsame : oldItem' = newItem'
      · grind
      · grind

section Diff

variable (order : SetOrder κ) (keyFn : V → κ) (oldColl newColl : Option (List V))

theorem mem_added {v : V} : v ∈ (diffByKey order keyFn oldColl newColl).added ↔
    get? (byKey keyFn newColl) (keyFn v) = some v ∧ get? (byKey keyFn oldColl) (keyFn v) = none := by
  simp only [diffByKey, mem_filterMap, (order.perm _).mem_iff, mem_filter,
    decide_eq_true_eq, mem_keys]
  constructor
  · rintro ⟨k, ⟨-, hold⟩, hnew⟩
    obtain rfl := keyFn_of_byKey hnew
    exact ⟨hnew, eq_none_iff_forall_ne_some.mpr fun w hw ↦ hold ⟨w, hw⟩⟩
  · rintro ⟨hnew, hold⟩
    exact ⟨keyFn v, ⟨⟨v, hnew⟩, by simp [hold]⟩, hnew⟩

theorem mem_removed {v : V} : v ∈ (diffByKey order keyFn oldColl newColl).removed ↔
    get? (byKey keyFn oldColl) (keyFn v) = some v ∧ get? (byKey keyFn newColl) (keyFn v) = none := by
  simp only [diffByKey, mem_filterMap, (order.perm _).mem_iff, mem_filter,
    decide_eq_true_eq, mem_keys]
  constructor
  · rintro ⟨k, ⟨-, hnew⟩, hold⟩
    obtain rfl := keyFn_of_byKey hold
    exact ⟨hold, eq_none_iff_forall_ne_some.mpr fun w hw ↦ hnew ⟨w, hw⟩⟩
  · rintro ⟨hold, hnew⟩
    exact ⟨keyFn v, ⟨⟨v, hold⟩, by simp [hnew]⟩, hold⟩

theorem mem_updated {u : κ × V × V} : u ∈ (diffByKey order keyFn oldColl newColl).updated ↔
    get? (byKey keyFn oldColl) u.1 = some u.2.1 ∧
      get? (byKey keyFn newColl) u.1 = some u.2.2 ∧ u.2.1 ≠ u.2.2 := by
  simp only [diffByKey, mem_filterMap, (order.perm _).mem_iff, mem_filter,
    decide_eq_true_eq, mem_keys, updatedItem_eq]
  constructor
  · rintro ⟨k, -, rfl, hold, hnew, hne⟩
    exact ⟨hold, hnew, hne⟩
  · rintro ⟨hold, hnew, hne⟩
    exact ⟨u.1, ⟨⟨_, hold⟩, _, hnew⟩, rfl, hold, hnew, hne⟩

/-- A delta says what both results hold at its key. -/
theorem fits_of_mem_deltas {d : Delta V}
    (h : d ∈ spindelDeltas (diffByKey order keyFn oldColl newColl)) :
    get? (byKey keyFn oldColl) (key keyFn d) = d.before ∧
      get? (byKey keyFn newColl) (key keyFn d) = d.after := by
  simp only [spindelDeltas, List.mem_append, List.mem_map] at h
  obtain ⟨v, hv, rfl⟩ | ⟨v, hv, rfl⟩ | ⟨u, hu, rfl⟩ := h
  · exact ((mem_added order keyFn oldColl newColl).mp hv).symm
  · exact (mem_removed order keyFn oldColl newColl).mp hv
  · obtain ⟨hold, hnew, -⟩ := (mem_updated order keyFn oldColl newColl).mp hu
    have hkey : keyFn u.2.2 = u.1 := keyFn_of_byKey hnew
    simp only [key, Delta.item, Delta.before, Delta.after, hkey]
    exact ⟨hold, hnew⟩

/-- The results differ only at the keys of the deltas. -/
theorem mem_deltas_of_ne {k : κ} (h : get? (byKey keyFn oldColl) k ≠ get? (byKey keyFn newColl) k) :
    k ∈ (spindelDeltas (diffByKey order keyFn oldColl newColl)).map (key keyFn) := by
  simp only [spindelDeltas, List.mem_map, List.mem_append]
  cases hold : get? (byKey keyFn oldColl) k with
  | none =>
    cases hnew : get? (byKey keyFn newColl) k with
    | none => exact absurd (hold.trans hnew.symm) h
    | some v =>
      obtain rfl := keyFn_of_byKey hnew
      have hadded := (mem_added order keyFn oldColl newColl).mpr ⟨hnew, hold⟩
      exact ⟨.add v, .inl ⟨v, hadded, rfl⟩, rfl⟩
  | some v =>
    obtain rfl := keyFn_of_byKey hold
    cases hnew : get? (byKey keyFn newColl) (keyFn v) with
    | none =>
      have hremoved := (mem_removed order keyFn oldColl newColl).mpr ⟨hold, hnew⟩
      exact ⟨.remove v, .inr (.inl ⟨v, hremoved, rfl⟩), rfl⟩
    | some w =>
      have hne : v ≠ w := fun hvw ↦ h (by rw [hold, hnew, hvw])
      have hupdated := (mem_updated order keyFn oldColl newColl (u := (keyFn v, v, w))).mpr
        ⟨hold, hnew, hne⟩
      have hkey : keyFn w = keyFn v := keyFn_of_byKey hnew
      exact ⟨.update v w, .inr (.inr ⟨_, hupdated, rfl⟩), hkey⟩

theorem nodup_keys_deltas :
    ((spindelDeltas (diffByKey order keyFn oldColl newColl)).map (key keyFn)).Nodup := by
  have hnodup (coll : Option (List V)) (p : κ → Bool) :
      (order.seq ((keys (byKey keyFn coll)).filter p)).Nodup :=
    (order.perm _).nodup_iff.mpr ((nodup_keys_byKey keyFn coll).filter p)
  have hadded : ((diffByKey order keyFn oldColl newColl).added.map keyFn).Nodup :=
    (map_filterMap_sublist (fun _ _ h ↦ keyFn_of_byKey h) _).nodup (hnodup newColl _)
  have hremoved : ((diffByKey order keyFn oldColl newColl).removed.map keyFn).Nodup :=
    (map_filterMap_sublist (fun _ _ h ↦ keyFn_of_byKey h) _).nodup (hnodup oldColl _)
  have hupdated : ((diffByKey order keyFn oldColl newColl).updated.map (·.1)).Nodup :=
    (map_filterMap_sublist (fun _ _ h ↦ (updatedItem_eq.mp h).1) _).nodup (hnodup oldColl _)
  have hkey : (diffByKey order keyFn oldColl newColl).updated.map (fun u ↦ keyFn u.2.2) =
      (diffByKey order keyFn oldColl newColl).updated.map (·.1) := by
    apply map_congr_left
    intro u hu
    exact keyFn_of_byKey ((mem_updated order keyFn oldColl newColl).mp hu).2.1
  simp only [spindelDeltas, List.map_append, List.map_map, Function.comp_def, key, Delta.item, hkey]
  refine List.nodup_append.mpr ⟨hadded, List.nodup_append.mpr ⟨hremoved, hupdated, ?_⟩, ?_⟩
  · intro k hk l hl hkl
    obtain ⟨v, hv, rfl⟩ := mem_map.mp hk
    obtain ⟨u, hu, rfl⟩ := mem_map.mp hl
    have hnew := ((mem_updated order keyFn oldColl newColl).mp hu).2.1
    rw [← hkl, ((mem_removed order keyFn oldColl newColl).mp hv).2] at hnew
    cases hnew
  · intro k hk l hl hkl
    obtain ⟨v, hv, rfl⟩ := mem_map.mp hk
    have hnone := ((mem_added order keyFn oldColl newColl).mp hv).2
    obtain hl | hl := mem_append.mp hl
    · obtain ⟨w, hw, rfl⟩ := mem_map.mp hl
      have hold := ((mem_removed order keyFn oldColl newColl).mp hw).1
      rw [← hkl, hnone] at hold
      cases hold
    · obtain ⟨u, hu, rfl⟩ := mem_map.mp hl
      have hold := ((mem_updated order keyFn oldColl newColl).mp hu).1
      rw [← hkl, hnone] at hold
      cases hold

theorem exact_of_diff :
    Exact keyFn ⟨oldColl, newColl, spindelDeltas (diffByKey order keyFn oldColl newColl)⟩ := by
  have hsame (k : κ)
      (hk : k ∉ (spindelDeltas (diffByKey order keyFn oldColl newColl)).map (key keyFn)) :
      get? (byKey keyFn oldColl) k = get? (byKey keyFn newColl) k :=
    not_not.mp fun hne ↦ hk (mem_deltas_of_ne order keyFn oldColl newColl hne)
  have hnodup := nodup_keys_deltas order keyFn oldColl newColl
  constructor
  · exact replay_to hnodup (fun d hd ↦ (fits_of_mem_deltas order keyFn oldColl newColl hd).1)
      (fun d hd ↦ (fits_of_mem_deltas order keyFn oldColl newColl hd).2) hsame
  · intro hempty k
    apply hsame
    rw [show spindelDeltas (diffByKey order keyFn oldColl newColl) = [] from hempty]
    exact not_mem_nil
  · exact hnodup

end Diff

/-- An interval of one result, without deltas. -/
theorem exact_unchanged (keyFn : V → κ) (result : Option (List V)) :
    Exact keyFn ⟨result, result, []⟩ :=
  ⟨⟨_, rfl, fun _ ↦ rfl⟩, fun _ _ ↦ rfl, nodup_nil⟩

section Calls

variable (order : SetOrder κ) (hash : D → H) (cache : Cache P H V) (call : Call κ V P D)

/-- The cached result of a query. -/
def cached (cache : Cache P H V) (queryId : QueryId P) : Option (List V) :=
  (get? cache queryId).bind (·.result)

/-- A call either answers from the cache, or it runs the query and caches its result. -/
theorem queryWithDeltas_cases : queryWithDeltas order hash cache call =
        (cache, ⟨cached cache call.queryId, cached cache call.queryId, []⟩) ∧
      (∀ db ∈ call.db, (get? cache call.queryId).bind (·.dbIdentity) = some (hash db)) ∨
    ∃ db, call.db = some db ∧ queryWithDeltas order hash cache call =
      (assoc cache call.queryId ⟨call.queryFn db, some (hash db)⟩,
        ⟨cached cache call.queryId, call.queryFn db, spindelDeltas
          (diffByKey order call.keyFn (cached cache call.queryId) (call.queryFn db))⟩) := by
  unfold queryWithDeltas
  cases hdb : call.db with
  | none => exact .inl ⟨rfl, by simp⟩
  | some db =>
    dsimp only
    split
    · exact .inr ⟨db, rfl, rfl⟩
    · next hsame =>
      rw [not_or, not_ne_iff] at hsame
      exact .inl ⟨rfl, by simpa using hsame.2⟩

theorem queryWithDeltas_exact : Exact call.keyFn (queryWithDeltas order hash cache call).2 := by
  obtain ⟨heq, -⟩ | ⟨db, -, heq⟩ := queryWithDeltas_cases order hash cache call
  · rw [heq]
    exact exact_unchanged call.keyFn _
  · rw [heq]
    exact exact_of_diff order call.keyFn _ _

theorem queryWithDeltas_old :
    (queryWithDeltas order hash cache call).2.old = cached cache call.queryId := by
  obtain ⟨heq, -⟩ | ⟨db, -, heq⟩ := queryWithDeltas_cases order hash cache call <;> rw [heq]

/-- What a call emits as the new result is cached. -/
theorem queryWithDeltas_new : cached (queryWithDeltas order hash cache call).1 call.queryId =
      (queryWithDeltas order hash cache call).2.new := by
  obtain ⟨heq, -⟩ | ⟨db, -, heq⟩ := queryWithDeltas_cases order hash cache call
  · rw [heq]
  · rw [heq]
    simp [cached, get?_assoc]

end Calls

section Runs

variable (order : SetOrder κ) (hash : D → H)

omit [DecidableEq V] [DecidableEq H] in
theorem get?_filter_of_pos {m : Cache P H V} {q : QueryId P} {p : QueryId P × Entry H V → Bool}
    (hp : ∀ e, e.1 = q → p e) : get? (m.filter p) q = get? m q := by
  unfold get?
  rw [find?_filter]
  congr 2
  funext e
  by_cases he : e.1 = q <;> simp [he, hp]

/-- Only an event that touches a query id changes what is cached for it. -/
theorem step_get? {cache : Cache P H V} {e : Event κ V P D H} {q : QueryId P}
    (htouches : e.touches q = false) : get? (step order hash cache e) q = get? cache q := by
  cases e with
  | query call =>
    have hother : call.queryId ≠ q := by simpa [Event.touches] using htouches
    change get? (queryWithDeltas order hash cache call).1 q = _
    obtain ⟨heq, -⟩ | ⟨db, -, heq⟩ := queryWithDeltas_cases order hash cache call
    · rw [heq]
    · rw [heq]
      exact (get?_assoc ..).trans (if_neg hother)
  | setCacheEntry other entry =>
    have hother : other ≠ q := by simpa [Event.touches] using htouches
    exact (get?_assoc ..).trans (if_neg hother)
  | clearCache => cases htouches
  | evictCacheForEntity entity =>
    have hkept : q.mentions entity = false := htouches
    apply get?_filter_of_pos
    simp [hkept]

theorem run_get? {cache : Cache P H V} {events : List (Event κ V P D H)} {q : QueryId P}
    (htouches : ∀ e ∈ events, e.touches q = false) :
    get? (run (step order hash) cache events) q = get? cache q := by
  induction events generalizing cache with
  | nil => rfl
  | cons e events ih =>
    rw [run_cons, ih fun e he ↦ htouches e (mem_cons_of_mem _ he)]
    exact step_get? order hash (htouches e (mem_cons_self ..))

/-- A cached result answers the query on the database of its identity. -/
def Answers (call : Call κ V P D) (cache : Cache P H V) : Prop :=
  ∀ entry, get? cache call.queryId = some entry → ∃ db, entry = ⟨call.queryFn db, some (hash db)⟩

theorem step_answers {call : Call κ V P D} {cache : Cache P H V} {e : Event κ V P D H}
    (hanswers : Answers hash call cache) (hreads : e.Reads call) :
    Answers hash call (step order hash cache e) := by
  cases htouches : e.touches call.queryId with
  | false =>
    unfold Answers
    rw [step_get? order hash htouches]
    exact hanswers
  | true =>
    cases e with
    | query earlier =>
      have hid : earlier.queryId = call.queryId := by simpa [Event.touches] using htouches
      change Answers hash call (queryWithDeltas order hash cache earlier).1
      obtain ⟨heq, -⟩ | ⟨db, -, heq⟩ := queryWithDeltas_cases order hash cache earlier
      · rw [heq]
        exact hanswers
      · rw [heq]
        intro entry hentry
        rw [get?_assoc, if_pos hid] at hentry
        cases hentry
        exact ⟨db, by rw [hreads hid]⟩
    | setCacheEntry other entry =>
      have hid : other = call.queryId := by simpa [Event.touches] using htouches
      exact absurd hid hreads
    | clearCache => exact fun entry hentry ↦ nomatch hentry
    | evictCacheForEntity entity =>
      intro entry hentry
      have hmem := mem_of_get? hentry
      have hmentions : call.queryId.mentions entity := htouches
      have hkept := (mem_filter.mp hmem).2
      simp [hmentions] at hkept

theorem run_answers {call : Call κ V P D} {events : List (Event κ V P D H)}
    (hreads : ∀ e ∈ events, e.Reads call) :
    Answers hash call (run (step order hash) [] events) := by
  apply run_preserves_along (fun _ e ↦ e.Reads call) (Answers hash call)
  · exact fun cache e hanswers hread ↦ step_answers order hash hanswers hread
  · exact fun entry hentry ↦ nomatch hentry
  · rw [along_iff]
    rintro early e late rfl
    exact hreads e (by simp)

/-- The intervals of a query are exact, go on from one another, and end in its answer. -/
theorem deltas_replay (events : List (Event κ V P D H)) (call : Call κ V P D) :
    Exact call.keyFn (interval order hash events call) ∧
    (∀ early earlier between, events = early ++ .query earlier :: between →
      earlier.queryId = call.queryId → (∀ e ∈ between, e.touches call.queryId = false) →
      (interval order hash events call).old = (interval order hash early earlier).new) ∧
    (hash.Injective → (∀ e ∈ events, e.Reads call) →
      ∀ db, call.db = some db → (interval order hash events call).new = call.queryFn db) := by
  refine ⟨queryWithDeltas_exact order hash _ call, ?_, ?_⟩
  · rintro early earlier between rfl hid hbetween
    unfold interval
    rw [queryWithDeltas_old, ← queryWithDeltas_new, run_append, run_cons, hid]
    unfold cached
    rw [run_get? order hash hbetween]
    rfl
  · intro hinjective hreads db hdb
    have hanswers := run_answers order hash hreads
    unfold interval
    obtain ⟨heq, hidentity⟩ | ⟨db', hdb', heq⟩ :=
      queryWithDeltas_cases order hash (run (step order hash) [] events) call
    · rw [heq]
      obtain ⟨entry, hentry, hsame⟩ := bind_eq_some_iff.mp (hidentity db hdb)
      obtain ⟨db', rfl⟩ := hanswers entry hentry
      obtain rfl := hinjective (some.inj hsame)
      simp [cached, hentry]
    · rw [heq]
      obtain rfl := some.inj (hdb.symm.trans hdb')
      rfl

end Runs

end Simmis.Desktop.QueryDeltas
