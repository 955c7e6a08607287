import Simmis.Workers.Frames
import Simmis.Workers.Inference

/-!
# Messages on the worker pipes

Internal messages have keywords as fields, frames have strings. Encoding turns all keywords into
strings; decoding turns the fields that it knows back into keywords and leaves schemas and the
values of arguments as they are.
-/

namespace Simmis.Workers.Wire

open List Option Key
open Inference (kw)
open Value (Sorted Canonical)

/-! ## Encoding -/

mutual

/-- `visit` of `encode`, with the nodes that are left. -/
def visit (v : Value) (depth nodes : ℕ) : Option (Value × ℕ) := do
  let nodes ← Frames.node depth nodes
  match v with
  | .nil | .bool _ | .str _ | .int _ | .double _ => some (v, nodes)
  | .keyword namespace_ name => some (.str (Key.keyword namespace_ name).wire, nodes)
  | .vector items => do
    let (items, nodes) ← visitItems items (depth + 1) nodes
    some (.vector items, nodes)
  | .map entries => do
    let (out, nodes) ← visitEntries entries (depth + 1) [] nodes
    some (.map out, nodes)
  | .other _ => none

def visitItems (items : List Value) (depth nodes : ℕ) : Option (List Value × ℕ) :=
  match items with
  | [] => some ([], nodes)
  | item :: items => do
    let (item, nodes) ← visit item depth nodes
    let (items, nodes) ← visitItems items depth nodes
    some (item :: items, nodes)

/-- Two keys with one wire name are refused. -/
def visitEntries (entries : List (Key × Value)) (depth : ℕ) (out : List (Key × Value))
    (nodes : ℕ) : Option (List (Key × Value) × ℕ) :=
  match entries with
  | [] => some (out, nodes)
  | (k, item) :: entries => do
    let nodes ← Frames.node depth nodes
    if ((Value.map out).get? (.string k.wire)).isSome then none
    else do
      let (item, nodes) ← visit item depth nodes
      visitEntries entries depth (Value.insert (.string k.wire) item out) nodes

end

/-- `encode`, of values that `data!` lets through. -/
def encode (v : Value) : Option Value := (visit v 0 Frames.maxNodes).map Prod.fst

/-- `object!` -/
def object (value : Value) (allowed required : List String) : Option Value :=
  if value.allKeys (fun k ↦ allowed.any fun name : String ↦ k = .string name) ∧
      required.all (fun name : String ↦ (value.get? (.string name)).isSome) then
    some (.ofFields (allowed.filterMap fun name : String ↦
      (value.get? (.string name)).map fun item ↦ (kw name, item)))
  else none

/-- `(update value k f)`, where `f` may refuse. -/
def update (value : Value) (k : String) (f : Value → Option Value) : Option Value := do
  let item ← f ((value.get? (kw k)).getD .nil)
  some (value.assoc (kw k) item)

/-- `(mapv f value)` of a vector. -/
def mapv (f : Value → Option Value) : Value → Option Value
  | .vector items => (items.mapM f).map .vector
  | _ => none

def message (v : Value) : Option Value := do
  let m ← object v ["type", "role", "content", "call_id", "name", "arguments", "output"] []
  match m.get? (kw "content") with
  | some (.vector _) => update m "content" (mapv fun part ↦
    object part ["type", "text"] ["type", "text"])
  | _ => some m

def tool (v : Value) : Option Value :=
  object v ["name", "description", "parameters", "input_schema"] ["name"]

def options (v : Value) : Option Value := do
  let opts ← object v ["system", "tools"] []
  if (opts.get? (kw "tools")).isSome then update opts "tools" (mapv tool) else some opts

/-- `request!` -/
def request (v : Value) : Option Value := do
  let fields := ["version", "sequence", "messages", "options"]
  let r ← object v fields fields
  let r ← update r "messages" (mapv message)
  update r "options" options

def usage (v : Value) : Option Value :=
  object v ["input-tokens", "output-tokens", "cache-read-tokens", "cache-write-tokens",
    "reasoning-output-tokens"] []

/-- The arguments of the two known tools. -/
def arguments (name : Option Value) : Option (List String) :=
  if name = some (.str "clojure_eval") then some ["code"]
  else if name = some (.str "write_file") then some ["path", "content"]
  else none

def toolCall (v : Value) : Option Value := do
  let call ← object v ["id", "name", "input"] ["id", "name", "input"]
  let fields ← arguments (call.get? (kw "name"))
  update call "input" fun input ↦ object input fields fields

/-- `(cond-> value (k value) (update k f))` -/
def updateIf (value : Value) (k : String) (f : Value → Option Value) : Option Value :=
  if Value.truthy (value.get? (kw k)) then update value k f else some value

def response (v : Value) : Option Value := do
  let response ← object v ["content", "reasoning", "tool-calls", "usage", "stop-reason", "model",
    "id"] ["content"]
  let response ← updateIf response "usage" usage
  updateIf response "tool-calls" (mapv toolCall)

/-- `reply!` -/
def reply (v : Value) : Option Value := do
  let fields := ["version", "sequence", "response"]
  let r ← object v fields fields
  update r "response" response

/-! ## What is on the wire -/

/-! ### Encoded values -/

variable {k : Key}

theorem string_wire_le {l : Key} (h : k < l) : string k.wire ≤ .string l.wire := by
  obtain hlt | ⟨heq, -⟩ := Prod.Lex.toLex_lt_toLex.mp (show k.code < l.code from h)
  · exact le_of_lt (Prod.Lex.toLex_lt_toLex.mpr (.inl hlt))
  · exact Prod.Lex.toLex_le_toLex.mpr (.inr ⟨heq, le_rfl⟩)

mutual

theorem visit_strings : ∀ (v : Value) {depth nodes left : ℕ} {w : Value}, v.Canonical →
    visit v depth nodes = some (w, left) → w = v.strings
  | v, depth, nodes, left, w, hv, h => by
    unfold visit at h
    obtain ⟨rest, -, h⟩ := bind_eq_some_iff.mp h
    match v with
    | .nil | .bool _ | .str _ | .int _ | .double _ | .keyword _ _ =>
      cases h
      rfl
    | .vector items =>
      obtain ⟨out, hout, h⟩ := bind_eq_some_iff.mp h
      cases h
      rw [visitItems_strings items hv hout]
      rfl
    | .map entries =>
      obtain ⟨out, hout, h⟩ := bind_eq_some_iff.mp h
      cases h
      have hentries := visitEntries_strings entries hv.1 hv.2 (by simp) hout
      rw [hentries]
      rfl

theorem visitItems_strings : ∀ (items : List Value) {depth nodes : ℕ} {out : List Value × ℕ},
    Value.CanonicalItems items → visitItems items depth nodes = some out →
      out.1 = Value.stringsItems items
  | [], _, _, _, _, h => by
    cases h
    rfl
  | item :: items, _, _, _, hitems, h => by
    unfold visitItems at h
    obtain ⟨x, hx, h⟩ := bind_eq_some_iff.mp h
    obtain ⟨rest, hrest, h⟩ := bind_eq_some_iff.mp h
    cases h
    rw [Value.stringsItems, ← visit_strings item hitems.1 hx,
      ← visitItems_strings items hitems.2 hrest]

theorem visitEntries_strings : ∀ (entries : List (Key × Value)) {depth nodes : ℕ}
    {out : List (Key × Value)} {result : List (Key × Value) × ℕ},
    Sorted entries → Value.CanonicalEntries entries →
      (∀ o ∈ out, ∀ e ∈ entries, o.1 ≤ .string e.1.wire) →
      visitEntries entries depth out nodes = some result →
        result.1 = out ++ Value.stringsEntries entries
  | [], _, _, _, _, _, _, _, h => by
    cases h
    exact (List.append_nil _).symm
  | (k, item) :: entries, _, _, out, _, hsorted, hcanonical, hbelow, h => by
    unfold visitEntries at h
    obtain ⟨rest, -, h⟩ := Option.bind_eq_some_iff.mp h
    split at h
    · cases h
    · next hnew =>
      obtain ⟨⟨x, left⟩, hx, h⟩ := Option.bind_eq_some_iff.mp h
      obtain ⟨hhead, htail⟩ := List.pairwise_cons.mp hsorted
      have hlast : ∀ o ∈ out, o.1 < .string k.wire := by
        intro o ho
        apply lt_of_le_of_ne (hbelow o ho _ (mem_cons_self ..))
        intro heq
        rw [Value.get?, isSome_map, find?_isSome] at hnew
        exact hnew ⟨o, ho, by simpa using heq⟩
      have hbelow' : ∀ o ∈ out ++ [(.string k.wire, x)], ∀ e ∈ entries, o.1 ≤ .string e.1.wire := by
        intro o ho e he
        obtain hold | hnew := mem_append.mp ho
        · exact hbelow o hold e (mem_cons_of_mem _ he)
        · rw [mem_singleton.mp hnew]
          exact string_wire_le (hhead e he)
      dsimp only at h
      rw [Value.insert_last hlast] at h
      calc
        _ = out ++ [(.string k.wire, x)] ++ Value.stringsEntries entries :=
          visitEntries_strings entries htail hcanonical.2 hbelow' h
        _ = out ++ Value.stringsEntries ((k, item) :: entries) := by
          rw [visit_strings item hcanonical.1 hx, Value.stringsEntries]
          simp

end

variable {v : Value}

theorem canonicalEntries_insert (hv : v.Canonical) {entries : List (Key × Value)}
    (h : Value.CanonicalEntries entries) : Value.CanonicalEntries (Value.insert k v entries) := by
  induction entries with
  | nil => exact ⟨hv, trivial⟩
  | cons e entries ih =>
    unfold Value.insert
    split
    · exact ⟨hv, h⟩
    split
    · exact ⟨hv, h.2⟩
    · exact ⟨h.1, ih h.2⟩

mutual

theorem visit_canonical : ∀ (v : Value) {depth nodes left : ℕ} {w : Value},
    visit v depth nodes = some (w, left) → w.Canonical
  | v, depth, nodes, left, w, h => by
    unfold visit at h
    obtain ⟨rest, -, h⟩ := bind_eq_some_iff.mp h
    match v with
    | .nil | .bool _ | .str _ | .int _ | .double _ | .keyword _ _ =>
      cases h
      trivial
    | .vector items =>
      obtain ⟨out, hout, h⟩ := bind_eq_some_iff.mp h
      cases h
      exact visitItems_canonical items hout
    | .map entries =>
      obtain ⟨out, hout, h⟩ := bind_eq_some_iff.mp h
      cases h
      exact visitEntries_canonical entries List.Pairwise.nil trivial hout

theorem visitItems_canonical : ∀ (items : List Value) {depth nodes : ℕ} {out : List Value × ℕ},
    visitItems items depth nodes = some out → Value.CanonicalItems out.1
  | [], _, _, _, h => by
    cases h
    trivial
  | item :: items, _, _, _, h => by
    unfold visitItems at h
    obtain ⟨x, hx, h⟩ := bind_eq_some_iff.mp h
    obtain ⟨rest, hrest, h⟩ := bind_eq_some_iff.mp h
    cases h
    exact ⟨visit_canonical item hx, visitItems_canonical items hrest⟩

theorem visitEntries_canonical : ∀ (entries : List (Key × Value)) {depth nodes : ℕ}
    {out : List (Key × Value)} {result : List (Key × Value) × ℕ},
    Sorted out → Value.CanonicalEntries out → visitEntries entries depth out nodes = some result →
      Sorted result.1 ∧ Value.CanonicalEntries result.1
  | [], _, _, _, _, hsorted, hout, h => by
    cases h
    exact ⟨hsorted, hout⟩
  | (k, item) :: entries, _, _, out, _, hsorted, hout, h => by
    unfold visitEntries at h
    obtain ⟨rest, -, h⟩ := bind_eq_some_iff.mp h
    split at h
    · cases h
    · obtain ⟨⟨x, left⟩, hx, h⟩ := bind_eq_some_iff.mp h
      exact visitEntries_canonical entries (Value.Sorted.insert hsorted _ _)
        (canonicalEntries_insert (visit_canonical item hx) hout) h

end

/-- An encoded value has strings for its keywords, and none of them twice. -/
theorem encode_eq_some {w : Value} (hv : v.Canonical) (h : encode v = some w) :
    w = v.strings ∧ w.Canonical := by
  obtain ⟨out, hout, rfl⟩ := map_eq_some_iff.mp h
  exact ⟨visit_strings v hv hout, visit_canonical v hout⟩

/-! ### Decoded objects -/

theorem keyword_lt {s t : JavaString} (h : string s < .string t) :
    keyword none s < .keyword none t := by
  obtain hlt | ⟨-, hlt⟩ := Prod.Lex.toLex_lt_toLex.mp
    (show (string s).code < (string t).code from h)
  · exact Prod.Lex.toLex_lt_toLex.mpr (.inl hlt)
  · exact absurd hlt (lt_irrefl _)

/-- What an object has under a keyword. -/
def underString (w : Value) : Key → Option Value
  | .keyword none s => w.get? (.string s)
  | _ => none

theorem get?_keyed {es : List (Key × Value)} (hkeys : ∀ e ∈ es, ∃ s, e.1 = .string s) (k : Key) :
    (Value.map es).keyed.get? k = underString (.map es) k := by
  induction es with
  | nil =>
    unfold underString
    split <;> rfl
  | cons e es ih =>
    obtain ⟨⟨s, hs⟩, hes⟩ := forall_mem_cons.mp hkeys
    have hrest := ih hes
    unfold underString at hrest ⊢
    simp only [Value.keyed, Value.get?, map_cons] at hrest ⊢
    split at hrest
    · next t =>
      by_cases hst : s = t
      · simp [hs, wire, hst]
      · simpa [hs, wire, hst] using hrest
    · next hother =>
      have hne : ¬ keyword none s = k := fun h ↦ hother s h.symm
      simpa [hs, wire, hne] using hrest

variable {required allowed : List String} {r : Value}

/-- An object that is let through has its keys as keywords, and nothing else changed. -/
theorem object_keyed {w : Value} (hw : w.Canonical) (h : object w allowed required = some r) :
    r = w.keyed := by
  unfold object at h
  rw [ite_none_right_eq_some] at h
  obtain ⟨⟨hkeys, -⟩, h⟩ := h
  cases h
  cases w with
  | map es =>
    have hkey : ∀ e ∈ es, ∃ name ∈ allowed, e.1 = .string (name : String) := by
      simpa [Value.allKeys] using hkeys
    apply congrArg Value.map
    apply Value.sorted_ext (Value.ofFields_sorted _)
    · apply pairwise_map.mpr
      apply hw.1.imp_of_mem
      intro a b ha hb hlt
      obtain ⟨s, -, hs⟩ := hkey a ha
      obtain ⟨t, -, ht⟩ := hkey b hb
      rw [hs, ht] at hlt ⊢
      exact keyword_lt hlt
    · intro k
      calc
        (Value.ofFields (allowed.filterMap fun name : String ↦
              ((Value.map es).get? (.string name)).map fun item ↦ (kw name, item))).get? k =
            if k ∈ (allowed.filterMap fun name : String ↦
                ((Value.map es).get? (.string name)).map fun item ↦ (kw name, item)).map Prod.fst
              then underString (.map es) k else none := by
          apply Value.get?_ofFields
          intro f hf
          obtain ⟨name, -, hname⟩ := mem_filterMap.mp hf
          obtain ⟨item, hitem, rfl⟩ := map_eq_some_iff.mp hname
          exact hitem
        _ = underString (.map es) k := by
          apply ite_eq_left_iff.mpr
          intro hnew
          unfold underString
          split
          · next s =>
            cases hitem : (Value.map es).get? (.string s) with
            | none => rfl
            | some item =>
              obtain ⟨name, hname, hs⟩ := hkey _ (Value.mem_of_get? hitem)
              cases hs
              refine absurd (List.mem_map.mpr ⟨(kw name, item), ?_, rfl⟩) hnew
              exact List.mem_filterMap.mpr ⟨name, hname, by rw [hitem]; rfl⟩
          · rfl
        _ = (Value.map es).keyed.get? k := by
          apply (get?_keyed _ k).symm
          intro e he
          obtain ⟨name, -, hname⟩ := hkey e he
          exact ⟨name, hname⟩
  | _ => cases hkeys

/-! ### Messages -/

/-- The fields of a map are keywords without a namespace. -/
def HasFields (v : Value) : Prop := ∃ entries, v = .map entries ∧
  ∀ e ∈ entries, ∃ name, e.1 = Key.keyword none name

theorem hasFields_of_allKeys {p : Key → Bool} (h : v.allKeys p)
    (hp : ∀ k, p k → ∃ name, k = keyword none name) : HasFields v := by
  cases v with
  | map entries =>
    simp only [Value.allKeys, List.all_eq_true] at h
    exact ⟨entries, rfl, fun e he ↦ hp e.1 (h e he)⟩
  | _ => cases h

/-- Keywords that are written as strings come back as they were. -/
theorem HasFields.keyed_strings (h : HasFields v) :
    v.strings.keyed = v.mapValues Value.strings := by
  obtain ⟨entries, rfl, hkeys⟩ := h
  simp only [Value.strings, Value.stringsEntries_eq, Value.keyed, Value.mapValues, List.map_map]
  congr 1
  apply List.map_congr_left
  intro e he
  obtain ⟨name, hname⟩ := hkeys e he
  simp [hname, wire]

theorem HasFields.isSorted (h : HasFields v) (hv : v.Canonical) : v.IsSorted := by
  obtain ⟨entries, rfl, -⟩ := h
  exact hv.isSorted rfl

/-- A map whose values are texts is on the wire as it is. -/
theorem mapValues_strings (hv : v.IsSorted)
    (h : ∀ k item, v.get? k = some item → item.strings = item) : v.mapValues Value.strings = v := by
  apply Value.eq_of_get? (hv.mapValues _) hv
  intro k
  rw [Value.get?_mapValues]
  cases hitem : v.get? k with
  | none => rfl
  | some item => rw [map_some, h k item hitem]

theorem mapM_eq {f h : Value → Value} {d : Value → Option Value} {l out : List Value}
    (hl : ∀ x ∈ l, ∀ y, d (f x) = some y → y = h x) (hout : (l.map f).mapM d = some out) :
    out = l.map h := by
  induction l generalizing out with
  | nil =>
    cases hout
    rfl
  | cons x l ih =>
    rw [map_cons, mapM_cons] at hout
    obtain ⟨y, hy, hout⟩ := bind_eq_some_iff.mp hout
    obtain ⟨rest, hrest, hout⟩ := bind_eq_some_iff.mp hout
    cases hout
    obtain ⟨hx, hl⟩ := forall_mem_cons.mp hl
    rw [hx y hy, ih hl hrest, map_cons]

theorem text_strings {item : Option Value} (h : Inference.isText item) (hv : item = some v) :
    v.strings = v := by
  subst hv
  cases v with
  | str s => rfl
  | _ => cases h

theorem oneOf_strings {names : List String} {item : Option Value}
    (h : Inference.oneOf names item) (hv : item = some v) : v.strings = v := by
  subst hv
  obtain ⟨name, -, hname⟩ := any_eq_true.mp h
  cases of_decide_eq_true hname
  rfl

variable {fields : List String}

theorem fields_of_allKeys (h : v.allKeys (fun k ↦ k ∈ fields.map kw)) :
    HasFields v ∧ ∀ k item, v.get? k = some item → ∃ name ∈ fields, k = kw name := by
  have hfield (k : Key) (hk : decide (k ∈ fields.map kw)) : ∃ name ∈ fields, k = kw name := by
    obtain ⟨name, hname, hk⟩ := mem_map.mp (of_decide_eq_true hk)
    exact ⟨name, hname, hk.symm⟩
  constructor
  · apply hasFields_of_allKeys h
    intro k hk
    obtain ⟨name, -, hk⟩ := hfield k hk
    exact ⟨_, hk⟩
  · intro k item hitem
    cases v with
    | map entries =>
      simp only [Value.allKeys, List.all_eq_true] at h
      exact hfield k (h _ (Value.mem_of_get? hitem))
    | _ => cases hitem

/-- A map that is closed under keywords has these fields. -/
theorem closed_fields (h : v.closed (fields.map kw)) :
    HasFields v ∧ ∀ k item, v.get? k = some item → ∃ name ∈ fields, k = kw name := by
  simp only [Value.closed, Bool.and_eq_true] at h
  exact fields_of_allKeys h.1

/-- An object of texts comes back. -/
theorem object_texts (hv : v.Canonical) (hw : v.strings.Canonical)
    (hclosed : v.closed (fields.map kw))
    (htexts : ∀ name ∈ fields, ∀ item, v.get? (kw name) = some item → item.strings = item)
    (h : object v.strings allowed required = some r) : r = v := by
  obtain ⟨hfields, hkeys⟩ := closed_fields hclosed
  rw [object_keyed hw h, hfields.keyed_strings]
  apply mapValues_strings (hfields.isSorted hv)
  intro k item hitem
  obtain ⟨name, hname, rfl⟩ := hkeys k item hitem
  exact htexts name hname item hitem

variable {item : Value}

theorem strings_of_get? (hw : v.strings.Canonical) (hitem : v.get? k = some item) : item.strings.Canonical := by
  cases v with
  | map entries =>
    rw [Value.strings, Value.stringsEntries_eq] at hw
    exact Value.canonical_of_entry hw.2 (mem_map_of_mem (Value.mem_of_get? hitem))
  | _ => cases hitem

theorem strings_of_mem {items : List Value} (hw : (Value.vector items).strings.Canonical)
    (hitem : item ∈ items) : item.strings.Canonical := by
  rw [Value.strings, Value.stringsItems_eq] at hw
  exact Value.canonical_of_mem hw (mem_map_of_mem hitem)

theorem part_decoded {p : Value} (hpart : Inference.part p) (hp : p.Canonical)
    (hw : p.strings.Canonical) (h : object p.strings allowed required = some r) : r = p := by
  simp only [Inference.part, Bool.and_eq_true] at hpart
  obtain ⟨⟨hclosed, htype⟩, htext⟩ := hpart
  have hclosed : p.closed (["type", "text"].map kw) := hclosed
  apply object_texts hp hw hclosed _ h
  intro name hname item hitem
  simp only [mem_cons, not_mem_nil, or_false] at hname
  obtain rfl | rfl := hname
  · exact oneOf_strings htype hitem
  · exact text_strings htext hitem

variable {m : Value}

/-- A message of texts. -/
theorem message_texts (hm : m.Canonical)
    (hw : m.strings.Canonical) (hclosed : m.closed (fields.map kw))
    (htexts : ∀ name ∈ fields, ∀ item, m.get? (kw name) = some item → item.strings = item)
    (hcontent : ∀ items, m.get? (kw "content") ≠ some (.vector items))
    (h : message m.strings = some r) : r = m := by
  obtain ⟨m', hm', h⟩ := bind_eq_some_iff.mp h
  rw [object_texts hm hw hclosed htexts hm'] at h
  split at h
  · next items hitems => exact absurd hitems (hcontent items)
  · exact (some.inj h).symm

theorem text_not_vector {item : Option Value} (h : Inference.isText item)
    (items : List Value) : item ≠ some (.vector items) := by
  rintro rfl
  cases h

theorem not_field (h : v.closed (fields.map kw)) (hk : k ∉ fields.map kw) : v.get? k = none := by
  rw [eq_none_iff_forall_ne_some]
  intro item hitem
  obtain ⟨name, hname, rfl⟩ := (closed_fields h).2 k item hitem
  exact hk (mem_map_of_mem hname)

/-- A message of parts. -/
theorem message_parts {parts : List Value} (hm : m.Canonical) (hw : m.strings.Canonical)
    (hclosed : m.closed (["type", "role", "content"].map kw))
    (htype : ∀ item, m.get? (kw "type") = some item → item.strings = item)
    (hrole : ∀ item, m.get? (kw "role") = some item → item.strings = item)
    (hcontent : m.get? (kw "content") = some (.vector parts))
    (hparts : ∀ p ∈ parts, Inference.part p) (h : message m.strings = some r) : r = m := by
  obtain ⟨hfields, hkeys⟩ := closed_fields hclosed
  have hsorted := hfields.isSorted hm
  obtain ⟨m', hm', h⟩ := bind_eq_some_iff.mp h
  rw [object_keyed hw hm', hfields.keyed_strings] at h
  have hwired : (m.mapValues Value.strings).get? (kw "content") =
      some (.vector (parts.map Value.strings)) := by
    rw [Value.get?_mapValues, hcontent, map_some, Value.strings, Value.stringsItems_eq]
  rw [hwired] at h
  obtain ⟨content, hdecoded, h⟩ := bind_eq_some_iff.mp h
  rw [hwired] at hdecoded
  obtain ⟨out, hout, rfl⟩ := map_eq_some_iff.mp hdecoded
  have hsame : out = parts := by
    have hcanonical : (Value.vector parts).Canonical := hm.get? hcontent
    have hstrings := strings_of_get? hw hcontent
    calc
      out = parts.map id := by
        apply mapM_eq _ hout
        intro p hp q hq
        exact part_decoded (hparts p hp) (Value.canonical_of_mem hcanonical hp)
          (strings_of_mem hstrings hp) hq
      _ = parts := map_id parts
  cases h
  rw [hsame]
  apply Value.eq_of_get? ((hsorted.mapValues _).assoc _ _) hsorted
  intro k
  rw [(hsorted.mapValues _).get?_assoc, Value.get?_mapValues]
  by_cases hk : kw "content" = k
  · rw [if_pos hk, ← hk, hcontent]
  · rw [if_neg hk]
    cases hitem : m.get? k with
    | none => rfl
    | some item =>
      obtain ⟨name, hname, rfl⟩ := hkeys k item hitem
      simp only [mem_cons, not_mem_nil, or_false] at hname
      obtain rfl | rfl | rfl := hname
      · rw [map_some, htype item hitem]
      · rw [map_some, hrole item hitem]
      · exact absurd rfl hk

/-- A message comes back as it was. -/
theorem message_decoded (hmessage : Inference.message m) (hm : m.Canonical)
    (hw : m.strings.Canonical) (h : message m.strings = some r) : r = m := by
  unfold Inference.message at hmessage
  dsimp only at hmessage
  split at hmessage
  · split at hmessage
    · next htype =>
      simp only [Bool.and_eq_true, all_cons, all_nil, and_true] at hmessage
      obtain ⟨hclosed, hid, hname, harguments⟩ := hmessage
      have hclosed : m.closed (["type", "call_id", "name", "arguments"].map kw) := hclosed
      apply message_texts hm hw hclosed _ _ h
      · intro name hfield item hitem
        simp only [mem_cons, not_mem_nil, or_false] at hfield
        obtain rfl | rfl | rfl | rfl := hfield
        · exact oneOf_strings htype hitem
        · exact text_strings hid hitem
        · exact text_strings hname hitem
        · exact text_strings harguments hitem
      · rw [not_field hclosed (by decide)]
        exact fun _ ↦ nofun
    split at hmessage
    · next htype =>
      simp only [Bool.and_eq_true, all_cons, all_nil, and_true] at hmessage
      obtain ⟨hclosed, hid, houtput⟩ := hmessage
      have hclosed : m.closed (["type", "call_id", "output"].map kw) := hclosed
      apply message_texts hm hw hclosed _ _ h
      · intro name hfield item hitem
        simp only [mem_cons, not_mem_nil, or_false] at hfield
        obtain rfl | rfl | rfl := hfield
        · exact oneOf_strings htype hitem
        · exact text_strings hid hitem
        · exact text_strings houtput hitem
      · rw [not_field hclosed (by decide)]
        exact fun _ ↦ nofun
    · simp only [Bool.and_eq_true] at hmessage
      obtain ⟨⟨⟨htype, hclosed⟩, hrole⟩, hcontent⟩ := hmessage
      unfold Inference.isVector at hcontent
      split at hcontent
      · next parts hparts =>
        exact message_parts hm hw hclosed (fun _ ↦ oneOf_strings htype)
          (fun _ ↦ oneOf_strings hrole) hparts (all_eq_true.mp hcontent) h
      · cases hcontent
  · simp only [Bool.and_eq_true] at hmessage
    obtain ⟨⟨hclosed, hrole⟩, hcontent⟩ := hmessage
    have hclosed : m.closed (["role", "content"].map kw) := hclosed
    apply message_texts hm hw hclosed _ (text_not_vector hcontent) h
    intro name hfield item hitem
    simp only [mem_cons, not_mem_nil, or_false] at hfield
    obtain rfl | rfl := hfield
    · exact oneOf_strings hrole hitem
    · exact text_strings hcontent hitem

/-! ### Requests -/

/-- Options on the other side: the values of each tool have strings for their keywords. -/
def wiredOptions (opts : Value) : Value :=
  opts.mapAt (kw "tools") (Value.mapItems (Value.mapValues Value.strings))

/-- A request on the other side. -/
def wiredRequest (v : Value) : Value := v.mapAt (kw "options") wiredOptions

theorem object_fields (hw : v.strings.Canonical) (hfields : HasFields v)
    (h : object v.strings allowed required = some r) : r = v.mapValues Value.strings := by
  rw [object_keyed hw h, hfields.keyed_strings]

theorem update_eq_some {k : String} {f : Value → Option Value} (h : update v k f = some r) :
    ∃ item, f ((v.get? (kw k)).getD .nil) = some item ∧ r = v.assoc (kw k) item := by
  obtain ⟨item, hitem, h⟩ := bind_eq_some_iff.mp h
  exact ⟨item, hitem, (some.inj h).symm⟩

theorem mapv_strings {items : List Value} {h : Value → Value} {d : Value → Option Value}
    (hitems : ∀ x ∈ items, ∀ y, d x.strings = some y → y = h x)
    (hr : mapv d (Value.vector items).strings = some r) : r = .vector (items.map h) := by
  rw [Value.strings, Value.stringsItems_eq] at hr
  obtain ⟨out, hout, rfl⟩ := map_eq_some_iff.mp hr
  rw [mapM_eq hitems hout]

theorem options_decoded {opts : Value} (hoptions : Inference.options opts)
    (hopts : opts.Canonical) (hw : opts.strings.Canonical) (h : options opts.strings = some r) :
    r = wiredOptions opts := by
  simp only [Inference.options, Bool.and_eq_true] at hoptions
  obtain ⟨⟨hkeys, hsystem⟩, htools⟩ := hoptions
  have hkeys : opts.allKeys (fun k ↦ k ∈ ["system", "tools"].map kw) := hkeys
  obtain ⟨hfields, hnames⟩ := fields_of_allKeys hkeys
  have hsorted := hfields.isSorted hopts
  have hsame (item : Value) (hitem : opts.get? (kw "system") = some item) :
      item.strings = item := by
    unfold Inference.optional at hsystem
    rw [hitem, all_some] at hsystem
    exact text_strings hsystem rfl
  obtain ⟨opts', hopts', h⟩ := bind_eq_some_iff.mp h
  rw [object_fields hw hfields hopts', Value.get?_mapValues, isSome_map] at h
  cases htool : opts.get? (kw "tools") with
  | none =>
    rw [htool] at h
    cases h
    apply Value.eq_of_get? (hsorted.mapValues _) (hsorted.mapAt _ _)
    intro k
    rw [Value.get?_mapValues, Value.get?_mapAt]
    cases hitem : opts.get? k with
    | none => simp
    | some item =>
      obtain ⟨name, hname, rfl⟩ := hnames k item hitem
      simp only [mem_cons, not_mem_nil, or_false] at hname
      obtain rfl | rfl := hname
      · rw [if_neg (by decide), map_some, hsame item hitem]
      · rw [htool] at hitem
        cases hitem
  | some tools =>
    unfold Inference.optional at htools
    rw [htool, all_some] at htools
    unfold Inference.isVector at htools
    split at htools
    · next items heq =>
      cases heq
      simp only [Bool.and_eq_true, List.all_eq_true] at htools
      rw [htool, isSome_some, if_pos rfl] at h
      obtain ⟨item, hitem, rfl⟩ := update_eq_some h
      rw [Value.get?_mapValues, htool, map_some, getD_some] at hitem
      have hstrings := strings_of_get? hw htool
      have hitem : item = .vector (items.map (Value.mapValues Value.strings)) := by
        apply mapv_strings _ hitem
        intro t ht r hr
        have htool := htools.2 t ht
        simp only [Inference.tool, Bool.and_eq_true] at htool
        obtain ⟨⟨⟨⟨⟨-, htkeys⟩, -⟩, -⟩, -⟩, -⟩ := htool
        have htkeys : t.allKeys
            (fun k ↦ k ∈ ["name", "description", "parameters", "input_schema"].map kw) :=
          htkeys
        exact object_fields (strings_of_mem hstrings ht) (fields_of_allKeys htkeys).1 hr
      apply Value.eq_of_get? ((hsorted.mapValues _).assoc _ _) (hsorted.mapAt _ _)
      intro k
      rw [(hsorted.mapValues _).get?_assoc, Value.get?_mapValues, Value.get?_mapAt]
      by_cases hk : kw "tools" = k
      · rw [if_pos hk, if_pos hk.symm, ← hk, htool, hitem]
        rfl
      · rw [if_neg hk, if_neg (Ne.symm hk)]
        cases hold : opts.get? k with
        | none => rfl
        | some old =>
          obtain ⟨name, hname, rfl⟩ := hnames k old hold
          simp only [mem_cons, not_mem_nil, or_false] at hname
          obtain rfl | rfl := hname
          · rw [map_some, hsame old hold]
          · exact absurd rfl hk
    · cases htools

variable {size : Value → ℕ}

/-- A request comes back with the strings of its tools. -/
theorem request_decoded (hrequest : Inference.request size v)
    (hv : v.Canonical) (hw : v.strings.Canonical) (h : request v.strings = some r) :
    r = wiredRequest v := by
  simp only [Inference.request, Bool.and_eq_true, decide_eq_true_eq] at hrequest
  obtain ⟨⟨⟨⟨⟨-, hclosed⟩, hversion⟩, hsequence⟩, hmessages⟩, hoptions⟩ := hrequest
  have hclosed : v.closed (["version", "sequence", "messages", "options"].map kw) := hclosed
  obtain ⟨hfields, hnames⟩ := closed_fields hclosed
  have hsorted := hfields.isSorted hv
  unfold Inference.isVector at hmessages
  split at hmessages
  · next items hitems =>
    simp only [Bool.and_eq_true, List.all_eq_true] at hmessages
    obtain ⟨opts, hopts, hoptions⟩ := (any_eq_true _ _).mp hoptions
    obtain ⟨r₀, hr₀, h⟩ := bind_eq_some_iff.mp h
    obtain ⟨r₁, hr₁, h⟩ := bind_eq_some_iff.mp h
    rw [object_fields hw hfields hr₀] at hr₁
    obtain ⟨messages, hdecoded, rfl⟩ := update_eq_some hr₁
    obtain ⟨wired, hwired, rfl⟩ := update_eq_some h
    have hstrings := strings_of_get? hw hitems
    have hsame : messages = .vector items := by
      rw [Value.get?_mapValues, hitems, map_some, getD_some] at hdecoded
      calc
        messages = .vector (items.map id) := by
          apply mapv_strings _ hdecoded
          intro m hm y hy
          exact message_decoded (hmessages.2 m hm) (Value.canonical_of_mem (hv.get? hitems) hm)
            (strings_of_mem hstrings hm) hy
        _ = .vector items := by rw [List.map_id]
    have hkeyne : ¬ kw "messages" = kw "options" := by decide
    rw [(hsorted.mapValues _).get?_assoc, if_neg hkeyne, Value.get?_mapValues, hopts,
      map_some, getD_some] at hwired
    have hwired : wired = wiredOptions opts :=
      options_decoded hoptions (hv.get? hopts) (strings_of_get? hw hopts) hwired
    apply Value.eq_of_get? (((hsorted.mapValues _).assoc _ _).assoc _ _) (hsorted.mapAt _ _)
    intro k
    rw [((hsorted.mapValues _).assoc _ _).get?_assoc, (hsorted.mapValues _).get?_assoc,
      Value.get?_mapValues, Value.get?_mapAt]
    by_cases hk : kw "options" = k
    · rw [if_pos hk, if_pos hk.symm, ← hk, hopts, hwired]
      rfl
    · rw [if_neg hk, if_neg (Ne.symm hk)]
      cases hold : v.get? k with
      | none =>
        have hne : ¬ kw "messages" = k := fun heq ↦ by simp [← heq, hitems] at hold
        rw [if_neg hne]
        rfl
      | some old =>
        obtain ⟨name, hname, rfl⟩ := hnames k old hold
        simp only [mem_cons, not_mem_nil, or_false] at hname
        obtain rfl | rfl | rfl | rfl := hname
        · rw [if_neg (by decide), ← hold, hversion]
          rfl
        · rw [hold] at hsequence
          unfold Inference.isInt at hsequence
          split at hsequence
          · next n heq =>
            cases heq
            rfl
          · cases hsequence
        · rw [if_pos rfl, hsame, ← hold, hitems]
        · exact absurd rfl hk
  · cases hmessages

/-! ### Replies -/

/-- A tool call on the other side: its arguments have keywords for their names, and strings for all
keywords in their values. -/
def wiredCall (call : Value) : Value := call.mapAt (kw "input") fun input ↦ input.strings.keyed

/-- A response on the other side: its stop reason is a string. -/
def wiredResponse (response : Value) : Value :=
  (response.mapAt (kw "stop-reason") Value.strings).mapAt (kw "tool-calls")
    (Value.mapItems wiredCall)

theorem call_decoded {call : Value} (hcall : Inference.toolCall call)
    (hcanonical : call.Canonical) (hw : call.strings.Canonical)
    (h : toolCall call.strings = some r) : r = wiredCall call := by
  simp only [Inference.toolCall, Bool.and_eq_true] at hcall
  obtain ⟨⟨⟨hclosed, hid⟩, hname⟩, hinput⟩ := hcall
  have hclosed : call.closed (["id", "name", "input"].map kw) := hclosed
  obtain ⟨hfields, hnames⟩ := closed_fields hclosed
  have hsorted := hfields.isSorted hcanonical
  obtain ⟨input, hitem, -⟩ := (any_eq_true _ _).mp hinput
  obtain ⟨r₀, hr₀, h⟩ := bind_eq_some_iff.mp h
  obtain ⟨fields, -, h⟩ := bind_eq_some_iff.mp h
  rw [object_fields hw hfields hr₀] at h
  obtain ⟨wired, hwired, rfl⟩ := update_eq_some h
  rw [Value.get?_mapValues, hitem, map_some, getD_some] at hwired
  have hwired : wired = input.strings.keyed := object_keyed (strings_of_get? hw hitem) hwired
  apply Value.eq_of_get? ((hsorted.mapValues _).assoc _ _) (hsorted.mapAt _ _)
  intro k
  rw [(hsorted.mapValues _).get?_assoc, Value.get?_mapValues, Value.get?_mapAt]
  by_cases hk : kw "input" = k
  · rw [if_pos hk, if_pos hk.symm, ← hk, hitem, hwired]
    rfl
  · rw [if_neg hk, if_neg (Ne.symm hk)]
    cases hold : call.get? k with
    | none => rfl
    | some old =>
      obtain ⟨field, hfield, rfl⟩ := hnames k old hold
      simp only [mem_cons, not_mem_nil, or_false] at hfield
      obtain rfl | rfl | rfl := hfield
      · rw [map_some, text_strings hid hold]
      · rw [map_some, text_strings hname hold]
      · exact absurd rfl hk

theorem truthy_strings (item : Option Value) :
    Value.truthy (item.map Value.strings) = Value.truthy item := by
  cases item with
  | none => rfl
  | some v =>
    cases v with
    | bool b => cases b <;> rfl
    | _ => rfl

theorem strings_of_falsy (h : Value.truthy (some item) = false) : item.strings = item := by
  cases item with
  | nil => rfl
  | bool b => rfl
  | _ => cases h

theorem whenLet_cases {k : String} {p : Value → Bool} (h : Inference.whenLet v k p)
    (hitem : v.get? (kw k) = some item) : Value.truthy (some item) = false ∨ p item := by
  unfold Inference.whenLet at h
  rw [hitem, any_some, Bool.or_eq_true, Bool.not_eq_true'] at h
  exact h

theorem whenLet_text {k : String} (h : Inference.whenLet v k (fun x ↦ Inference.isText (some x)))
    (hitem : v.get? (kw k) = some item) : item.strings = item := by
  obtain hfalsy | htext := whenLet_cases h hitem
  · exact strings_of_falsy hfalsy
  · exact text_strings htext rfl

/-- A field is decoded where it is truthy, and stays where it is not. -/
theorem updateIf_eq_some {k : String} {f : Value → Option Value} (hv : v.IsSorted)
    (h : updateIf v k f = some r) : r.IsSorted ∧ (∀ l, l ≠ kw k → r.get? l = v.get? l) ∧
      (Value.truthy (v.get? (kw k)) = false ∧ r.get? (kw k) = v.get? (kw k) ∨
        ∃ item y, v.get? (kw k) = some item ∧ Value.truthy (some item) ∧ f item = some y ∧
          r.get? (kw k) = some y) := by
  unfold updateIf at h
  split at h
  · next htruthy =>
    obtain ⟨y, hy, rfl⟩ := update_eq_some h
    refine ⟨hv.assoc _ _, fun l hl ↦ ?_, .inr ?_⟩
    · rw [hv.get?_assoc, if_neg hl.symm]
    · cases hitem : v.get? (kw k) with
      | none =>
        rw [hitem] at htruthy
        cases htruthy
      | some item =>
        rw [hitem] at htruthy hy
        exact ⟨item, y, rfl, htruthy, hy, by rw [hv.get?_assoc, if_pos rfl]⟩
  · next hnot =>
    cases h
    exact ⟨hv, fun _ _ ↦ rfl, .inl ⟨Bool.eq_false_iff.mpr hnot, rfl⟩⟩

theorem usage_decoded {u : Value} (husage : Inference.usage u) (hu : u.Canonical)
    (hw : u.strings.Canonical) (h : usage u.strings = some r) : r = u := by
  unfold Inference.usage at husage
  split at husage
  · next entries =>
    simp only [List.all_eq_true, Bool.and_eq_true] at husage
    have hkeys : (Value.map entries).allKeys (fun k ↦ k ∈ ["input-tokens", "output-tokens",
        "cache-read-tokens", "cache-write-tokens", "reasoning-output-tokens"].map kw) := by
      apply all_eq_true.mpr
      exact fun e he ↦ (husage e he).1
    obtain ⟨hfields, -⟩ := fields_of_allKeys hkeys
    rw [object_fields hw hfields h]
    apply mapValues_strings (hfields.isSorted hu)
    intro k item hitem
    have hint := (husage _ (Value.mem_of_get? hitem)).2
    unfold Inference.isInt at hint
    split at hint
    · next n heq =>
      cases heq
      rfl
    · cases hint
  · cases husage

/-- A response has a string for its stop reason and its calls' keywords. -/
theorem response_decoded (hresponse : Inference.response size v)
    (hv : v.Canonical) (hw : v.strings.Canonical) (h : response v.strings = some r) :
    r = wiredResponse v := by
  simp only [Inference.response, Bool.and_eq_true, all_cons, all_nil, and_true]
    at hresponse
  obtain ⟨⟨⟨⟨⟨⟨-, hkeys⟩, hcontent⟩, hreasoning, hmodel, hid⟩, -⟩, hcalls⟩, husage⟩ := hresponse
  have hkeys : v.allKeys (fun k ↦ k ∈ ["content", "reasoning", "tool-calls", "usage",
      "stop-reason", "model", "id"].map kw) := hkeys
  obtain ⟨hfields, hnames⟩ := fields_of_allKeys hkeys
  have hsorted := hfields.isSorted hv
  obtain ⟨r₀, hr₀, h⟩ := bind_eq_some_iff.mp h
  obtain ⟨r₁, hr₁, hr₂⟩ := bind_eq_some_iff.mp h
  rw [object_fields hw hfields hr₀] at hr₁
  obtain ⟨hsorted₁, hother₁, husage₁⟩ := updateIf_eq_some (hsorted.mapValues _) hr₁
  obtain ⟨hsorted₂, hother₂, hcalls₂⟩ := updateIf_eq_some hsorted₁ hr₂
  have hkeyne : kw "tool-calls" ≠ kw "usage" := by decide
  simp only [Value.get?_mapValues] at hother₁ husage₁
  rw [hother₁ _ hkeyne] at hcalls₂
  have hfalsy {k : Key} (htruthy : Value.truthy ((v.get? k).map Value.strings) = false) :
      (v.get? k).map Value.strings = v.get? k := by
    rw [truthy_strings] at htruthy
    cases hitem : v.get? k with
    | none => rfl
    | some item =>
      rw [hitem] at htruthy
      rw [map_some, strings_of_falsy htruthy]
  have hsame : r₁.get? (kw "usage") = v.get? (kw "usage") := by
    obtain ⟨htruthy, hold⟩ | ⟨item, y, hitem, htruthy, hy, hnew⟩ := husage₁
    · rw [hold, hfalsy htruthy]
    · obtain ⟨u, hu, rfl⟩ := map_eq_some_iff.mp hitem
      have hp : Inference.usage u := by
        obtain hfalse | hp := whenLet_cases husage hu
        · rw [← map_some, truthy_strings, hfalse] at htruthy
          cases htruthy
        · exact hp
      rw [hnew, hu, usage_decoded hp (hv.get? hu) (strings_of_get? hw hu) hy]
  have hwired : r.get? (kw "tool-calls") =
      (v.get? (kw "tool-calls")).map (Value.mapItems wiredCall) := by
    obtain ⟨htruthy, hold⟩ | ⟨item, y, hitem, htruthy, hy, hnew⟩ := hcalls₂
    · rw [hold, hfalsy htruthy]
      cases hitem : v.get? (kw "tool-calls") with
      | none => rfl
      | some item =>
        rw [hitem] at htruthy
        cases item with
        | vector items => cases htruthy
        | _ => rfl
    · obtain ⟨calls, hc, rfl⟩ := map_eq_some_iff.mp hitem
      have hp := (whenLet_cases hcalls hc).resolve_left (by
        rw [← map_some, truthy_strings] at htruthy
        simp [htruthy])
      unfold Inference.isVector at hp
      split at hp
      · next items heq =>
        cases heq
        simp only [Bool.and_eq_true, List.all_eq_true] at hp
        rw [hnew, hc, mapv_strings (fun c hc' y hy ↦ ?_) hy]
        · rfl
        · exact call_decoded (hp.2 c hc') (Value.canonical_of_mem (hv.get? hc) hc')
            (strings_of_mem (strings_of_get? hw hc) hc') hy
      · cases hp
  apply Value.eq_of_get? hsorted₂ ((hsorted.mapAt _ _).mapAt _ _)
  intro k
  rw [Value.get?_mapAt, Value.get?_mapAt]
  by_cases hk : k = kw "tool-calls"
  · rw [if_pos hk, hk, hwired, if_neg (by decide)]
  rw [if_neg hk, hother₂ k hk]
  by_cases hu : k = kw "usage"
  · rw [hu, hsame, if_neg (by decide)]
  rw [hother₁ k hu]
  by_cases hs : k = kw "stop-reason"
  · rw [if_pos hs]
  rw [if_neg hs]
  cases hold : v.get? k with
  | none => rfl
  | some old =>
    obtain ⟨name, hname, rfl⟩ := hnames k old hold
    simp only [mem_cons, not_mem_nil, or_false] at hname
    obtain rfl | rfl | rfl | rfl | rfl | rfl | rfl := hname
    · rw [map_some, text_strings hcontent hold]
    · rw [map_some, whenLet_text hreasoning hold]
    · exact absurd rfl hk
    · exact absurd rfl hu
    · exact absurd rfl hs
    · rw [map_some, whenLet_text hmodel hold]
    · rw [map_some, whenLet_text hid hold]

theorem reply_get? (n : ℕ) (response : Value) (k : Key) :
    (Inference.reply n response).get? k = if k = kw "version" then some (.int 1)
      else if k = kw "sequence" then some (.int n)
      else if k = kw "response" then some response else none := by
  unfold Inference.reply
  rw [Value.get?_ofFields (g := fun k ↦ if k = kw "version" then some (.int 1)
    else if k = kw "sequence" then some (.int n)
    else if k = kw "response" then some response else none)]
  · by_cases hv : k = kw "version"
    · simp [hv]
    by_cases hs : k = kw "sequence"
    · simp [hs]
    by_cases hr : k = kw "response"
    · simp [hr]
    · simp [hv, hs, hr]
  · have hsv : kw "sequence" ≠ kw "version" := by decide
    have hrv : kw "response" ≠ kw "version" := by decide
    have hrs : kw "response" ≠ kw "sequence" := by decide
    simp [hsv, hrv, hrs]

theorem reply_sorted (n : ℕ) (response : Value) : (Inference.reply n response).IsSorted :=
  ⟨_, rfl, Value.ofFields_sorted _⟩

theorem reply_names {n : ℕ} {response : Value} (h : (Inference.reply n response).get? k = some item) :
    k = kw "version" ∧ item = .int 1 ∨ k = kw "sequence" ∧ item = .int n ∨
      k = kw "response" ∧ item = response := by
  rw [reply_get?] at h
  split at h
  · next hk => exact .inl ⟨hk, (some.inj h).symm⟩
  split at h
  · next hk => exact .inr (.inl ⟨hk, (some.inj h).symm⟩)
  split at h
  · next hk => exact .inr (.inr ⟨hk, (some.inj h).symm⟩)
  · cases h

theorem reply_fields (n : ℕ) (response : Value) : HasFields (Inference.reply n response) := by
  refine ⟨_, rfl, fun e he ↦ ?_⟩
  have hitem := Value.get?_of_mem (Value.ofFields_sorted _) he
  obtain ⟨hk, -⟩ | ⟨hk, -⟩ | ⟨hk, -⟩ := reply_names hitem
  all_goals exact ⟨_, hk⟩

/-- A reply comes back with the response of the other side. -/
theorem reply_decoded {n : ℕ} (hresponse : Inference.response size v)
    (hv : v.Canonical) (hw : (Inference.reply n v).strings.Canonical)
    (h : reply (Inference.reply n v).strings = some r) :
    r = Inference.reply n (wiredResponse v) := by
  have hfields := reply_fields n v
  have hsorted := reply_sorted n v
  have hitem : (Inference.reply n v).get? (kw "response") = some v := by
    rw [reply_get?, if_neg (by decide), if_neg (by decide), if_pos rfl]
  unfold reply at h
  obtain ⟨r₀, hr₀, h⟩ := bind_eq_some_iff.mp h
  rw [object_fields hw hfields hr₀] at h
  obtain ⟨wired, hwired, rfl⟩ := update_eq_some h
  have hwired : wired = wiredResponse v :=
    response_decoded hresponse hv (strings_of_get? hw hitem) hwired
  apply Value.eq_of_get? ((hsorted.mapValues _).assoc _ _) (reply_sorted n _)
  intro k
  rw [(hsorted.mapValues _).get?_assoc, Value.get?_mapValues, hwired]
  by_cases hk : kw "response" = k
  · rw [if_pos hk, ← hk, reply_get?, if_neg (by decide), if_neg (by decide),
      if_pos rfl]
  · have hother (x : Value) : (Inference.reply n x).get? k =
        if k = kw "version" then some (.int 1) else if k = kw "sequence" then some (.int n)
        else none := by
      rw [reply_get?, if_neg (Ne.symm hk)]
    rw [if_neg hk, hother, hother]
    split
    · rfl
    split <;> rfl

theorem ofFields_canonical {fields : List (Key × Value)} (h : ∀ f ∈ fields, f.2.Canonical) :
    (Value.ofFields fields).Canonical := by
  have hempty : Value.CanonicalEntries [] := trivial
  refine ⟨Value.ofFields_sorted _, ?_⟩
  apply foldlRecOn fields _ hempty
  exact fun entries hentries field hfield ↦ canonicalEntries_insert (h field hfield) hentries

theorem reply_canonical (n : ℕ) (hv : v.Canonical) : (Inference.reply n v).Canonical := by
  apply ofFields_canonical
  intro f hf
  simp only [mem_cons, not_mem_nil, or_false] at hf
  obtain rfl | rfl | rfl := hf
  · trivial
  · trivial
  · exact hv

/-! ## The codec -/

open Frames (Channel)

/-- What is written is read as it was, up to the depth of the parser and with strings for keywords
below the fields. -/
theorem codec_is_lossless (json : Frames.Json) (size : Value → ℕ) :
    (∀ (v : Value) (limit : ℕ) (writer : Channel), json.Faithful v → v.nesting ≤ Frames.maxDepth →
      (writer.write json v limit).2 = true →
        v.strings = v ∧ ∃ frame, (writer.write json v limit).1.outgoing = writer.outgoing ++ frame ∧
          ∀ (reader : Channel) (rest : List UInt8), reader.closed = false →
            reader.incoming = frame ++ rest →
              reader.read json limit = ({ reader with incoming := rest }, .value v)) ∧
    (∀ (values : List (Value × ℕ)) (writer : Channel) (last : ℕ),
      (∀ p ∈ values, json.Faithful p.1 ∧ p.1.nesting ≤ Frames.maxDepth) → writer.outgoing = [] →
      (writer.writes json values).2 = true → Frames.isLimit last = true →
        Channel.reads json { incoming := (writer.writes json values).1.outgoing }
            (values.map Prod.snd ++ [last]) =
          (values.map fun p ↦ .value p.1) ++ [.nil]) ∧
    (∀ v w r : Value, v.Canonical → Inference.request size v = true → encode v = some w →
      request w = some r → r = wiredRequest v) ∧
    ∀ (n : ℕ) (v w r : Value), v.Canonical → Inference.response size v = true →
      encode (Inference.reply n v) = some w → reply w = some r →
        r = Inference.reply n (wiredResponse v) := by
  refine ⟨?_, ?_, ?_, ?_⟩
  · intro v limit writer hjson hdepth hwritten
    obtain ⟨-, hv, hchannel⟩ := Channel.write_ok hwritten
    refine ⟨Frames.data_plain hv.checked, Frames.frame json v, by rw [hchannel], ?_⟩
    rintro ⟨incoming, outgoing, closed⟩ rest hopen hincoming
    cases hopen
    cases hincoming
    exact Frames.read_frame hv hjson hdepth rest outgoing
  · intro values writer last hvalues hempty hwritten hlast
    apply Frames.reads_writes hempty hwritten _ _ hlast
    · exact fun p hp ↦ (hvalues p hp).1
    · exact fun p hp ↦ (hvalues p hp).2
  · intro v w r hv hrequest hencoded hdecoded
    obtain ⟨rfl, hw⟩ := encode_eq_some hv hencoded
    exact request_decoded hrequest hv hw hdecoded
  · intro n v w r hv hresponse hencoded hdecoded
    obtain ⟨rfl, hw⟩ := encode_eq_some (reply_canonical n hv) hencoded
    exact reply_decoded hresponse hv hw hdecoded

/-- An object with one entry, and its text. -/
def flagged : Value := .map [(.string "a", .bool true)]

def flaggedJson : Frames.Json where
  write _ := "\x7b\"a\":true\x7d"
  tokens _ := some 4
  parse _ := some flagged

theorem flaggedJson_faithful : flaggedJson.Faithful flagged where
  line := by decide
  tokens _ := rfl
  parse _ := rfl
  deep h := absurd h (by decide)

def greeting : Value := .ofFields [(kw "version", .int 1), (kw "sequence", .int 1),
  (kw "messages", .vector [.ofFields [(kw "role", .str "user"), (kw "content", .str "hi")]]),
  (kw "options", .ofFields [(kw "tools", .vector [.ofFields [(kw "name", .str "write_file"),
    (kw "parameters", .ofFields [(kw "type", .keyword none "object")])]])])]

def finished : Value :=
  .ofFields [(kw "content", .str "done"), (kw "stop-reason", .keyword none "end-turn")]

theorem greeting_canonical : greeting.Canonical := by
  apply ofFields_canonical
  simp only [forall_mem_cons, not_mem_nil, false_imp_iff, implies_true, and_true]
  refine ⟨trivial, trivial, ⟨?_, trivial⟩, ofFields_canonical ?_⟩
  · apply ofFields_canonical
    simp [Value.Canonical]
  · simp only [forall_mem_cons, not_mem_nil, false_imp_iff, implies_true, and_true]
    refine ⟨ofFields_canonical ?_, trivial⟩
    simp only [forall_mem_cons, not_mem_nil, false_imp_iff, implies_true, and_true]
    refine ⟨trivial, ofFields_canonical ?_⟩
    simp [Value.Canonical]

theorem finished_canonical : finished.Canonical := by
  apply ofFields_canonical
  simp [Value.Canonical]

theorem codec_is_lossless_example :
    (∃ frame, (Channel.write flaggedJson {} flagged 100).1.outgoing = [] ++ frame ∧
      Channel.read flaggedJson ⟨frame ++ [1], [], false⟩ 100 = (⟨[1], [], false⟩, .value flagged)) ∧
    Channel.reads flaggedJson
        { incoming := (Channel.writes flaggedJson {} [(flagged, 100), (flagged, 20)]).1.outgoing }
        [100, 20, 1] = [.value flagged, .value flagged, .nil] ∧
    (∃ w r, encode greeting = some w ∧ request w = some r ∧ r = wiredRequest greeting) ∧
    ∃ w r, encode (Inference.reply 1 finished) = some w ∧ reply w = some r ∧
      r = Inference.reply 1 (wiredResponse finished) := by
  obtain ⟨hframe, hframes, hrequest, hreply⟩ :=
    codec_is_lossless flaggedJson fun v ↦ if v = finished then 43 else 145
  refine ⟨?_, ?_, ?_, ?_⟩
  · obtain ⟨-, frame, houtgoing, hread⟩ :=
      hframe flagged 100 {} flaggedJson_faithful (by decide) (by decide +kernel)
    exact ⟨frame, houtgoing, hread ⟨_, [], false⟩ [1] rfl rfl⟩
  · apply hframes [(flagged, 100), (flagged, 20)] {} 1 _ rfl (by decide) (by decide)
    intro p hp
    simp only [mem_cons, not_mem_nil, or_false] at hp
    obtain rfl | rfl := hp
    all_goals exact ⟨flaggedJson_faithful, by decide⟩
  · have hencoded : (encode greeting).isSome = true := by decide
    have hdecoded : ((encode greeting).bind request).isSome = true := by decide
    obtain ⟨w, hw⟩ := isSome_iff_exists.mp hencoded
    rw [hw, bind_some] at hdecoded
    obtain ⟨r, hr⟩ := isSome_iff_exists.mp hdecoded
    exact ⟨w, r, hw, hr, hrequest greeting w r greeting_canonical (by decide +kernel) hw hr⟩
  · have hencoded : (encode (Inference.reply 1 finished)).isSome = true := by decide +kernel
    have hdecoded : ((encode (Inference.reply 1 finished)).bind reply).isSome = true := by
      decide
    obtain ⟨w, hw⟩ := isSome_iff_exists.mp hencoded
    rw [hw, bind_some] at hdecoded
    obtain ⟨r, hr⟩ := isSome_iff_exists.mp hdecoded
    exact ⟨w, r, hw, hr, hreply 1 finished w r finished_canonical (by decide) hw hr⟩

def nested : ℕ → Value
  | 0 => .vector []
  | n + 1 => .vector [nested n]

/-- An object that holds 32 nested arrays, and its text. -/
def deep : Value := .map [(.string "a", nested 31)]

def deepJson : Frames.Json where
  write _ := "\x7b\"a\":[[[[[[[[[[[[[[[[[[[[[[[[[[[[[[[[]]]]]]]]]]]]]]]]]]]]]]]]]]]]]]]]\x7d"
  tokens _ := none
  parse _ := none

/-- A stop reason comes back as a string, and a value of the writer's depth is refused. -/
theorem stop_reason_and_deepest_value : Inference.response (fun _ ↦ 43) finished = true ∧
    (∃ w r, encode (Inference.reply 1 finished) = some w ∧ reply w = some r ∧
      r ≠ Inference.reply 1 finished) ∧ (Channel.write deepJson {} deep 100).2 = true ∧
    (Channel.read deepJson { incoming := (Channel.write deepJson {} deep 100).1.outgoing } 100).2 =
      .refused := by
  have hencoded : (encode (Inference.reply 1 finished)).isSome = true := by decide
  have hdecoded : ((encode (Inference.reply 1 finished)).bind reply).any
      (· ≠ Inference.reply 1 finished) = true := by decide
  obtain ⟨w, hw⟩ := isSome_iff_exists.mp hencoded
  rw [hw, bind_some] at hdecoded
  obtain ⟨r, hr, hne⟩ := (any_eq_true _ _).mp hdecoded
  refine ⟨by decide, ⟨w, r, hw, hr, of_decide_eq_true hne⟩, by decide, ?_⟩
  decide

end Simmis.Workers.Wire
