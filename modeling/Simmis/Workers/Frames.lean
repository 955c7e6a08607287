import Simmis.Workers.Values

/-!
# Frames of the worker pipes

A frame is one object as a line of JSON. The writer walks the value and counts the bytes that it
writes, the reader counts the bytes and the tokens of the text before it walks the value too.
-/

namespace Simmis.Workers.Frames

open List Option Value

def maxFrameBytes : ℕ := 4194304 + 4096
def maxDepth : ℕ := 32
def maxNodes : ℕ := 50000
def maxTokens : ℕ := 100000

/-- `limit!` -/
def isLimit (limit : ℕ) : Bool := 1 ≤ limit ∧ limit ≤ maxFrameBytes

def isHighSurrogate (u : UInt16) : Bool := 0xD800 ≤ u ∧ u ≤ 0xDBFF
def isLowSurrogate (u : UInt16) : Bool := 0xDC00 ≤ u ∧ u ≤ 0xDFFF

/-- No surrogate stands alone. -/
def paired : List UInt16 → Bool
  | [] => true
  | [u] => !isHighSurrogate u && !isLowSurrogate u
  | u :: v :: rest =>
    if isHighSurrogate u then isLowSurrogate v && paired rest
    else !isLowSurrogate u && paired (v :: rest)

/-- `string!` -/
def string (limit : ℕ) (s : JavaString) : Bool := s.count ≤ limit && paired s.units

/-- Between `Long/MIN_VALUE` and `Long/MAX_VALUE`. -/
def isLong (n : ℤ) : Bool := -2 ^ 63 ≤ n ∧ n < 2 ^ 63

/-- The nodes that are left after one more. -/
def node (depth nodes : ℕ) : Option ℕ :=
  if depth ≤ maxDepth ∧ 0 < nodes then some (nodes - 1) else none

mutual

/-- `visit`, with the nodes that are left. -/
def visit (limit : ℕ) (v : Value) (depth nodes : ℕ) : Option ℕ := do
  let nodes ← node depth nodes
  match v with
  | .nil | .bool _ => some nodes
  | .str s => if string limit s then some nodes else none
  | .int n => if isLong n then some nodes else none
  | .double d => if d.isFinite then some nodes else none
  | .vector items => visitItems limit items (depth + 1) nodes
  | .map entries => visitEntries limit entries (depth + 1) nodes
  | .keyword _ _ | .other _ => none

def visitItems (limit : ℕ) (items : List Value) (depth nodes : ℕ) : Option ℕ :=
  match items with
  | [] => some nodes
  | item :: items => do
    let nodes ← visit limit item depth nodes
    visitItems limit items depth nodes

def visitEntries (limit : ℕ) (entries : List (Key × Value)) (depth nodes : ℕ) : Option ℕ :=
  match entries with
  | [] => some nodes
  | (.keyword _ _, _) :: _ => none
  | (.string k, item) :: entries => do
    let nodes ← node depth nodes
    if string limit k then do
      let nodes ← visit limit item depth nodes
      visitEntries limit entries depth nodes
    else none

end

/-- `data!` -/
def data (limit : ℕ) (v : Value) : Bool := v.isMap && (visit limit v 0 maxNodes).isSome

/-- The configured mapper, and the number of tokens of a text. The parser may throw. -/
structure Json where
  write : Value → String
  tokens : String → Option ℕ
  parse : String → Option Value

def utf8 (s : String) : List UInt8 := s.toUTF8.data.toList

/-- The decoder that reports malformed input. -/
def decode (bytes : List UInt8) : Option String := String.fromUTF8? ⟨bytes.toArray⟩

/-- The two pipes of a channel, and its `closed?`. -/
structure Channel where
  incoming : List UInt8 := []
  outgoing : List UInt8 := []
  closed : Bool := false
deriving DecidableEq

/-- `write!`, and whether it has succeeded. -/
def Channel.write (json : Json) (ch : Channel) (v : Value) (limit : ℕ) : Channel × Bool :=
  let bytes := utf8 (json.write v)
  if isLimit limit && !ch.closed && data limit v && bytes.length ≤ limit then
    ({ ch with outgoing := ch.outgoing ++ bytes ++ [10] }, true)
  else ({ ch with closed := true }, false)

/-- What the loop over the bytes ends with. -/
inductive Payload
  | eof
  | refused
  | payload (bytes rest : List UInt8)
deriving DecidableEq

/-- The loop of `read!`, with the bytes of the buffer in reverse. -/
def payload (limit : ℕ) (buffer : List UInt8) : List UInt8 → Payload
  | [] => if buffer.isEmpty then .eof else .refused
  | b :: rest =>
    if b = 10 then .payload buffer.reverse rest
    else if limit ≤ buffer.length then .refused
    else payload limit (b :: buffer) rest

/-- What `read!` returns; `nil` at the end of the pipe. -/
inductive Received
  | nil
  | refused
  | value (v : Value)
deriving DecidableEq

/-- The value of a payload. -/
def receive (json : Json) (limit : ℕ) (bytes : List UInt8) : Option Value := do
  let text ← decode bytes
  let tokens ← json.tokens text
  if tokens ≤ maxTokens then
    let v ← json.parse text
    if data limit v then some v else none
  else none

/-- `read!` -/
def Channel.read (json : Json) (ch : Channel) (limit : ℕ) : Channel × Received :=
  if isLimit limit && !ch.closed then
    match payload limit [] ch.incoming with
    | .eof => ({ ch with closed := true }, .nil)
    | .refused => ({ ch with closed := true }, .refused)
    | .payload bytes rest =>
      match receive json limit bytes with
      | some v => ({ ch with incoming := rest }, .value v)
      | none => ({ ch with incoming := rest, closed := true }, .refused)
  else ({ ch with closed := true }, .refused)

/-- A value is written in one line and read back, unless it is nested too deep. -/
structure Json.Faithful (json : Json) (v : Value) : Prop where
  line : 10 ∉ utf8 (json.write v)
  tokens : v.nesting ≤ maxDepth → json.tokens (json.write v) = some v.tokens
  parse : v.nesting ≤ maxDepth → json.parse (json.write v) = some v
  deep : maxDepth < v.nesting → json.tokens (json.write v) = none

variable {json : Json}

theorem decode_utf8 (s : String) : decode (utf8 s) = some s := by
  unfold decode utf8 String.fromUTF8?
  simp only [String.toUTF8_eq_toByteArray, Array.toArray_toList, dite_none_right_eq_some]
  exact ⟨s.isValidUTF8, rfl⟩

theorem payload_line {limit : ℕ} {bytes rest : List UInt8} (hline : 10 ∉ bytes)
    {buffer : List UInt8} (hfits : buffer.length + bytes.length ≤ limit) :
    payload limit buffer (bytes ++ 10 :: rest) = .payload (buffer.reverse ++ bytes) rest := by
  induction bytes generalizing buffer with
  | nil => simp [payload]
  | cons b bytes ih =>
    simp only [mem_cons, not_or] at hline
    obtain ⟨hb, hbytes⟩ := hline
    have hroom : ¬ limit ≤ buffer.length := by
      simp only [length_cons] at hfits
      omega
    have hnext : (b :: buffer).length + bytes.length ≤ limit := by
      simp only [length_cons] at hfits ⊢
      omega
    calc
      payload limit buffer (b :: bytes ++ 10 :: rest) =
          payload limit (b :: buffer) (bytes ++ 10 :: rest) := by
        rw [cons_append, payload, if_neg (Ne.symm hb), if_neg hroom]
      _ = .payload ((b :: buffer).reverse ++ bytes) rest := ih hbytes hnext
      _ = .payload (buffer.reverse ++ b :: bytes) rest := by simp

theorem node_eq {depth nodes left : ℕ} (h : node depth nodes = some left) : left + 1 = nodes := by
  unfold node at h
  split at h
  · next hnode =>
    rw [← some.inj h]
    omega
  · cases h

mutual

theorem visit_tokens {limit : ℕ} : ∀ (v : Value) {depth nodes left : ℕ},
    visit limit v depth nodes = some left → v.tokens + 2 * left ≤ 2 * nodes
  | v, depth, nodes, left, h => by
    unfold visit at h
    obtain ⟨rest, hrest, h⟩ := bind_eq_some_iff.mp h
    have hnode := node_eq hrest
    match v with
    | .nil | .bool _ =>
      cases h
      simp only [tokens]
      omega
    | .str _ | .int _ | .double _ =>
      simp only [ite_none_right_eq_some] at h
      obtain ⟨-, h⟩ := h
      cases h
      simp only [tokens]
      omega
    | .vector items =>
      have hitems := visitItems_tokens items h
      simp only [tokens]
      omega
    | .map entries =>
      have hentries := visitEntries_tokens entries h
      simp only [tokens]
      omega

theorem visitItems_tokens {limit : ℕ} : ∀ (items : List Value) {depth nodes left : ℕ},
    visitItems limit items depth nodes = some left → tokensItems items + 2 * left ≤ 2 * nodes
  | [], _, _, _, h => by
    cases h
    simp [tokensItems]
  | item :: items, _, _, _, h => by
    unfold visitItems at h
    obtain ⟨rest, hrest, h⟩ := bind_eq_some_iff.mp h
    have hitem := visit_tokens item hrest
    have hitems := visitItems_tokens items h
    simp only [tokensItems]
    omega

theorem visitEntries_tokens {limit : ℕ} : ∀ (entries : List (Key × Value)) {depth nodes left : ℕ},
    visitEntries limit entries depth nodes = some left →
      tokensEntries entries + 2 * left ≤ 2 * nodes
  | [], _, _, _, h => by
    cases h
    simp [tokensEntries]
  | (.keyword _ _, _) :: _, _, _, _, h => by
    cases h
  | (.string k, item) :: entries, _, _, _, h => by
    unfold visitEntries at h
    obtain ⟨afterKey, hkey, h⟩ := bind_eq_some_iff.mp h
    have hnode := node_eq hkey
    rw [ite_none_right_eq_some] at h
    obtain ⟨rest, hrest, h⟩ := bind_eq_some_iff.mp h.2
    have hitem := visit_tokens item hrest
    have hentries := visitEntries_tokens entries h
    simp only [tokensEntries]
    omega

end

/-- A token for each node, and a second one for each container. -/
theorem tokens_le {limit : ℕ} {v : Value} (h : data limit v) : v.tokens ≤ maxTokens := by
  unfold data at h
  simp only [Bool.and_eq_true] at h
  obtain ⟨left, hleft⟩ := isSome_iff_exists.mp h.2
  have hcount := visit_tokens v hleft
  unfold maxNodes at hcount
  unfold maxTokens
  omega

mutual

theorem visit_plain {limit : ℕ} : ∀ (v : Value) {depth nodes left : ℕ},
    visit limit v depth nodes = some left → v.strings = v
  | v, depth, nodes, left, h => by
    unfold visit at h
    obtain ⟨rest, -, h⟩ := bind_eq_some_iff.mp h
    match v with
    | .nil | .bool _ | .str _ | .int _ | .double _ => rfl
    | .vector items => exact congrArg vector (visitItems_plain items h)
    | .map entries => exact congrArg Value.map (visitEntries_plain entries h)

theorem visitItems_plain {limit : ℕ} : ∀ (items : List Value) {depth nodes left : ℕ},
    visitItems limit items depth nodes = some left → stringsItems items = items
  | [], _, _, _, _ => rfl
  | item :: items, _, _, _, h => by
    unfold visitItems at h
    obtain ⟨rest, hrest, h⟩ := bind_eq_some_iff.mp h
    rw [stringsItems, visit_plain item hrest, visitItems_plain items h]

theorem visitEntries_plain {limit : ℕ} : ∀ (entries : List (Key × Value)) {depth nodes left : ℕ},
    visitEntries limit entries depth nodes = some left → stringsEntries entries = entries
  | [], _, _, _, _ => rfl
  | (.keyword _ _, _) :: _, _, _, _, h => by
    cases h
  | (.string k, item) :: entries, _, _, _, h => by
    unfold visitEntries at h
    obtain ⟨afterKey, -, h⟩ := bind_eq_some_iff.mp h
    rw [ite_none_right_eq_some] at h
    obtain ⟨rest, hrest, h⟩ := bind_eq_some_iff.mp h.2
    rw [stringsEntries, visit_plain item hrest, visitEntries_plain entries h]
    rfl

end

/-- A value that is let through has strings for its keys, and no keywords. -/
theorem data_plain {limit : ℕ} {v : Value} (h : data limit v) : v.strings = v := by
  unfold data at h
  simp only [Bool.and_eq_true] at h
  obtain ⟨left, hleft⟩ := isSome_iff_exists.mp h.2
  exact visit_plain v hleft

def frame (json : Json) (v : Value) : List UInt8 := utf8 (json.write v) ++ [10]

/-- The writer's checks of a value. -/
structure Admitted (json : Json) (limit : ℕ) (v : Value) : Prop where
  bound : isLimit limit = true
  checked : data limit v = true
  fits : (utf8 (json.write v)).length ≤ limit

theorem Channel.write_ok {ch : Channel} {v : Value} {limit : ℕ}
    (h : (ch.write json v limit).2) : ch.closed = false ∧ Admitted json limit v ∧
      (ch.write json v limit).1 = { ch with outgoing := ch.outgoing ++ frame json v } := by
  unfold Channel.write at h ⊢
  dsimp only at h ⊢
  split at h
  · next hchecks =>
    simp only [Bool.and_eq_true, Bool.not_eq_true', decide_eq_true_eq] at hchecks
    obtain ⟨⟨⟨hlimit, hopen⟩, hdata⟩, hfits⟩ := hchecks
    refine ⟨hopen, ⟨hlimit, hdata, hfits⟩, ?_⟩
    simp [hlimit, hopen, hdata, hfits, frame]
  · cases h

section

variable {v : Value} {limit : ℕ} (hv : Admitted json limit v) (hjson : json.Faithful v)

include hv hjson

theorem payload_frame (rest : List UInt8) :
    payload limit [] (frame json v ++ rest) = .payload (utf8 (json.write v)) rest := by
  have hfits : ([] : List UInt8).length + (utf8 (json.write v)).length ≤ limit := by
    simpa using hv.fits
  calc
    payload limit [] (frame json v ++ rest) =
        payload limit [] (utf8 (json.write v) ++ 10 :: rest) := by simp [frame]
    _ = .payload ([].reverse ++ utf8 (json.write v)) rest := payload_line hjson.line hfits
    _ = .payload (utf8 (json.write v)) rest := rfl

theorem receive_frame (hdepth : v.nesting ≤ maxDepth) :
    receive json limit (utf8 (json.write v)) = some v := by
  have htokens := hjson.tokens hdepth
  have hparse := hjson.parse hdepth
  have hcount := tokens_le hv.checked
  simp [receive, decode_utf8, htokens, hparse, hcount, hv.checked]

/-- A reader with the same limit gets the value and has consumed its frame. -/
theorem read_frame (hdepth : v.nesting ≤ maxDepth) (rest outgoing : List UInt8) :
    Channel.read json ⟨frame json v ++ rest, outgoing, false⟩ limit =
      (⟨rest, outgoing, false⟩, .value v) := by
  unfold Channel.read
  rw [if_pos (by simp [hv.bound])]
  simp only [payload_frame hv hjson, receive_frame hv hjson hdepth]

end

/-- Values written one after the other, and whether all writes have succeeded. -/
def Channel.writes (json : Json) : Channel → List (Value × ℕ) → Channel × Bool
  | ch, [] => (ch, true)
  | ch, (v, limit) :: values =>
    let first := ch.write json v limit
    let others := first.1.writes json values
    (others.1, first.2 && others.2)

/-- What is read one after the other. -/
def Channel.reads (json : Json) : Channel → List ℕ → List Received
  | _, [] => []
  | ch, limit :: limits =>
    let first := ch.read json limit
    first.2 :: first.1.reads json limits

theorem Channel.writes_ok {ch : Channel} {values : List (Value × ℕ)}
    (h : (ch.writes json values).2) :
    (∀ p ∈ values, Admitted json p.2 p.1) ∧ (ch.writes json values).1.outgoing =
      ch.outgoing ++ values.flatMap fun p ↦ frame json p.1 := by
  induction values generalizing ch with
  | nil => simp [writes]
  | cons p values ih =>
    obtain ⟨v, limit⟩ := p
    simp only [writes, Bool.and_eq_true] at h
    obtain ⟨-, hv, hwritten⟩ := write_ok h.1
    obtain ⟨hvalues, houtgoing⟩ := ih h.2
    constructor
    · exact forall_mem_cons.mpr ⟨hv, hvalues⟩
    · calc
        (ch.writes json ((v, limit) :: values)).1.outgoing =
            (ch.write json v limit).1.outgoing ++ values.flatMap fun p ↦ frame json p.1 := houtgoing
        _ = ch.outgoing ++ ((v, limit) :: values).flatMap fun p ↦ frame json p.1 := by
          rw [hwritten, flatMap_cons, ← append_assoc]

theorem reads_values {values : List (Value × ℕ)} (hvalues : ∀ p ∈ values, Admitted json p.2 p.1)
    (hjson : ∀ p ∈ values, json.Faithful p.1) (hdepth : ∀ p ∈ values, p.1.nesting ≤ maxDepth)
    {last : ℕ} (hlast : isLimit last) (outgoing : List UInt8) :
    Channel.reads json ⟨values.flatMap fun p ↦ frame json p.1, outgoing, false⟩
        (values.map Prod.snd ++ [last]) = (values.map fun p ↦ .value p.1) ++ [.nil] := by
  induction values with
  | nil => simp [Channel.reads, Channel.read, payload, hlast]
  | cons p values ih =>
    obtain ⟨hp, hvalues⟩ := forall_mem_cons.mp hvalues
    obtain ⟨hpjson, hjson⟩ := forall_mem_cons.mp hjson
    obtain ⟨hpdepth, hdepth⟩ := forall_mem_cons.mp hdepth
    have hread := read_frame hp hpjson hpdepth (values.flatMap fun p ↦ frame json p.1) outgoing
    simp only [flatMap_cons, map_cons, cons_append, Channel.reads, hread]
    exact congrArg _ (ih hvalues hjson hdepth)

/-- All that has been written is read, and then the end of the pipe. -/
theorem reads_writes {values : List (Value × ℕ)} {writer : Channel}
    (hempty : writer.outgoing = []) (hwritten : (writer.writes json values).2)
    (hjson : ∀ p ∈ values, json.Faithful p.1) (hdepth : ∀ p ∈ values, p.1.nesting ≤ maxDepth)
    {last : ℕ} (hlast : isLimit last) :
    Channel.reads json { incoming := (writer.writes json values).1.outgoing }
        (values.map Prod.snd ++ [last]) =
      (values.map fun p ↦ .value p.1) ++ [.nil] := by
  obtain ⟨hvalues, houtgoing⟩ := Channel.writes_ok hwritten
  rw [houtgoing, hempty, nil_append]
  exact reads_values hvalues hjson hdepth hlast []

end Simmis.Workers.Frames
