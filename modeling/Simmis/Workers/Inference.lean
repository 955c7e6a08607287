import Simmis.Workers.Values

/-!
# The inference boundary of a worker

What a worker may ask of the local model and what it may get back. The broker owns the model, a
worker uses the forward provider in its place. Both count the requests, and close themselves before
a call until its answer is validated.
-/

namespace Simmis.Workers.Inference

def maxCalls : ℕ := 32
def maxFrameBytes : ℕ := 1048576
def maxSessionBytes : ℕ := 16777216
def maxDepth : ℕ := 32
def maxNodes : ℕ := 50000

/-- `remaining` and `bytes` of `data!`. -/
structure Budget where
  nodes : ℕ := maxNodes
  bytes : ℕ := maxFrameBytes

def Budget.charge (b : Budget) (size : ℕ) : Option Budget :=
  if size ≤ b.bytes then some { b with bytes := b.bytes - size } else none

def Budget.visit (b : Budget) (depth : ℕ) : Option Budget :=
  if depth ≤ maxDepth ∧ 0 < b.nodes then some { b with nodes := b.nodes - 1 } else none

def text (s : JavaString) : Bool := s.count ≤ maxFrameBytes

/-- Between `Long/MIN_VALUE` and `Long/MAX_VALUE`. -/
def isLong (n : ℤ) : Bool := -2 ^ 63 ≤ n ∧ n < 2 ^ 63

def visitString (s : JavaString) (b : Budget) : Option Budget :=
  if text s then b.charge (2 + 6 * s.count) else none

def visitKeyword (namespace_ : Option JavaString) (name : JavaString) (b : Budget) :
    Option Budget :=
  b.charge (8 + 6 * (name.count + (namespace_.map JavaString.count).getD 0))

def visitKey (k : Key) (depth : ℕ) (b : Budget) : Option Budget := do
  let b ← b.visit depth
  match k with
  | .string s => visitString s b
  | .keyword namespace_ name => visitKeyword namespace_ name b

mutual

def visit (v : Value) (depth : ℕ) (b : Budget) : Option Budget := do
  let b ← b.visit depth
  match v with
  | .nil | .bool _ => b.charge 5
  | .str s => visitString s b
  | .keyword namespace_ name => visitKeyword namespace_ name b
  | .int n => if isLong n then b.charge 32 else none
  | .double d => if d.isFinite then b.charge 32 else none
  | .vector items => do
    let b ← b.charge (2 + items.length)
    visitItems items (depth + 1) b
  | .map entries => do
    let b ← b.charge (2 + 2 * entries.length)
    visitEntries entries (depth + 1) [] b
  | .other _ => none

def visitItems (items : List Value) (depth : ℕ) (b : Budget) : Option Budget :=
  match items with
  | [] => some b
  | item :: items => do
    let b ← visit item depth b
    visitItems items depth b

/-- `seen` are the wire names of the entries so far. -/
def visitEntries (entries : List (Key × Value)) (depth : ℕ) (seen : List JavaString) (b : Budget) :
    Option Budget :=
  match entries with
  | [] => some b
  | (k, item) :: entries => do
    let b ← visitKey k depth b
    if k.wire ∈ seen then none
    else do
      let b ← visit item depth b
      visitEntries entries depth (k.wire :: seen) b

end

variable (v : Value)

/-- `data!` -/
def data : Bool := (visit v 0 {}).isSome

/-- `encoded-size!`, where `size` are the bytes that the JSON library writes. -/
def encoded (size : Value → ℕ) (v : Value) : Bool := data v && size v ≤ maxFrameBytes

def kw (name : String) : Key := .named name

/-- `text!` -/
def isText : Option Value → Bool
  | some (.str s) => text s
  | _ => false

def isVector (v : Option Value) (p : List Value → Bool) : Bool :=
  match v with
  | some (.vector items) => p items
  | _ => false

def isInt (v : Option Value) (p : ℤ → Bool) : Bool :=
  match v with
  | some (.int n) => p n
  | _ => false

/-- One of the given strings. -/
def oneOf (names : List String) (v : Option Value) : Bool :=
  names.any fun name ↦ v = some (.str name)

def isRole : Option Value → Bool := oneOf ["system", "developer", "user", "assistant"]

def part : Bool :=
  v.closed [kw "type", kw "text"] && oneOf ["input_text", "output_text"] (v.get? (kw "type")) &&
    isText (v.get? (kw "text"))

/-- `message!` -/
def message (m : Value) : Bool :=
  let type := m.get? (kw "type")
  if Value.truthy type then
    if oneOf ["function_call"] type then
      m.closed [kw "type", kw "call_id", kw "name", kw "arguments"] &&
        ["call_id", "name", "arguments"].all fun k ↦ isText (m.get? (kw k))
    else if oneOf ["function_call_output"] type then
      m.closed [kw "type", kw "call_id", kw "output"] &&
        ["call_id", "output"].all fun k ↦ isText (m.get? (kw k))
    else
      oneOf ["message"] type && m.closed [kw "type", kw "role", kw "content"] &&
        isRole (m.get? (kw "role")) &&
        isVector (m.get? (kw "content")) fun parts ↦ parts.all part
  else
    m.closed [kw "role", kw "content"] && isRole (m.get? (kw "role")) &&
      isText (m.get? (kw "content"))

/-- The value under `k`, if there is one, satisfies `p`. -/
def optional (k : String) (p : Value → Bool) : Bool := (v.get? (kw k)).all p

def tool : Bool :=
  (v.get? (kw "name")).isSome &&
    v.allKeys (· ∈ [kw "name", kw "description", kw "parameters", kw "input_schema"]) &&
    isText (v.get? (kw "name")) &&
    optional v "description" (fun d ↦ isText (some d)) &&
    optional v "parameters" Value.isMap &&
    optional v "input_schema" fun schema ↦ schema.isMap && v.get? (kw "parameters") = some schema

def options : Bool :=
  v.allKeys (· ∈ [kw "system", kw "tools"]) &&
    optional v "system" (fun s ↦ isText (some s)) &&
    optional v "tools" fun tools ↦ isVector (some tools) fun tools ↦
      tools.length ≤ 64 && tools.all tool

/-- `request!` -/
def request (size : Value → ℕ) (v : Value) : Bool :=
  encoded size v && v.closed [kw "version", kw "sequence", kw "messages", kw "options"] &&
    v.get? (kw "version") = some (.int 1) &&
    isInt (v.get? (kw "sequence")) (fun n ↦ 1 ≤ n ∧ n ≤ maxCalls) &&
    isVector (v.get? (kw "messages")) (fun messages ↦
      1 ≤ messages.length && messages.length ≤ 512 && messages.all message) &&
    (v.get? (kw "options")).any options

def toolCall : Bool :=
  v.closed [kw "id", kw "name", kw "input"] && isText (v.get? (kw "id")) &&
    isText (v.get? (kw "name")) && (v.get? (kw "input")).any Value.isMap

def usage : Bool :=
  match v with
  | .map entries => entries.all fun entry ↦
    entry.1 ∈ [kw "input-tokens", kw "output-tokens", kw "cache-read-tokens",
      kw "cache-write-tokens", kw "reasoning-output-tokens"] &&
    isInt (some entry.2) fun n ↦ 0 ≤ n ∧ isLong n
  | _ => false

/-- The value under `k` satisfies `p`, unless it is `nil` or `false`. -/
def whenLet (k : String) (p : Value → Bool) : Bool :=
  !Value.truthy (v.get? (kw k)) || (v.get? (kw k)).any p

def isStopReason (v : Option Value) : Bool :=
  oneOf ["end-turn", "tool-use", "max-tokens"] v ||
    ["end-turn", "tool-use", "max-tokens"].any fun name ↦ v = some (.keyword none name)

/-- `response!` -/
def response (size : Value → ℕ) (v : Value) : Bool :=
  encoded size v && (v.get? (kw "content")).isSome &&
    v.allKeys (· ∈ [kw "content", kw "reasoning", kw "tool-calls", kw "usage", kw "stop-reason",
      kw "model", kw "id"]) &&
    isText (v.get? (kw "content")) &&
    (["reasoning", "model", "id"].all fun k ↦ whenLet v k fun x ↦ isText (some x)) &&
    isStopReason (v.get? (kw "stop-reason")) &&
    whenLet v "tool-calls" (fun calls ↦ isVector (some calls) fun calls ↦
      calls.length ≤ 64 && calls.all toolCall) &&
    whenLet v "usage" usage

structure Broker where
  sequence : ℕ := 0
  bytes : ℕ := 0
  closed : Bool := false
deriving DecidableEq

/-- What `infer!` is asked. -/
structure Question where
  messages : Option Value
  options : Option Value
deriving DecidableEq

structure Answered where
  broker : Broker
  question : Option Question := none
  reply : Option Value := none

section Ends

variable (size : Value → ℕ) (model : JavaString)

def question (request : Value) : Question where
  messages := request.get? (kw "messages")
  options := (request.get? (kw "options")).map fun options ↦ options.assoc (kw "model") (.str model)

def reply (sequence : ℕ) (response : Value) : Value :=
  .ofFields [(kw "version", .int 1), (kw "sequence", .int sequence), (kw "response", response)]

/-- One call of the broker, with what `infer!` would return, if not throw. -/
def Broker.call (s : Broker) (v : Value) (answer : Option Value) : Answered :=
  if s.closed || !request size v then { broker := { s with closed := true } }
  else if v.get? (kw "sequence") = some (.int (s.sequence + 1 : ℕ)) ∧
      s.bytes + size v ≤ maxSessionBytes then
    let reserved : Broker := ⟨s.sequence + 1, s.bytes + size v, true⟩
    match answer.filter (response size) with
    | none => { broker := reserved, question := some (question model v) }
    | some r =>
      let total := reserved.bytes + size r
      if total ≤ maxSessionBytes then
        { broker := { reserved with bytes := total, closed := false }
          question := some (question model v)
          reply := some (reply reserved.sequence r) }
      else { broker := reserved, question := some (question model v) }
  else { broker := { s with closed := true } }

structure Provider where
  sequence : ℕ := 0
  closed : Bool := false
deriving DecidableEq

/-- The arguments of `direct-chat`: whether `:cancel?` stops it, and whether `:on-text` throws. -/
structure Chat where
  messages : Value
  model : Value
  system : Option Value := none
  tools : Option Value := none
  cancelBefore : Bool := false
  cancelAfter : Bool := false
  onTextThrows : Bool := false

/-- `(select-keys opts [:system :tools])` -/
def Chat.options (chat : Chat) : Value :=
  .ofFields ((chat.system.map fun s ↦ (kw "system", s)).toList ++
    (chat.tools.map fun t ↦ (kw "tools", t)).toList)

def Chat.request (chat : Chat) (sequence : ℕ) : Value :=
  .ofFields [(kw "version", .int 1), (kw "sequence", .int sequence), (kw "messages", chat.messages),
    (kw "options", chat.options)]

/-- The request of a call, if it is allowed to ask. -/
def Provider.ask (p : Provider) (chat : Chat) : Option Value :=
  if p.closed || chat.model ≠ .str model || chat.cancelBefore then none
  else some (chat.request (p.sequence + 1)) |>.filter (request size)

/-- `(update response :stop-reason keyword)` -/
def keywordized (response : Value) : Value :=
  match response.get? (kw "stop-reason") with
  | some (.str s) => response.assoc (kw "stop-reason") (.keyword none s)
  | _ => response

/-- The response in a reply to the request with this number. -/
def accepted (sequence : ℕ) (v : Value) : Option Value :=
  if v.closed [kw "version", kw "sequence", kw "response"] ∧
      v.get? (kw "version") = some (.int 1) ∧ v.get? (kw "sequence") = some (.int sequence) then
    (v.get? (kw "response")).filter (response size)
  else none

/-- The end of a call to which `exchange!` has returned a reply, or thrown. -/
def Provider.conclude (p : Provider) (chat : Chat) (reply : Option Value) :
    Provider × Option Value :=
  let sequence := p.sequence + 1
  match reply.bind (accepted size sequence) with
  | some r =>
    if chat.cancelAfter || chat.onTextThrows then (⟨sequence, true⟩, none)
    else (⟨sequence, false⟩, some (keywordized r))
  | none => (⟨sequence, true⟩, none)

end Ends

end Simmis.Workers.Inference
