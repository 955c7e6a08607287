import Simmis.Library.Runs
import Simmis.Workers.Inference
import Mathlib.Data.List.Range

/-!
# Inference sessions

A broker by itself meets any requests and any answers of its model. Behind a forward provider it
meets the provider's requests, over an exchange that may call it any number of times and hand back
any reply or none.
-/

namespace Simmis.Workers.Inference

open List Option Runs Value Provider

variable (size : Value → ℕ) (model : JavaString)

theorem Broker.call_cases (s : Broker) (v : Value) (answer : Option Value) :
    s.call size model v answer = { broker := { s with closed := true } } ∨
    (s.closed = false ∧ v.get? (kw "sequence") = some (.int (s.sequence + 1 : ℕ)) ∧
      s.bytes + size v ≤ maxSessionBytes ∧
      (s.call size model v answer = { broker := ⟨s.sequence + 1, s.bytes + size v, true⟩
                                      question := some (question model v) } ∨
        ∃ r, answer = some r ∧ s.bytes + size v + size r ≤ maxSessionBytes ∧
          s.call size model v answer =
            { broker := ⟨s.sequence + 1, s.bytes + size v + size r, false⟩
              question := some (question model v)
              reply := some (reply (s.sequence + 1) r) })) := by
  unfold call
  split
  · exact .inl rfl
  · next hopen =>
    simp only [Bool.or_eq_true, Bool.not_eq_true', not_or, Bool.not_eq_true] at hopen
    split
    · next hnext =>
      refine .inr ⟨hopen.1, hnext.1, hnext.2, ?_⟩
      dsimp only
      split
      · exact .inl rfl
      · next r hr =>
        obtain ⟨hanswer, -⟩ := filter_eq_some_iff.mp hr
        split
        · next htotal => exact .inr ⟨r, hanswer, htotal, rfl⟩
        · exact .inl rfl
    · exact .inl rfl

/-- A broker with its requests by number, what it has accepted and replied, and whether a call has
failed. -/
structure Session where
  broker : Broker := {}
  asked : List (ℕ × Question) := []
  accepted : List Value := []
  replies : List Value := []
  failed : Bool := false

def Session.step (h : Session) (call : Value × Option Value) : Session :=
  let result := h.broker.call size model call.1 call.2
  { broker := result.broker
    asked := h.asked ++ result.question.toList.map fun q ↦ (result.broker.sequence, q)
    accepted := h.accepted ++ (if result.question.isSome then [call.1] else []) ++
      (if result.reply.isSome then call.2.toList else [])
    replies := h.replies ++ result.reply.toList
    failed := h.failed || result.reply.isNone }

structure Session.Sound (h : Session) : Prop where
  asked : h.asked.map Prod.fst = List.range' 1 h.broker.sequence
  bytes : (h.accepted.map size).sum = h.broker.bytes
  bounded : h.broker.bytes ≤ maxSessionBytes
  failed : h.failed = true → h.broker.closed = true

variable {size model}

theorem Session.Sound.step {h : Session} (hh : h.Sound size) (call : Value × Option Value) :
    (h.step size model call).Sound size := by
  unfold Session.step
  have hrange : range' 1 (h.broker.sequence + 1) =
      range' 1 h.broker.sequence ++ [h.broker.sequence + 1] := by
    rw [range'_1_concat, Nat.add_comm]
  obtain hclosed | ⟨-, -, hfits, hasked | ⟨r, hr, htotal, hreply⟩⟩ :=
    h.broker.call_cases size model call.1 call.2
  · rw [hclosed]
    exact ⟨by simpa using hh.asked, by simpa using hh.bytes, hh.bounded, fun _ ↦ rfl⟩
  · rw [hasked]
    refine ⟨?_, ?_, hfits, fun _ ↦ rfl⟩
    · simp [hh.asked, hrange]
    · simp [hh.bytes]
  · rw [hreply]
    refine ⟨?_, ?_, htotal, ?_⟩
    · simp [hh.asked, hrange]
    · simp [hr, hh.bytes]
      omega
    · intro hfailed
      simp only [isNone_some, Bool.or_false] at hfailed
      have hclosed := hh.failed hfailed
      unfold Broker.call at hreply
      rw [hclosed, Bool.true_or, if_pos rfl] at hreply
      cases congrArg Answered.reply hreply

/-- A closed broker asks nothing more and answers nothing more. -/
theorem Session.closed_run {h : Session} (hclosed : h.broker.closed)
    (later : List (Value × Option Value)) :
    (run (Session.step size model) h later).asked = h.asked ∧
      (run (Session.step size model) h later).replies = h.replies := by
  let same (g : Session) : Prop :=
    g.broker.closed ∧ g.asked = h.asked ∧ g.replies = h.replies
  have hkeep : same (run (Session.step size model) h later) := by
    refine run_preserves same (fun g call hg ↦ ?_) ⟨hclosed, rfl, rfl⟩ later
    obtain ⟨hclosed, hasked, hreplies⟩ := hg
    have hcall : g.broker.call size model call.1 call.2 =
        { broker := { g.broker with closed := true } } := by
      unfold Broker.call
      rw [hclosed, Bool.true_or, if_pos rfl]
    unfold same Session.step
    rw [hcall]
    simp [hasked, hreplies]
  exact hkeep.2

theorem Session.sound_run (calls : List (Value × Option Value)) :
    (run (Session.step size model) {} calls).Sound size :=
  run_preserves (Session.Sound size) (fun _ call hh ↦ hh.step call)
    ⟨rfl, rfl, Nat.zero_le _, fun hfailed ↦ absurd hfailed Bool.false_ne_true⟩ calls

/-- A reply of the broker and the question that it answers. -/
structure Delivered where
  question : Question
  reply : Value
deriving DecidableEq

/-- A response that `direct-chat` has returned for the request with this number. -/
structure Returned where
  chat : Chat
  sequence : ℕ
  response : Value

/-- `failed` once the broker has refused a call or `direct-chat` has thrown. -/
structure System where
  provider : Provider := {}
  broker : Broker := {}
  delivered : List Delivered := []
  returned : List Returned := []
  failed : Bool := false

/-- One `direct-chat`. The exchange asks the broker once for each of `answers`, then returns or
throws. -/
structure Exchange where
  chat : Chat
  answers : List (Option Value) := []
  reply : Option Value := none

variable (size model)

def System.deliver (request : Value) (h : System) (answer : Option Value) : System :=
  let result := h.broker.call size model request answer
  { h with
    broker := result.broker
    delivered := h.delivered ++
      result.question.toList.flatMap fun q ↦ result.reply.toList.map fun r ↦ ⟨q, r⟩
    failed := h.failed || result.reply.isNone }

def System.conclude (h : System) (e : Exchange) : System :=
  let result := h.provider.conclude size e.chat e.reply
  { h with
    provider := result.1
    returned := h.returned ++ result.2.toList.map fun r ↦ ⟨e.chat, h.provider.sequence + 1, r⟩
    failed := h.failed || result.2.isNone }

/-- The state in which the exchange returns. -/
def System.exchanged (h : System) (e : Exchange) (request : Value) : System :=
  run (System.deliver size model request) h e.answers

def System.step (h : System) (e : Exchange) : System :=
  match h.provider.ask size model e.chat with
  | none => { h with provider := { h.provider with closed := true }, failed := true }
  | some request => (h.exchanged size model e request).conclude size e

/-- An accepted reply was given by the broker, now or before. -/
def Honest (h : System) (e : Exchange) : Prop :=
  ∀ request ∈ h.provider.ask size model e.chat, ∀ v ∈ e.reply,
    (accepted size (h.provider.sequence + 1) v).isSome →
      v ∈ (h.exchanged size model e request).delivered.map Delivered.reply

instance (h : System) (e : Exchange) : Decidable (Honest size model h e) :=
  inferInstanceAs (Decidable (∀ request ∈ h.provider.ask size model e.chat, ∀ v ∈ e.reply,
    (accepted size (h.provider.sequence + 1) v).isSome →
      v ∈ (h.exchanged size model e request).delivered.map Delivered.reply))

/-- The question that the broker asks for this call. -/
def Chat.question (chat : Chat) : Question :=
  ⟨some chat.messages, some (chat.options.assoc (kw "model") (.str model))⟩

structure System.Sound (h : System) : Prop where
  counted : h.broker.sequence ≤ h.provider.sequence
  agree : h.provider.closed = false → h.broker.sequence = h.provider.sequence
  delivered : ∀ d ∈ h.delivered, ∃ n r, n ≤ h.broker.sequence ∧ d.reply = reply n r
  returned : ∀ c ∈ h.returned, ∃ d ∈ h.delivered, d.question = c.chat.question model ∧
    ∃ r, d.reply = reply c.sequence r ∧ c.response = keywordized r
  failed : h.failed = true → h.provider.closed = true ∨ h.broker.closed = true

variable {size model}

theorem question_request (chat : Chat) (n : ℕ) :
    question model (chat.request n) = chat.question model := by
  have hmessages : (chat.request n).get? (kw "messages") = some chat.messages := by
    simp only [Chat.request, ofFields, foldl_cons, foldl_nil]
    rw [get?_insert, if_neg (by decide), get?_insert, if_pos rfl]
  have hoptions : (chat.request n).get? (kw "options") = some chat.options := by
    simp only [Chat.request, ofFields, foldl_cons, foldl_nil]
    rw [get?_insert, if_pos rfl]
  rw [question, hmessages, hoptions]
  rfl

theorem reply_sequence (n : ℕ) (r : Value) : (reply n r).get? (kw "sequence") = some (.int n) := by
  simp only [reply, ofFields, foldl_cons, foldl_nil]
  rw [get?_insert, if_neg (by decide), get?_insert, if_pos rfl]

theorem reply_response (n : ℕ) (r : Value) : (reply n r).get? (kw "response") = some r := by
  simp only [reply, ofFields, foldl_cons, foldl_nil]
  rw [get?_insert, if_pos rfl]

/-- An accepted reply has the request's number and its response. -/
theorem accepted_reply {n m : ℕ} {r r' : Value} (haccepted : accepted size n (reply m r) = some r') :
    m = n ∧ r' = r := by
  unfold accepted at haccepted
  split at haccepted
  · next hfields =>
    obtain ⟨hr, -⟩ := filter_eq_some_iff.mp haccepted
    have hnumber : (m : ℤ) = n := int.inj (some.inj hfields.2.2)
    exact ⟨Int.ofNat.inj hnumber, (some.inj hr).symm⟩
  · cases haccepted

variable {chat : Chat} {request : Value}

theorem Provider.ask_some {p : Provider} (hask : p.ask size model chat = some request) :
    p.closed = false ∧ request = chat.request (p.sequence + 1) := by
  unfold ask at hask
  split at hask
  · cases hask
  · next hopen =>
    obtain ⟨hrequest, -⟩ := filter_eq_some_iff.mp hask
    simp only [Bool.or_eq_true, not_or, Bool.not_eq_true] at hopen
    exact ⟨hopen.1.1, (some.inj hrequest).symm⟩

theorem Provider.conclude_cases (p : Provider) (size : Value → ℕ) (chat : Chat) (v : Option Value) :
    p.conclude size chat v = (⟨p.sequence + 1, true⟩, none) ∨
    ∃ w r, v = some w ∧ accepted size (p.sequence + 1) w = some r ∧
      p.conclude size chat v = (⟨p.sequence + 1, false⟩, some (keywordized r)) := by
  unfold conclude
  dsimp only
  split
  · next r hr =>
    split
    · exact .inl rfl
    · obtain ⟨w, hw, haccepted⟩ := bind_eq_some_iff.mp hr
      exact .inr ⟨w, r, hw, haccepted, rfl⟩
  · exact .inl rfl

/-- What the deliveries of one request do. -/
structure Delivering (size : Value → ℕ) (model : JavaString) (chat : Chat) (h g : System) :
    Prop where
  provider : g.provider = h.provider
  returned : g.returned = h.returned
  counted : g.broker.sequence ≤ h.provider.sequence + 1
  climbs : h.broker.sequence ≤ g.broker.sequence
  delivered : ∀ d ∈ g.delivered, d ∈ h.delivered ∨
    g.broker.sequence = h.provider.sequence + 1 ∧ d.question = chat.question model ∧
      ∃ r, d.reply = reply (h.provider.sequence + 1) r
  kept : h.delivered ⊆ g.delivered
  failed : g.failed = true → h.failed = true ∨ g.broker.closed = true
  closed : h.broker.closed = true → g.broker.closed = true ∧ g.delivered = h.delivered

theorem Delivering.deliver {h g : System} (hg : Delivering size model chat h g)
    (answer : Option Value) : Delivering size model chat h
      (g.deliver size model (chat.request (h.provider.sequence + 1)) answer) := by
  unfold System.deliver
  obtain hclosed | ⟨hopen, hnext, -, hasked⟩ :=
    g.broker.call_cases size model (chat.request (h.provider.sequence + 1)) answer
  · rw [hclosed]
    exact ⟨hg.provider, hg.returned, hg.counted, hg.climbs, by simpa using hg.delivered,
      by simpa using hg.kept, fun _ ↦ .inr rfl,
      fun hbroker ↦ ⟨rfl, by simpa using (hg.closed hbroker).2⟩⟩
  · have hnumber : g.broker.sequence = h.provider.sequence := by
      have hint := int.inj (some.inj hnext)
      omega
    have hfresh : ∀ d ∈ g.delivered, d ∈ h.delivered := by
      intro d hd
      obtain hold | ⟨hnew, -⟩ := hg.delivered d hd
      · exact hold
      · omega
    have hbroker : h.broker.closed ≠ true := by
      intro hbroker
      rw [(hg.closed hbroker).1] at hopen
      cases hopen
    obtain hasked | ⟨r, -, -, hreply⟩ := hasked
    · rw [hasked]
      exact ⟨hg.provider, hg.returned, by simp [hnumber], Nat.le_succ_of_le hg.climbs,
        fun d hd ↦ .inl (hfresh d (by simpa using hd)), by simpa using hg.kept,
        fun _ ↦ .inr rfl, fun h ↦ absurd h hbroker⟩
    · rw [hreply]
      refine ⟨hg.provider, hg.returned, by simp [hnumber], Nat.le_succ_of_le hg.climbs, ?_, ?_, ?_,
        fun h ↦ absurd h hbroker⟩
      · intro d hd
        obtain hold | hnew := mem_append.mp hd
        · exact .inl (hfresh d hold)
        · have hd : d = ⟨chat.question model, reply (h.provider.sequence + 1) r⟩ := by
            simpa [hnumber, question_request] using hnew
          rw [hd]
          exact .inr ⟨by simp [hnumber], rfl, r, rfl⟩
      · exact List.Subset.trans hg.kept (subset_append_left _ _)
      · intro hfailed
        simp only [isNone_some, Bool.or_false] at hfailed
        obtain hold | hclosed := hg.failed hfailed
        · exact .inl hold
        · rw [hclosed] at hopen
          cases hopen

variable {e : Exchange}

theorem System.Sound.exchanged {h : System} (hh : h.Sound model) (hask : h.provider.ask size model e.chat = some request) :
    Delivering size model e.chat h (h.exchanged size model e request) := by
  obtain ⟨-, hrequest⟩ := ask_some hask
  subst hrequest
  refine run_preserves (Delivering size model e.chat h) (fun g answer hg ↦ hg.deliver answer) ?_
    e.answers
  exact ⟨rfl, rfl, Nat.le_succ_of_le hh.counted, le_rfl, fun d hd ↦ .inl hd,
    List.Subset.refl _, fun hfailed ↦ .inl hfailed, fun hclosed ↦ ⟨hclosed, rfl⟩⟩

/-- An honest reply that is accepted was given in this exchange. -/
theorem System.Sound.accepted {h : System} (hh : h.Sound model) (hask : h.provider.ask size model e.chat = some request) (honest : Honest size model h e)
    {v r : Value} (hv : e.reply = some v)
    (haccepted : accepted size (h.provider.sequence + 1) v = some r) :
    (h.exchanged size model e request).broker.sequence = h.provider.sequence + 1 ∧
      ∃ d ∈ (h.exchanged size model e request).delivered, d.question = e.chat.question model ∧
        d.reply = reply (h.provider.sequence + 1) r := by
  have hgiven := hh.exchanged hask
  obtain ⟨d, hd, hdv⟩ := mem_map.mp
    (honest request hask v hv (isSome_of_eq_some haccepted))
  subst hdv
  obtain hold | ⟨hnumber, hquestion, r', hr'⟩ := hgiven.delivered d hd
  · obtain ⟨n, r', hn, hr'⟩ := hh.delivered d hold
    rw [hr'] at haccepted
    obtain ⟨hsame, -⟩ := accepted_reply haccepted
    have hcounted := hh.counted
    omega
  · rw [hr'] at haccepted
    obtain ⟨-, hr⟩ := accepted_reply haccepted
    subst hr
    exact ⟨hnumber, d, hd, hquestion, hr'⟩

theorem Delivering.old {h g : System} (hg : Delivering size model chat h g) (hh : h.Sound model) :
    (∀ d ∈ g.delivered, ∃ n r, n ≤ g.broker.sequence ∧ d.reply = reply n r) ∧
      ∀ c ∈ g.returned, ∃ d ∈ g.delivered, d.question = c.chat.question model ∧
        ∃ r, d.reply = reply c.sequence r ∧ c.response = keywordized r := by
  constructor
  · intro d hd
    obtain hold | ⟨hnumber, -, r, hr⟩ := hg.delivered d hd
    · obtain ⟨n, r, hn, hr⟩ := hh.delivered d hold
      exact ⟨n, r, hn.trans hg.climbs, hr⟩
    · exact ⟨_, r, hnumber.ge, hr⟩
  · intro c hc
    rw [hg.returned] at hc
    obtain ⟨d, hd, hanswers⟩ := hh.returned c hc
    exact ⟨d, hg.kept hd, hanswers⟩

section

variable {h : System} (hh : h.Sound model)
include hh

theorem System.Sound.step (honest : Honest size model h e) : (h.step size model e).Sound model := by
  unfold System.step
  split
  · exact { hh with agree := nofun, failed := fun _ ↦ .inl rfl }
  · next request hask =>
    have hg := hh.exchanged hask
    obtain ⟨hdelivered, hreturned⟩ := hg.old hh
    unfold conclude
    rw [hg.provider]
    obtain hclosed | ⟨v, r, hv, haccepted, hreturns⟩ :=
      h.provider.conclude_cases size e.chat e.reply
    · rw [hclosed]
      exact ⟨hg.counted, nofun, hdelivered, by simpa using hreturned, fun _ ↦ .inl rfl⟩
    · obtain ⟨hnumber, d, hd, hquestion, hr⟩ := hh.accepted hask honest hv haccepted
      rw [hreturns]
      refine ⟨hg.counted, fun _ ↦ hnumber, hdelivered, ?_, ?_⟩
      · intro c hc
        obtain hold | hnew := mem_append.mp hc
        · exact hreturned c hold
        · have hc : c = ⟨e.chat, h.provider.sequence + 1, keywordized r⟩ := by simpa using hnew
          rw [hc]
          exact ⟨d, hd, hquestion, r, hr, rfl⟩
      · intro hfailed
        simp only [isNone_some, Bool.or_false] at hfailed
        obtain hfailed | hclosed := hg.failed hfailed
        · obtain hprovider | hbroker := hh.failed hfailed
          · rw [(ask_some hask).1] at hprovider
            cases hprovider
          · exact .inr (hg.closed hbroker).1
        · exact .inr hclosed

/-- Once an end is closed, no direct chat returns a response. -/
theorem System.closed_step (honest : Honest size model h e)
    (hclosed : h.provider.closed ∨ h.broker.closed) :
    (h.step size model e).returned = h.returned ∧ ((h.step size model e).provider.closed ∨
        (h.step size model e).broker.closed) := by
  unfold step
  split
  · exact ⟨rfl, .inl rfl⟩
  · next request hask =>
    have hg := hh.exchanged hask
    have hbroker : h.broker.closed := by
      obtain hprovider | hbroker := hclosed
      · rw [(ask_some hask).1] at hprovider
        cases hprovider
      · exact hbroker
    unfold conclude
    rw [hg.provider]
    obtain hclosed | ⟨v, r, hv, haccepted, -⟩ :=
      h.provider.conclude_cases size e.chat e.reply
    · rw [hclosed]
      exact ⟨by simpa using hg.returned, .inl rfl⟩
    · obtain ⟨-, d, hd, -, hr⟩ := hh.accepted hask honest hv haccepted
      rw [(hg.closed hbroker).2] at hd
      obtain ⟨n, r', hn, hr'⟩ := hh.delivered d hd
      have hcounted := hh.counted
      have hnumber : n = h.provider.sequence + 1 := by
        have hsame := congrArg (fun v ↦ v.get? (kw "sequence")) (hr.symm.trans hr')
        simp only [reply_sequence, some.injEq, int.injEq] at hsame
        omega
      omega

theorem System.closed_run (hclosed : h.provider.closed ∨ h.broker.closed)
    {later : List Exchange} (honest : Along (step size model) (Honest size model) h later) :
    (run (step size model) h later).returned = h.returned := by
  let same (g : System) : Prop := g.Sound model ∧ g.returned = h.returned ∧
    (g.provider.closed ∨ g.broker.closed)
  have hkeep : same (run (step size model) h later) := by
    refine run_preserves_along (Honest size model) same (fun g e hg honest ↦ ?_)
      ⟨hh, rfl, hclosed⟩ honest
    obtain ⟨hsound, hreturned, hclosed⟩ := hg
    obtain ⟨hsame, hclosed⟩ := closed_step hsound honest hclosed
    exact ⟨hsound.step honest, hsame.trans hreturned, hclosed⟩
  exact hkeep.2.1

end

theorem System.sound_run {events : List Exchange}
    (honest : Along (step size model) (Honest size model) {} events) :
    (run (step size model) {} events).Sound model :=
  run_preserves_along (Honest size model) (System.Sound model)
    (fun _ _ hh honest ↦ hh.step honest)
    ⟨le_rfl, fun _ ↦ rfl, nofun, nofun, fun hfailed ↦ absurd hfailed Bool.false_ne_true⟩ honest

/-- A user says hi. -/
def hi : Chat where
  messages := .vector [.ofFields [(kw "role", .str "user"), (kw "content", .str "hi")]]
  model := .str "m"

def answer (content : String) : Value :=
  .ofFields [(kw "content", .str content), (kw "stop-reason", .str "end-turn")]

/-- The sizes of the JSON of the answers, and of the first request. -/
def hiSize (v : Value) : ℕ := if v = answer "hello" ∨ v = answer "howdy" then 44 else 83

/-- A request is delivered twice: the broker closes, the first reply is returned. -/
def deliveredTwice : Exchange where
  chat := hi
  answers := [some (answer "hello"), some (answer "hello")]
  reply := some (reply 1 (answer "hello"))

end Simmis.Workers.Inference
