import Simmis.Library.Cuts

/-!
# Frames of a local pipe

A worker pipe carries one JSON object a line. What successive reads answer depends on the bytes of
the pipe only: not on where the kernel cuts them, and not on calls that end at their deadline.
-/

namespace Simmis.Workers.Pipe

open List Option Cuts

def maxFrameBytes : ℕ := 4194304 + 262144

def lineFeed : UInt8 := 10

/-- The bytes up to the first line feed, with it, and those behind it. -/
def line? (bytes : List UInt8) : Option (List UInt8 × List UInt8) :=
  (cut lineFeed bytes).map fun split ↦ (split.1 ++ [lineFeed], split.2)

/-- `json.loads` of the text of some bytes, nothing where the decoder or the parser raises, and
whether `type(value) is dict`. -/
structure Json (V : Type) where
  loads : List UInt8 → Option V
  isDict : V → Bool

/-- What a call of `read` finds in the bytes of the pipe: a value, or what it raises. -/
inductive Answer (V : Type)
  | value (v : V)
  | malformed
  | oversized
  | eof
deriving DecidableEq

/-- What ends a call whatever the pipe holds: its deadline, or an exception of `tick`. -/
inductive Interrupt
  | late
  | tick
deriving DecidableEq

inductive Outcome (V : Type)
  | answered (answer : Answer V)
  | interrupted (interrupt : Interrupt)
  | waiting
deriving DecidableEq

/-- What `_ready` and `os.read` do: nothing, or some bytes up to a bound. -/
inductive Poll
  | interrupted (interrupt : Interrupt)
  | nothing
  | bytes (more : ℕ)
deriving DecidableEq

/-- One pass through the loop: what `tick` and the clock do at its top, and the poll. -/
structure Pass where
  entry : Option Interrupt := none
  poll : Poll
deriving DecidableEq

/-- The reader, and the bytes that its pipe will carry until the writer closes it. -/
structure Reader where
  pending : List UInt8
  incoming : List UInt8
deriving DecidableEq

def Reader.stream (s : Reader) : List UInt8 := s.pending ++ s.incoming

/-- The bytes that `os.read` returns: none only at the end of the pipe. -/
def Reader.chunk (s : Reader) (more : ℕ) : List UInt8 :=
  s.incoming.take (min (more + 1) (min 16384 (maxFrameBytes - s.pending.length)))

variable {V : Type} (json : Json V)

/-- What a line is answered with. -/
def answer (encoded : List UInt8) : Answer V :=
  match json.loads encoded with
  | some v => if json.isDict v then .value v else .malformed
  | none => .malformed

/-- `read`, with the passes that are left; it is still waiting if there are none. -/
def read (s : Reader) : List Pass → Outcome V × Reader × List Pass
  | [] => (.waiting, s, [])
  | pass :: passes =>
    match pass.entry, line? s.pending with
    | some interrupt, _ => (.interrupted interrupt, s, passes)
    | none, some (encoded, rest) =>
      (.answered (answer json encoded), { s with pending := rest }, passes)
    | none, none =>
      if maxFrameBytes ≤ s.pending.length then (.answered .oversized, s, passes)
      else match pass.poll with
        | .interrupted interrupt => (.interrupted interrupt, s, passes)
        | .nothing => read s passes
        | .bytes more =>
          if s.chunk more = [] then (.answered .eof, s, passes)
          else read ⟨s.pending ++ s.chunk more, s.incoming.drop (s.chunk more).length⟩ passes

/-- Calls one after the other. One that is still waiting has not returned. -/
def reads : ℕ → Reader → List Pass → List (Outcome V) × Reader
  | 0, s, _ => ([], s)
  | calls + 1, s, passes =>
    match read json s passes with
    | (.waiting, s, _) => ([], s)
    | (outcome, s, passes) =>
      let later := reads calls s passes
      (outcome :: later.1, later.2)

/-- The calls that were not interrupted. -/
def answered (outcomes : List (Outcome V)) : List (Answer V) :=
  outcomes.filterMap fun
    | .answered answer => some answer
    | _ => none

/-- The first line and what is behind it, if the line is no longer than a frame may be. -/
def frame? (stream : List UInt8) : Option (List UInt8 × List UInt8) :=
  (line? stream).filter fun split ↦ split.1.length ≤ maxFrameBytes

/-- The answer at the front of a stream, and the stream behind it. -/
def next (stream : List UInt8) : Answer V × List UInt8 :=
  match frame? stream with
  | some (encoded, rest) => (answer json encoded, rest)
  | none => (if maxFrameBytes ≤ stream.length then .oversized else .eof, stream)

theorem line?_body {body rest : List UInt8} (h : lineFeed ∉ body) :
    line? (body ++ lineFeed :: rest) = some (body ++ [lineFeed], rest) := by
  rw [line?, cut_mark h]
  rfl

theorem line?_eq_some {stream encoded rest : List UInt8} (h : line? stream = some (encoded, rest)) :
    ∃ body, cut lineFeed stream = some (body, rest) ∧ encoded = body ++ [lineFeed] := by
  obtain ⟨⟨body, rest'⟩, hcut, heq⟩ := map_eq_some_iff.mp h
  cases heq
  exact ⟨body, hcut, rfl⟩

theorem line?_append {first second encoded rest : List UInt8}
    (h : line? first = some (encoded, rest)) :
    line? (first ++ second) = some (encoded, rest ++ second) := by
  obtain ⟨body, hcut, rfl⟩ := line?_eq_some h
  rw [line?, cut_append hcut]
  rfl

/-- A line that is complete only behind some bytes goes on behind them. -/
theorem line?_later {first second encoded rest : List UInt8} (h : line? first = none)
    (hline : line? (first ++ second) = some (encoded, rest)) : first.length < encoded.length := by
  obtain ⟨body, hcut, rfl⟩ := line?_eq_some hline
  have hle := cut_later (map_eq_none_iff.mp h) hcut
  rw [length_append, length_singleton]
  omega

theorem line?_eq {stream encoded rest : List UInt8} (h : line? stream = some (encoded, rest)) :
    encoded ++ rest = stream := by
  obtain ⟨body, hcut, rfl⟩ := line?_eq_some h
  rw [(cut_eq_some.mp hcut).2, append_assoc, singleton_append]

variable {json}

theorem Reader.chunk_append (s : Reader) (more : ℕ) :
    s.pending ++ s.chunk more ++ s.incoming.drop (s.chunk more).length = s.stream := by
  have hchunk : s.chunk more ++ s.incoming.drop (s.chunk more).length = s.incoming := by
    rw [chunk, length_take]
    rcases Nat.le_total (min (more + 1) (min 16384 (maxFrameBytes - s.pending.length)))
      s.incoming.length with h | h
    · rw [Nat.min_eq_left h, take_append_drop]
    · rw [Nat.min_eq_right h, take_of_length_le h, drop_length, append_nil]
  rw [append_assoc, hchunk, stream]

theorem Reader.length_chunk_le (s : Reader) (more : ℕ) :
    (s.chunk more).length ≤ maxFrameBytes - s.pending.length := by
  rw [chunk, length_take]
  omega

theorem Reader.chunk_eq_nil {s : Reader} {more : ℕ} (hroom : s.pending.length < maxFrameBytes)
    (h : s.chunk more = []) : s.incoming = [] := by
  rw [chunk, take_eq_nil_iff] at h
  rcases h with h | h
  · omega
  · exact h

theorem frame?_pending {s : Reader} {encoded rest : List UInt8}
    (hbound : s.pending.length ≤ maxFrameBytes) (h : line? s.pending = some (encoded, rest)) :
    frame? s.stream = some (encoded, rest ++ s.incoming) := by
  have hlength := congrArg length (line?_eq h)
  rw [length_append] at hlength
  rw [frame?, Reader.stream, line?_append h]
  exact filter_some_pos (by simp; omega)

theorem frame?_full {s : Reader} (hnone : line? s.pending = none)
    (hfull : maxFrameBytes ≤ s.pending.length) : frame? s.stream = none := by
  rw [frame?, filter_eq_none_iff]
  rintro ⟨encoded, rest⟩ hline
  have := line?_later hnone hline
  simp only [decide_eq_true_eq]
  omega

/-- An answered call takes its answer from the front of the stream, any other leaves the stream. -/
theorem read_stream {s : Reader} {passes rest : List Pass} {outcome : Outcome V} {s' : Reader}
    (hbound : s.pending.length ≤ maxFrameBytes) (h : read json s passes = (outcome, s', rest)) :
    s'.pending.length ≤ maxFrameBytes ∧
      (∀ answer, outcome = .answered answer → next json s.stream = (answer, s'.stream)) ∧
      ((∀ answer, outcome ≠ .answered answer) → s'.stream = s.stream) := by
  induction passes generalizing s with
  | nil =>
    cases h
    simp [hbound]
  | cons pass passes ih =>
    unfold read at h
    split at h
    · cases h
      simp [hbound]
    · next encoded later _ hline =>
      cases h
      have hlength := congrArg length (line?_eq hline)
      rw [length_append] at hlength
      refine ⟨by simp only; omega, ?_, by simp⟩
      rintro _ ⟨⟩
      rw [next, frame?_pending hbound hline]
      rfl
    · next hline =>
      split at h
      · next hfull =>
        cases h
        refine ⟨hbound, ?_, by simp⟩
        have hlong : maxFrameBytes ≤ s'.stream.length := by
          rw [Reader.stream, length_append]
          omega
        simp [next, frame?_full hline hfull, hlong]
      · next hroom =>
        split at h
        · cases h
          simp [hbound]
        · exact ih hbound h
        · next more _ =>
          split at h
          · next hchunk =>
            cases h
            have hempty := Reader.chunk_eq_nil (by omega) hchunk
            have hstream : s'.stream = s'.pending := by rw [Reader.stream, hempty, append_nil]
            have hnone : frame? s'.stream = none := by
              rw [frame?, hstream, hline]
              rfl
            refine ⟨hbound, ?_, by simp⟩
            rw [next, hnone]
            simp [hstream, hroom]
          · have hchunk := s.chunk_append more
            have hle := s.length_chunk_le more
            have hnext := ih (by simp only [length_append]; omega) h
            rw [Reader.stream, hchunk] at hnext
            exact hnext

/-- No deadline passes and no exception ends the call. -/
def Pass.isQuiet (pass : Pass) : Bool :=
  pass.entry.isNone && match pass.poll with
    | .interrupted _ => false
    | _ => true

def Pass.delivers (pass : Pass) : Bool :=
  match pass.poll with
  | .bytes _ => true
  | _ => false

/-- A call returns within as many deliveries as there are bytes and an end. -/
theorem read_returns {s : Reader} {passes : List Pass} (hquiet : ∀ p ∈ passes, p.isQuiet)
    (hlong : s.incoming.length < passes.countP Pass.delivers) :
    ∃ answer s' rest, read json s passes = (.answered answer, s', rest) ∧ (∀ p ∈ rest, p.isQuiet) ∧
      passes.countP Pass.delivers + s'.incoming.length ≤
        rest.countP Pass.delivers + s.incoming.length + 1 := by
  induction passes generalizing s with
  | nil => simp at hlong
  | cons pass passes ih =>
    obtain ⟨hpass, hquiet⟩ := forall_mem_cons.mp hquiet
    simp only [Pass.isQuiet, Bool.and_eq_true, isNone_iff_eq_none] at hpass
    obtain ⟨hentry, hpoll⟩ := hpass
    have hcount : (pass :: passes).countP Pass.delivers ≤ passes.countP Pass.delivers + 1 := by
      rw [countP_cons]
      split <;> omega
    unfold read
    rw [hentry]
    cases hline : line? s.pending with
    | some split => exact ⟨_, _, _, rfl, hquiet, by simp only; omega⟩
    | none =>
      by_cases hfull : maxFrameBytes ≤ s.pending.length
      · rw [if_pos hfull]
        exact ⟨_, _, _, rfl, hquiet, by omega⟩
      rw [if_neg hfull]
      cases hcase : pass.poll with
      | interrupted interrupt => simp [hcase] at hpoll
      | nothing =>
        have hsame : (pass :: passes).countP Pass.delivers = passes.countP Pass.delivers := by
          simp [Pass.delivers, hcase]
        rw [hsame] at hlong ⊢
        exact ih hquiet hlong
      | bytes more =>
        dsimp only
        by_cases hchunk : s.chunk more = []
        · rw [if_pos hchunk]
          exact ⟨_, _, _, rfl, hquiet, by omega⟩
        · rw [if_neg hchunk]
          have hpos := length_pos_iff.mpr hchunk
          have hlength := congrArg length (s.chunk_append more)
          simp only [Reader.stream, length_append, length_drop] at hlength
          obtain ⟨answer, s', rest, hread, hrest, hle⟩ :=
            @ih ⟨s.pending ++ s.chunk more, s.incoming.drop (s.chunk more).length⟩ hquiet
              (by simp only [length_drop]; omega)
          refine ⟨answer, s', rest, hread, hrest, ?_⟩
          simp only [length_drop] at hle
          omega

variable (json) in
/-- The answers at the front of a stream, and the stream behind them. -/
def answers : ℕ → List UInt8 → List (Answer V) × List UInt8
  | 0, stream => ([], stream)
  | count + 1, stream =>
    let first := next json stream
    let later := answers count first.2
    (first.1 :: later.1, later.2)

/-- The calls that are answered have the answers at the front of the stream. -/
theorem reads_answers {calls : ℕ} {s : Reader} {passes : List Pass}
    (hbound : s.pending.length ≤ maxFrameBytes) :
    (answered (reads json calls s passes).1, (reads json calls s passes).2.stream) =
      answers json (answered (reads json calls s passes).1).length s.stream := by
  induction calls generalizing s passes with
  | zero => rfl
  | succ calls ih =>
    unfold reads
    split
    · next s' rest hread =>
      obtain ⟨-, -, hstream⟩ := read_stream hbound hread
      simp [answered, answers, hstream]
    · next outcome s' rest hwaiting hread =>
      obtain ⟨hbound', hanswer, hstream⟩ := read_stream hbound hread
      have hlater := @ih s' rest hbound'
      cases outcome with
      | answered a =>
        have hnext := hanswer a rfl
        rw [Prod.ext_iff] at hlater
        simp only [answered, filterMap_cons, length_cons, answers, hnext]
        exact Prod.ext (congrArg (a :: ·) hlater.1) hlater.2
      | interrupted interrupt =>
        rw [hstream (by simp)] at hlater
        simpa [answered] using hlater
      | waiting => simp at hwaiting

/-- Enough deliveries answer all calls. -/
theorem reads_returns {calls : ℕ} {s : Reader} {passes : List Pass}
    (hquiet : ∀ p ∈ passes, p.isQuiet)
    (hlong : s.incoming.length + calls ≤ passes.countP Pass.delivers) :
    (answered (reads json calls s passes).1).length = calls := by
  induction calls generalizing s passes with
  | zero => rfl
  | succ calls ih =>
    obtain ⟨answer, s', rest, hread, hrest, hle⟩ := @read_returns V json s passes hquiet (by omega)
    unfold reads
    rw [hread]
    simpa [answered] using @ih s' rest hrest (by omega)

/-- A line that ends with its line feed and is no longer than a frame may be. -/
structure Frame where
  body : List UInt8
  line : lineFeed ∉ body
  fits : body.length < maxFrameBytes

def Frame.bytes (f : Frame) : List UInt8 := f.body ++ [lineFeed]

def Frame.join (frames : List Frame) : List UInt8 := frames.flatMap Frame.bytes

theorem Frame.join_cons (f : Frame) (frames : List Frame) :
    join (f :: frames) = f.bytes ++ join frames := rfl

/-- What is behind the last frame: a line too long or without an end. -/
structure Tail where
  bytes : List UInt8
  open_ : frame? bytes = none

/-- What a call raises at the front of a tail. -/
def Tail.answer (tail : Tail) : Answer V :=
  if maxFrameBytes ≤ tail.bytes.length then .oversized else .eof

theorem frame?_bytes (f : Frame) (rest : List UInt8) :
    frame? (f.bytes ++ rest) = some (f.bytes, rest) := by
  have hline : line? (f.bytes ++ rest) = some (f.bytes, rest) := by
    simpa [Frame.bytes] using @line?_body f.body rest f.line
  have hfits : f.bytes.length ≤ maxFrameBytes := by
    simpa [Frame.bytes, Nat.succ_le_iff] using f.fits
  rw [frame?, hline]
  exact filter_some_pos (by simpa using hfits)

theorem answers_tail (tail : Tail) (count : ℕ) :
    answers json count tail.bytes = (List.replicate count tail.answer, tail.bytes) := by
  have hnext : next json tail.bytes = (tail.answer, tail.bytes) := by
    rw [next, tail.open_]
    rfl
  induction count with
  | zero => rfl
  | succ count ih => simp [answers, hnext, ih, replicate_succ]

theorem answers_frames (frames : List Frame) (tail : Tail) (count : ℕ) :
    answers json count (Frame.join frames ++ tail.bytes) =
      ((frames.take count).map (answer json ∘ Frame.bytes) ++
          List.replicate (count - frames.length) tail.answer,
        Frame.join (frames.drop count) ++ tail.bytes) := by
  induction frames generalizing count with
  | nil => simpa [Frame.join] using answers_tail tail count
  | cons f frames ih =>
    cases count with
    | zero => simp [answers]
    | succ count =>
      have hnext : next json (Frame.join (f :: frames) ++ tail.bytes) =
          (answer json f.bytes, Frame.join frames ++ tail.bytes) := by
        rw [Frame.join_cons, append_assoc, next, frame?_bytes]
      simp [answers, hnext, ih]

/-- Whatever cuts the kernel makes, the answers of successive calls are those of the frames in order
and then what the tail raises. -/
theorem reads_frames (frames : List Frame) (tail : Tail) (calls : ℕ) (passes : List Pass) :
    let result := reads json calls ⟨[], Frame.join frames ++ tail.bytes⟩ passes
    let count := (answered result.1).length
    answered result.1 = (frames.take count).map (answer json ∘ Frame.bytes) ++
        List.replicate (count - frames.length) tail.answer ∧
      result.2.stream = Frame.join (frames.drop count) ++ tail.bytes ∧
      ((∀ p ∈ passes, p.isQuiet) →
        (Frame.join frames ++ tail.bytes).length + calls ≤ passes.countP Pass.delivers →
          count = calls) := by
  have hanswers := @reads_answers V json calls ⟨[], Frame.join frames ++ tail.bytes⟩ passes
    (Nat.zero_le _)
  have hstream : (⟨[], Frame.join frames ++ tail.bytes⟩ : Reader).stream =
      Frame.join frames ++ tail.bytes := rfl
  rw [hstream, answers_frames] at hanswers
  obtain ⟨hfirst, hsecond⟩ := Prod.ext_iff.mp hanswers
  exact ⟨hfirst, hsecond, fun hquiet hlong ↦ reads_returns hquiet hlong⟩

/-- A parser that knows one object. -/
def braces : Json Unit where
  loads bytes := if bytes = [123, 125] ∨ bytes = [123, 125, 10] then some () else none
  isDict _ := true

/-- Four bytes of length in front of an object are no frame. -/
theorem prefixed_not_read :
    (reads braces 1 ⟨[], [0, 0, 0, 2, 123, 125]⟩ [⟨none, .bytes 1⟩, ⟨none, .bytes 9⟩,
      ⟨none, .bytes 0⟩]).1 = [.answered .eof] := by
  decide

example : (reads braces 3 ⟨[], [123, 125, 10, 123, 125, 10, 123]⟩ [⟨none, .bytes 0⟩,
    ⟨none, .nothing⟩, ⟨none, .bytes 3⟩, ⟨none, .nothing⟩, ⟨none, .bytes 9⟩, ⟨none, .bytes 0⟩,
    ⟨none, .nothing⟩, ⟨none, .bytes 0⟩]).1 =
    [.answered (.value ()), .answered (.value ()), .answered .eof] := by
  decide

end Simmis.Workers.Pipe
