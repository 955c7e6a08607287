import Simmis.Library.Json
import Simmis.Library.Runs
import Simmis.Library.Text

/-!
# Call transcripts

The call transcriber writes one file for each finished conference, and a watcher posts the file into
its room. A file is posted once: the first event that does not find incomplete JSON settles it,
whatever it finds.
-/

namespace Simmis.Chat.Transcripts

open List Option

structure Room (P : Type) where
  name : Option String
  createdBy : P

/-- What is asked of the libraries and of the host. `readValue` may throw. -/
structure Host (U P : Type) where
  readValue : String → Option Json
  str : Json → String
  upperCase : String → String
  lowerCase : String → String
  parseUuid : String → Option U
  room : U → Option (Room P)
  live : U → Bool

structure File where
  name : String
  content : String
  lastModified : ℤ

structure Post (U P : Type) where
  room : U
  author : P
  body : String
  title : String
  source : String
  at_ : ℤ
deriving DecidableEq

inductive Skip where
  | unmapped | roomNotFound | empty
deriving DecidableEq

/-- How one reading of a file ends. -/
inductive Reading (U P : Type) where
  | posted (post : Post U P)
  | skipped (why : Skip)
  | incomplete
  | failed
deriving DecidableEq

structure Line where
  name : String
  text : String

structure Transcript where
  roomName : String
  text : Option String := none
  lines : List Line := []

/-- `str/trim` -/
def trim (s : String) : String :=
  .ofList ((s.toList.dropWhile Text.isWhitespace).reverse.dropWhile Text.isWhitespace).reverse

def isHexDigit (c : Char) : Bool := Text.isHex c || ('A' ≤ c && c ≤ 'F')

/-- `uuid-re` at the start of a text. -/
def startsUuid (s : List Char) : Bool :=
  (s.take 36).length = 36 && (s.take 36).zipIdx.all fun c ↦
    if c.2 ∈ [8, 13, 18, 23] then c.1 = '-' else isHexDigit c.1

/-- `(re-find uuid-re s)` -/
def findUuid (s : String) : Option String :=
  (s.toList.tails.find? startsUuid).map fun rest ↦ .ofList (rest.take 36)

/-- `parse-txt-transcript` -/
def parseTxtTranscript (path content : String) : Option Transcript :=
  (findUuid path <|> findUuid content).map fun room ↦ ⟨room, some (trim content), []⟩

section Program

variable {U P : Type} (host : Host U P)

/-- `(or a b)`: what is neither missing, null nor false. -/
def truthy (value : Option Json) : Option Json :=
  match value with
  | none | some .null | some (.bool false) => none
  | some value => some value

def field (value : Json) (name : String) : Option Json := truthy (value.get? name)

/-- The items that a sequence function goes over. Numbers and booleans are no sequence. -/
def items : Option Json → Option (List Json)
  | none | some .null | some (.obj _) | some (.str _) => some []
  | some (.arr items) => some items
  | some (.bool _) | some (.int _) | some (.float _) => none

def isSpeech (ev : Json) : Bool :=
  host.upperCase (((field ev "event" <|> field ev "type").map host.str).getD "") = "SPEECH"

/-- The utterance of an event, or none; fails where its transcript is no sequence. -/
def lineOf (ev : Json) : Option (Option Line) := do
  let spoken ← items (ev.get? "transcript")
  let said := truthy ((spoken.filterMap fun part ↦ part.get? "text").find? (· ≠ .null))
  let text := ((said <|> ev.get? "text").map host.str).getD ""
  let name := (((ev.get? "participant").bind (field · "name") <|> field ev "name").map host.str).getD
    "unknown"
  return if text = "" then none else some ⟨name, trim text⟩

/-- `parse-json-transcript` behind the reader; none where it throws. -/
def transcriptOf (m : Json) : Option (Option Transcript) := do
  let events ← items (field m "events")
  let lines ← (events.filter (isSpeech host)).mapM (lineOf host)
  return (field m "room_name" <|> field m "roomName" <|> field m "room").map fun room ↦
    ⟨host.str room, none, lines.reduceOption⟩

/-- `transcript-body` -/
def transcriptBody (t : Transcript) : Option String :=
  t.text <|> if t.lines = [] then none
    else some ("\n".intercalate (t.lines.map fun line ↦ "**" ++ line.name ++ "**: " ++ line.text))

/-- `ingest-file!` of a transcript that was parsed. -/
def ingestTranscript (file : File) (t : Option Transcript) : Reading U P :=
  match t.bind fun t ↦ host.parseUuid (host.lowerCase t.roomName) with
  | none => .skipped .unmapped
  | some uuid => match host.room uuid with
    | none => .skipped .roomNotFound
    | some room =>
      let body := (t.bind transcriptBody).getD ""
      if Text.isBlank body then .skipped .empty
      else if host.live uuid then
        .posted ⟨uuid, room.createdBy, body, room.name.getD "Call" ++ " call", "jigasi " ++ file.name,
          file.lastModified⟩
      else .failed

def isJson (path : String) : Bool := ".json".toList <:+ path.toList

/-- `ingest-file!` -/
def ingestFile (path : String) (file : File) : Reading U P :=
  if isJson path then match host.readValue file.content with
    | none => .incomplete
    | some m => match transcriptOf host m with
      | none => .failed
      | some t => ingestTranscript host file t
  else ingestTranscript host file (parseTxtTranscript path file.content)

/-- `transcript-file?` -/
def isTranscriptFile (file : File) : Bool :=
  ".json".toList <:+ file.name.toList || ".txt".toList <:+ file.name.toList

/-- The files by path, the paths that were settled and what was posted. -/
structure World (U P : Type) where
  files : String → Option File
  posted : List String := []
  posts : List (String × Post U P) := []

/-- A write of any file, and a create or modify event that is delivered. -/
inductive Event where
  | write (path : String) (file : File)
  | event (path : String)

variable (w : World U P)

/-- What an event of a path reads, where it reads anything. -/
def World.read (path : String) : Option (Reading U P) :=
  ((w.files path).filter isTranscriptFile).map (ingestFile host path)

/-- `handle-event!` -/
def handleEvent (path : String) : World U P :=
  if path ∈ w.posted then w
  else match w.read host path with
    | none | some .incomplete => w
    | some (.posted post) =>
      { w with posted := path :: w.posted, posts := w.posts ++ [(path, post)] }
    | some _ => { w with posted := path :: w.posted }

def step : Event → World U P
  | .write path file => { w with files := fun p ↦ if p = path then some file else w.files p }
  | .event path => handleEvent host w path

/-- At the start every transcript file that is there counts as posted. -/
def World.Started : Prop :=
  w.posts = [] ∧ ∀ path, path ∈ w.posted ↔ ∃ file ∈ w.files path, isTranscriptFile file

/-- What the events of a path read, oldest first. -/
def readings (w : World U P) (path : String) : List Event → List (Reading U P)
  | [] => []
  | .write p file :: events => readings (step host w (.write p file)) path events
  | .event p :: events =>
    (if p = path then (w.read host path).toList else []) ++
      readings (step host w (.event p)) path events

/-- What was posted for a path. -/
def World.postsOf (path : String) : List (Post U P) :=
  (w.posts.filter fun post ↦ post.1 = path).map Prod.snd

end Program

def Reading.post? {U P : Type} : Reading U P → Option (Post U P)
  | .posted post => some post
  | _ => none

def Reading.settles {U P : Type} : Reading U P → Bool
  | .incomplete => false
  | _ => true

variable {U P : Type} {host : Host U P} {w : World U P} {path : String}

/-- A settled path stays settled and gets no further post. -/
theorem step_settled (h : path ∈ w.posted) (e : Event) :
    path ∈ (step host w e).posted ∧ (step host w e).postsOf path = w.postsOf path := by
  cases e with
  | write p file => exact ⟨h, rfl⟩
  | event p =>
    simp only [step, handleEvent]
    split
    · exact ⟨h, rfl⟩
    · next hp =>
      have hne : p ≠ path := fun heq ↦ hp (heq ▸ h)
      split <;> simp [h, World.postsOf, hne]

theorem run_settled (h : path ∈ w.posted) (events : List Event) :
    (Runs.run (step host) w events).postsOf path = w.postsOf path := by
  induction events generalizing w with
  | nil => rfl
  | cons e events ih => rw [Runs.run_cons, ih (step_settled h e).1, (step_settled h e).2]

/-- An event of another path changes nothing about this one. -/
theorem step_other {p : String} (hne : p ≠ path) :
    (path ∈ (step host w (.event p)).posted ↔ path ∈ w.posted) ∧
      (step host w (.event p)).postsOf path = w.postsOf path := by
  simp only [step, handleEvent]
  split
  · exact ⟨Iff.rfl, rfl⟩
  · split <;> simp [World.postsOf, hne, hne.symm]

/-- The first reading that settles the path decides what is posted for it. -/
theorem run_postsOf (h : path ∉ w.posted) (events : List Event) :
    (Runs.run (step host) w events).postsOf path =
      w.postsOf path ++ (((readings host w path events).find? Reading.settles).bind
        Reading.post?).toList := by
  induction events generalizing w with
  | nil => simp [readings]
  | cons e events ih =>
    rw [Runs.run_cons]
    cases e with
    | write p file => exact ih h
    | event p =>
      rw [readings]
      by_cases hp : p = path
      · subst hp
        have hevent : step host w (.event p) = handleEvent host w p := rfl
        rw [if_pos rfl, hevent, handleEvent, if_neg h]
        cases hread : w.read host p with
        | none => simpa using ih h
        | some r =>
          cases r with
          | incomplete => simpa [Reading.settles] using ih h
          | posted post =>
            rw [run_settled mem_cons_self, toList_some, singleton_append, find?_cons_of_pos rfl]
            simp [World.postsOf, Reading.post?]
          | skipped why =>
            rw [run_settled mem_cons_self, toList_some, singleton_append, find?_cons_of_pos rfl]
            simp [World.postsOf, Reading.post?]
          | failed =>
            rw [run_settled mem_cons_self, toList_some, singleton_append, find?_cons_of_pos rfl]
            simp [World.postsOf, Reading.post?]
      · rw [if_neg hp, nil_append, ih (mt (step_other hp).1.mp h), (step_other hp).2]

/-- A new file is posted once and whole exactly if the first event that finds complete JSON reads
the final text; an old file is never posted. -/
theorem run_posts (hstart : w.Started) (events : List Event) :
    (path ∉ w.posted → ∀ complete, (readings host w path events).getLast? = some (.posted complete) →
      ((∃ post, (Runs.run (step host) w events).postsOf path = [post] ∧ post.body = complete.body) ↔
        ∃ first, (readings host w path events).find? Reading.settles = some (.posted first) ∧
          first.body = complete.body)) ∧
    (path ∈ w.posted → (Runs.run (step host) w events).postsOf path = []) := by
  have hnone : w.postsOf path = [] := by simp [World.postsOf, hstart.1]
  refine ⟨fun hnew complete hlast ↦ ?_, fun hold ↦ (run_settled hold events).trans hnone⟩
  rw [run_postsOf hnew, hnone, nil_append]
  cases hfirst : (readings host w path events).find? Reading.settles with
  | none => simp
  | some r => cases r <;> simp [Reading.post?]

/-- The transcript of a meeting whose room is named by its file. -/
def office : Host ℕ ℕ where
  readValue _ := none
  str _ := ""
  upperCase := id
  lowerCase := id
  parseUuid _ := some 7
  room _ := some ⟨none, 3⟩
  live _ := true

def meeting : String := "/t/aaaaaaaa-aaaa-4aaa-8aaa-aaaaaaaaaaaa.txt"

theorem run_posts_meeting :
    let events := [.write meeting ⟨"m.txt", "Ada: hello", 0⟩, .event meeting]
    ∃ post, (Runs.run (step office) ⟨fun _ ↦ none, [], []⟩ events).postsOf meeting = [post] ∧
      post.body = "Ada: hello" := by
  have hstart : (⟨fun _ ↦ none, [], []⟩ : World ℕ ℕ).Started := ⟨rfl, by simp⟩
  exact ((run_posts hstart _).1 (by decide) ⟨7, 3, "Ada: hello", "Call call", "jigasi m.txt", 0⟩
    (by decide)).mpr ⟨_, by decide, rfl⟩

/-- The watcher sees the file while only the first line is written. -/
theorem partial_text_posted :
    let w := Runs.run (step office) ⟨fun _ ↦ none, [], []⟩
      [.write meeting ⟨"m.txt", "Ada: hello", 0⟩, .event meeting,
        .write meeting ⟨"m.txt", "Ada: hello\nBob: goodbye", 1⟩, .event meeting]
    (w.postsOf meeting).map Post.body = ["Ada: hello"] := by
  decide

end Simmis.Chat.Transcripts
