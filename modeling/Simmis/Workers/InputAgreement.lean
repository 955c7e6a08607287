import Simmis.Workers.OutputAgreement
import Mathlib.Data.Nat.Digits.Defs

/-!
# Inputs that both sides accept

The JSON of an accepted input is never too large to be sent, and the worker's checks agree with the
server's where a file is encoded with its padding and a name is none that the worker keeps for
itself.
-/

namespace Simmis.Workers.Agreement

open List Option JavaString Inputs Base64 Nat Prod
open Files (Body Chunk Config File FileMap Frozen Host Limits)

/-- The bytes of code points. -/
def size (points : List ℕ) : ℕ := (points.flatMap Files.utf8Point).length

@[simp] theorem size_nil : size [] = 0 := rfl

@[simp] theorem size_cons (p : ℕ) (points : List ℕ) :
    size (p :: points) = (Files.utf8Point p).length + size points := by
  simp [size]

@[simp] theorem size_append (a b : List ℕ) : size (a ++ b) = size a + size b := by
  simp [size]

theorem utf8Point_length (p : ℕ) : 1 ≤ (Files.utf8Point p).length ∧
    (Files.utf8Point p).length ≤ 4 ∧ (p < 128 → (Files.utf8Point p).length = 1) := by
  unfold Files.utf8Point
  split_ifs
  · simp
  all_goals simp only [length_cons, length_nil]
  all_goals exact ⟨by omega, by omega, fun hp ↦ by omega⟩

theorem size_ascii {points : List ℕ} (h : ∀ p ∈ points, p < 128) : size points = points.length := by
  induction points with
  | nil => rfl
  | cons p points ih =>
    obtain ⟨hp, hpoints⟩ := forall_mem_cons.mp h
    rw [size_cons, ih hpoints, (utf8Point_length p).2.2 hp, length_cons, add_comm]

theorem size_le (points : List ℕ) : size points ≤ 4 * points.length := by
  induction points with
  | nil => simp
  | cons p points ih =>
    have hp := (utf8Point_length p).2.1
    rw [size_cons, length_cons]
    omega

theorem size_escape (p : ℕ) : size (Files.escape p) ≤ 6 := by
  have hdigit (n : ℕ) (hn : n < 16) : Files.upperHexDigit n < 128 := by
    unfold Files.upperHexDigit
    split <;> omega
  have hlast := (utf8Point_length p).2.1
  unfold Files.escape
  split_ifs with h1 h2 h3 h4 h5 h6 h7
  · have hascii : ∀ c ∈ [92, p], c < 128 := by
      simp only [forall_mem_cons, not_mem_nil, false_imp_iff, implies_true, and_true]
      omega
    rw [size_ascii hascii]
    simp
  · decide
  · decide
  · decide
  · decide
  · decide
  · have hascii : ∀ c ∈ [92, 117, 48, 48, Files.upperHexDigit (p / 16),
        Files.upperHexDigit (p % 16)], c < 128 := by
      simp only [forall_mem_cons, not_mem_nil, false_imp_iff, implies_true, and_true]
      exact ⟨by omega, by omega, by omega, by omega, hdigit _ (by omega), hdigit _ (by omega)⟩
    rw [size_ascii hascii]
    simp
  · simp only [size_cons, size_nil]
    omega

theorem size_escaped (code : List ℕ) :
    size ((decode code).flatMap Files.escape) ≤ 6 * code.length := by
  fun_induction decode code with
  | case1 => simp
  | case2 u =>
    have hu := size_escape (single u)
    simpa using hu
  | case3 u v rest hpair ih =>
    have hpoint := size_escape (0x10000 + (u - 0xD800) * 0x400 + (v - 0xDC00))
    simp only [flatMap_cons, size_append, length_cons]
    omega
  | case4 u v rest hpair ih =>
    have hu := size_escape (single u)
    simp only [flatMap_cons, size_append, length_cons] at ih ⊢
    omega

theorem size_quoted (s : JavaString) : size (Files.quoted s) ≤ 2 + 6 * s.count := by
  have hescaped := size_escaped s.code
  have hquote : (Files.utf8Point 34).length = 1 := rfl
  rw [show s.code.length = s.count by simp [JavaString.code, JavaString.count]] at hescaped
  simp only [Files.quoted, size_cons, size_append, size_nil, received, hquote]
  omega

variable {s : JavaString}

/-- A text without characters to escape is quoted as it is. -/
theorem size_quoted_plain (h : ∀ c ∈ s.code, Base64.IsPlain c) :
    size (Files.quoted s) = 2 + s.count := by
  have hescape : ∀ c ∈ s.code, Files.escape c = [c] := by
    intro c hc
    obtain ⟨hlower, hupper, hbackslash⟩ := h c hc
    unfold Files.escape
    split_ifs
    all_goals first | rfl | omega
  have hascii : ∀ c ∈ s.code, c < 128 := fun c hc ↦ (h c hc).2.1
  have hquote : (Files.utf8Point 34).length = 1 := rfl
  have hcode : s.code.length = s.count := by simp [JavaString.code, JavaString.count]
  have hsame : s.code.flatMap Files.escape = s.code := by
    calc
      s.code.flatMap Files.escape = s.code.flatMap fun c ↦ [c] := flatMap_congr hescape
      _ = s.code := (flatMap_pure_eq_map id s.code).trans (map_id _)
  simp only [Files.quoted, size_cons, size_append, size_nil, received_ascii hascii,
    hsame, size_ascii hascii, hquote, hcode]
  omega

theorem size_number {n : ℤ} (hlower : 0 ≤ n) (hupper : n < 10 ^ 7) : size (Files.number n) ≤ 28 := by
  obtain ⟨k, rfl⟩ := Int.eq_ofNat_of_zero_le hlower
  have hk : k < 10 ^ 7 := by exact_mod_cast hupper
  have hdigits : (Nat.repr k).length ≤ 7 := Nat.repr_length k 7 (by omega) hk
  have hlength : (Files.number k).length ≤ 7 := by
    rw [Files.number, length_map]
    exact hdigits
  exact (size_le _).trans (by omega)

theorem size_separated (items : List (List ℕ)) :
    size (Files.separated items) ≤ (items.map size).sum + items.length := by
  unfold Files.separated
  induction items with
  | nil => simp
  | cons item items ih =>
    cases items with
    | nil => simp [intercalate]
    | cons next items =>
      have hcomma : (Files.utf8Point 44).length = 1 := rfl
      simp only [intercalate, intersperse_cons_cons, flatten_cons, size_append,
        size_cons, size_nil, hcomma, map_cons, sum_cons, length_cons] at ih ⊢
      omega

theorem size_entry (key : JavaString) (value : List ℕ) :
    size (Files.entry key value) ≤ 3 + 6 * key.count + size value := by
  have hkey := size_quoted key
  have hcolon : (Files.utf8Point 58).length = 1 := rfl
  simp only [Files.entry, size_append, size_cons, hcolon]
  omega

theorem size_object (entries : List (List ℕ)) :
    size (Files.object entries) ≤ 2 + (entries.map size).sum + entries.length := by
  have hentries := size_separated entries
  have hopen : (Files.utf8Point 123).length = 1 := rfl
  have hclose : (Files.utf8Point 125).length = 1 := rfl
  simp only [Files.object, size_append, size_cons, size_nil, hopen, hclose]
  omega

section Host

variable {U : Type} {host : Host U}

/-! ## Files -/

variable {data : List UInt8} {file : File JavaString}

theorem fileBytes_eq_some (h : Files.fileBytes host file = some data) :
    Files.fileSchema file ∧ decode false file.base64.code = some data ∧
      (data.length : ℤ) = file.bytes ∧ file.sha256 = Files.sha256 host data := by
  unfold Files.fileBytes at h
  rw [ite_none_right_eq_some] at h
  obtain ⟨hschema, h⟩ := h
  obtain ⟨bytes, hdecode, h⟩ := bind_eq_some_iff.mp h
  rw [ite_none_right_eq_some] at h
  obtain ⟨⟨hbytes, hsha, -⟩, h⟩ := h
  cases h
  exact ⟨hschema, hdecode, hbytes, hsha⟩

theorem fileSchema_eq (h : Files.fileSchema file) :
    file.base64.count ≤ 1398104 ∧ 0 ≤ file.bytes ∧ file.bytes ≤ 1048576 ∧
      (file.mode = 0x81A4 ∨ file.mode = 0x81ED) := by
  simp only [Files.fileSchema, Bool.and_eq_true, Bool.or_eq_true, decide_eq_true_eq] at h
  exact ⟨h.1.1.1.1, h.1.1.1.2, h.1.1.2, h.2⟩

variable {selected : List JavaString} {total total' : ℤ}

/-- A step of the sum: a deleted file adds nothing, any other one the bytes that it has. -/
theorem checkFile_eq_some {e : JavaString × Option (File JavaString)}
    (h : Files.checkFile host selected total e = some total') :
    e.1.count ≤ 512 ∧ (e.2 = none ∧ total' = total ∨
      ∃ file data, e.2 = some file ∧ Files.fileBytes host file = some data ∧
        total' = total + data.length ∧ total' ≤ 2097152) := by
  obtain ⟨name, file⟩ := e
  unfold Files.checkFile at h
  rw [ite_none_right_eq_some] at h
  obtain ⟨hchecks, h⟩ := h
  simp only [Files.path, Bool.and_eq_true, decide_eq_true_eq] at hchecks
  refine ⟨hchecks.1.1.1.1.2, ?_⟩
  cases file with
  | none => exact .inl ⟨rfl, (some.inj h).symm⟩
  | some file =>
    obtain ⟨data, hdata, h⟩ := bind_eq_some_iff.mp h
    rw [ite_none_right_eq_some] at h
    obtain ⟨hfits, h⟩ := h
    cases h
    exact .inr ⟨file, data, rfl, hdata, rfl, hfits⟩

theorem length_hex (bytes : List UInt8) : (Files.hex bytes).length = 2 * bytes.length := by
  unfold Files.hex
  simp [mul_comm]

theorem code_ascii {code : List ℕ} (h : ∀ c ∈ code, c < 128) : (Files.ascii code).code = code := by
  rw [← utf16_ascii h]
  exact (count_utf16_ascii (s := ⟨code⟩) h).1

theorem received_asciiCode {code : List ℕ} (h : ∀ c ∈ code, c < 128) :
    (Files.ascii code).received = ⟨code⟩ ∧ (Files.ascii code).IsText := by
  rw [← utf16_ascii h]
  have hencodable := (PyString.utf16_ascii (s := ⟨code⟩) h).2
  exact ⟨PyString.received_utf16 hencodable, ⟨⟨code⟩, hencodable, rfl⟩⟩

theorem hex_ascii (bytes : List UInt8) : ∀ c ∈ Files.hex bytes, c < 128 :=
  fun c hc ↦ (isHexDigit_plain (hex_digits bytes c hc)).2.1

theorem length_code (s : JavaString) : s.code.length = s.count := by
  simp [JavaString.code, JavaString.count]

/-- A file that the server reads is read by the worker, if it has its padding. -/
theorem fileBytes_received (hdigest : ∀ bytes, (host.digest bytes).length = 32)
    (h : Files.fileBytes host file = some data) (hpadded : file.base64.count % 4 = 0) :
    fileBytes host.digest (some (file.map received)) = some data ∧
      (file.map received).map PyString.utf16 = file ∧
        file.base64.count = 4 * ((data.length + 2) / 3) := by
  obtain ⟨hschema, hdecode, hbytes, hsha⟩ := fileBytes_eq_some h
  obtain ⟨hcount, hlower, hupper, hmode⟩ := fileSchema_eq hschema
  have hascii : ∀ c ∈ file.base64.code, c < 128 := fun c hc ↦ (decode_plain hdecode c hc).2.1
  have hpoints := received_ascii hascii
  have hstrict : decode true file.base64.code = some data := by
    apply decode_strict hdecode
    rw [length_code]
    exact hpadded
  obtain ⟨hreceived, htext⟩ := received_asciiCode (hex_ascii (host.digest data))
  have hsha' : file.sha256.received = sha256 host.digest data := by
    rw [hsha]
    exact hreceived
  refine ⟨?_, ?_, ?_⟩
  · have hisDigest : isDigest file.sha256.received := by
      rw [hsha']
      simp only [isDigest, sha256, PyString.len, length_hex, hdigest,
        Bool.and_eq_true, decide_eq_true_eq, List.all_eq_true]
      exact ⟨trivial, hex_digits _⟩
    have hlen : file.base64.received.len ≤ 1398104 := by
      rw [PyString.len, hpoints, length_code]
      exact hcount
    change (if _ then _ else none) = _
    rw [if_pos ⟨hlen, hlower, hupper, hmode, hisDigest⟩]
    change (decode true file.base64.received.points >>= _) = _
    rw [hpoints, hstrict, bind_eq_bind, bind_some]
    exact if_pos ⟨hbytes, hsha'.symm⟩
  · have hbase64 := (isText_ascii hascii).utf16_received.2
    have hshaText : file.sha256.IsText := by
      rw [hsha]
      exact htext
    have hshaBack := hshaText.utf16_received.2
    simp only [File.map, hbase64, hshaBack]
  · rw [← length_code]
    exact length_of_decode hstrict

/-! ## The size of an input -/

theorem size_fileJson (hdigest : ∀ bytes, (host.digest bytes).length = 32)
    (h : Files.fileBytes host file = some data) :
    size (Files.fileJson (some file)) ≤ file.base64.count + 600 := by
  obtain ⟨hschema, hdecode, hbytes, hsha⟩ := fileBytes_eq_some h
  obtain ⟨-, hlower, hupper, hmode⟩ := fileSchema_eq hschema
  have hshaCount : file.sha256.count = 64 := by
    rw [← length_code, hsha, Files.sha256, code_ascii (hex_ascii _), length_hex, hdigest]
  have hbase64 := size_entry "base64" (Files.quoted file.base64)
  rw [size_quoted_plain (decode_plain hdecode)] at hbase64
  have hbytes := size_entry "bytes" (Files.number file.bytes)
  have hnumber := size_number hlower (by omega)
  have hmode' := size_entry "mode" (Files.number file.mode)
  have hmodeNumber := size_number (n := file.mode) (by omega) (by omega)
  have hsha' := size_entry "sha256" (Files.quoted file.sha256)
  have hshaQuoted := size_quoted file.sha256
  have hobject := size_object [Files.entry "base64" (Files.quoted file.base64),
    Files.entry "bytes" (Files.number file.bytes), Files.entry "mode" (Files.number file.mode),
    Files.entry "sha256" (Files.quoted file.sha256)]
  have hkeys : (ofString "base64").count = 6 ∧ (ofString "bytes").count = 5 ∧
      (ofString "mode").count = 4 ∧ (ofString "sha256").count = 6 := by
    decide
  simp only [map_cons, map_nil, sum_cons, sum_nil, length_cons, length_nil] at hobject
  change size (Files.object _) ≤ _
  omega

/-- No lone surrogates, no names of the worker, and no files without padding. -/
structure Portable (frozen : Frozen U JavaString) : Prop where
  task : frozen.task.IsText
  version : frozen.config.version.IsText
  model : frozen.config.model.IsText
  names : ∀ e ∈ frozen.files, e.1.IsText ∧ ∃ parts, Inputs.pathParts e.1.received = some parts
  padded : ∀ e ∈ frozen.files, ∀ file ∈ e.2, file.base64.count % 4 = 0

variable {files : FileMap JavaString}

/-- A file adds its bytes in Base64, its name and its other fields. -/
theorem size_files (hdigest : ∀ bytes, (host.digest bytes).length = 32)
        (h : files.foldlM (Files.checkFile host selected) total = some total')
    (hpadded : ∀ e ∈ files, ∀ file ∈ e.2, file.base64.count % 4 = 0) :
    3 * ((files.map fun e ↦ size (Files.entry e.1 (Files.fileJson e.2))).sum : ℤ) ≤
      4 * (total' - total) + 11100 * files.length := by
  induction files generalizing total with
  | nil =>
    cases h
    simp
  | cons e files ih =>
    obtain ⟨he, hfiles⟩ := forall_mem_cons.mp hpadded
    obtain ⟨next, hnext, h⟩ := bind_eq_some_iff.mp h
    have hrest := ih h hfiles
    have hentry := size_entry e.1 (Files.fileJson e.2)
    obtain ⟨hname, ⟨hfile, rfl⟩ | ⟨file, data, hfile, hdata, rfl, -⟩⟩ := checkFile_eq_some hnext
    all_goals
      rw [map_cons, sum_cons, length_cons]
      rw [hfile] at hentry
      simp only [hfile, cast_add, cast_one]
    · have hnull : size (Files.fileJson none) = 4 := rfl
      omega
    · have hsize := size_fileJson hdigest hdata
      have hcount := (fileBytes_received hdigest hdata (he file hfile)).2.2
      omega

/-! ### Accepted inputs -/

/-- What the server has made sure of. -/
structure Accepted (host : Host U) (frozen : Frozen U JavaString) : Prop where
  task : 1 ≤ frozen.task.count ∧ frozen.task.count ≤ 16000
  config : Files.configSchema frozen.config = true
  limits : Files.limitsSchema frozen.limits = true
  policy : frozen.policy = Files.policy
  length : frozen.files.length ≤ 100
  read : ∃ total, frozen.files.foldlM (Files.checkFile host (frozen.files.map Prod.fst)) 0 = some total
  separate : Files.separate (Files.written (frozen.files.map Prod.fst) frozen.files) = true
  there : ∀ e ∈ frozen.files, e.2.isSome = true
  identity : frozen.inputId = host.identity frozen.toBody

variable {frozen : Frozen U JavaString}

theorem accepted_of_validateFrozen [DecidableEq U]
    (h : Files.validateFrozen host frozen) : Accepted host frozen := by
  simp only [Files.validateFrozen, Files.validateOutput, Files.outputSchema, Bool.and_eq_true,
    decide_eq_true_eq, List.all_eq_true] at h
  obtain ⟨⟨⟨⟨⟨⟨⟨hlower, hupper⟩, hconfig⟩, hlimits⟩, hpolicy⟩, ⟨⟨hschema, hread⟩, hseparate⟩⟩,
    hthere⟩, hidentity⟩ := h
  exact {
    task := ⟨hlower, hupper⟩
    config := hconfig
    limits := hlimits
    policy := hpolicy
    length := hschema.1.1.1.1
    read := isSome_iff_exists.mp hread
    separate := hseparate
    there := hthere
    identity := hidentity }

variable {c : Config JavaString}

theorem configSchema_eq (h : Files.configSchema c) :
    (c.adapter = "codex" ∨ c.adapter = "claude-code") ∧ 1 ≤ c.version.count ∧
      c.version.count ≤ 200 ∧ 1 ≤ c.model.count ∧ c.model.count ≤ 200 ∧
      c.policy = "local-trusted-v1" := by
  simpa [Files.configSchema, and_assoc] using h

variable {l : Limits JavaString}

theorem limitsSchema_eq (h : Files.limitsSchema l) : 1000 ≤ l.timeoutMs ∧ l.timeoutMs ≤ 600000 ∧
      (l.settlement = "review" ∨ l.settlement = "discard") := by
  simpa [Files.limitsSchema, and_assoc] using h

theorem total_le (h : files.foldlM (Files.checkFile host selected) total = some total')
    (htotal : total ≤ 2097152) : total' ≤ 2097152 := by
  induction files generalizing total with
  | nil =>
    cases h
    exact htotal
  | cons e files ih =>
    obtain ⟨next, hnext, h⟩ := bind_eq_some_iff.mp h
    apply ih h
    obtain ⟨-, ⟨-, rfl⟩ | ⟨file, data, -, -, -, hfits⟩⟩ := checkFile_eq_some hnext
    · exact htotal
    · exact hfits

theorem size_field (key : JavaString) {value : List ℕ} (n : ℕ) {m : ℕ} (hkey : key.count ≤ n)
    (hvalue : size value ≤ m) : size (Files.entry key value) ≤ 3 + 6 * n + m := by
  have h := size_entry key value
  omega

theorem size_text {n : ℕ} (h : s.count ≤ n) : size (Files.quoted s) ≤ 2 + 6 * n := by
  have hs := size_quoted s
  omega

theorem size_config (h : Files.configSchema c) :
    size (Files.object [Files.entry "adapter" (Files.quoted c.adapter),
      Files.entry "model" (Files.quoted c.model), Files.entry "policy" (Files.quoted c.policy),
      Files.entry "version" (Files.quoted c.version)]) ≤ 3000 := by
  obtain ⟨hadapter, -, hversion, -, hmodel, hpolicy⟩ := configSchema_eq h
  have hadapterCount : c.adapter.count ≤ 11 := by
    obtain heq | heq := hadapter
    all_goals rw [heq]
    all_goals decide
  have hpolicyCount : c.policy.count ≤ 16 := by
    rw [hpolicy]
    decide
  have h₁ := size_field "adapter" 7 (by decide) (size_text hadapterCount)
  have h₂ := size_field "model" 7 (by decide) (size_text hmodel)
  have h₃ := size_field "policy" 7 (by decide) (size_text hpolicyCount)
  have h₄ := size_field "version" 7 (by decide) (size_text hversion)
  apply (size_object _).trans
  simp only [map_cons, map_nil, sum_cons, sum_nil, length_cons, length_nil]
  omega

theorem size_limits (h : Files.limitsSchema l) :
    size (Files.object [Files.entry "settlement" (Files.quoted l.settlement),
      Files.entry "timeout-ms" (Files.number l.timeoutMs)]) ≤ 300 := by
  obtain ⟨hlower, hupper, hsettlement⟩ := limitsSchema_eq h
  have hcount : l.settlement.count ≤ 7 := by
    obtain heq | heq := hsettlement
    all_goals rw [heq]
    all_goals decide
  have hnumber := size_number (n := l.timeoutMs) (by omega) (by omega)
  have h₁ := size_field "settlement" 10 (by decide) (size_text hcount)
  have h₂ := size_field "timeout-ms" 10 (by decide) hnumber
  apply (size_object _).trans
  simp only [map_cons, map_nil, sum_cons, sum_nil, length_cons, length_nil]
  omega

theorem size_policy : size (Files.object [
    Files.entry "chunk-bytes" (Files.number Files.policy.chunkBytes),
    Files.entry "lease-ttl-ms" (Files.number Files.policy.leaseTtlMs),
    Files.entry "max-file-bytes" (Files.number Files.policy.maxFileBytes),
    Files.entry "max-files" (Files.number Files.policy.maxFiles),
    Files.entry "max-input-json-bytes" (Files.number Files.policy.maxInputJsonBytes),
    Files.entry "max-total-bytes" (Files.number Files.policy.maxTotalBytes),
    Files.entry "version" (Files.number Files.policy.version)]) ≤ 1100 := by
  have hfield (key : String) (n : ℤ) (hkey : (ofString key).count ≤ 20) (hlower : 0 ≤ n)
      (hupper : n < 10 ^ 7) : size (Files.entry key (Files.number n)) ≤ 151 :=
    size_field key 20 hkey (size_number hlower hupper)
  have h₁ := hfield "chunk-bytes" Files.policy.chunkBytes
    (by decide) (by decide) (by decide)
  have h₂ := hfield "lease-ttl-ms" Files.policy.leaseTtlMs
    (by decide) (by decide) (by decide)
  have h₃ := hfield "max-file-bytes" Files.policy.maxFileBytes
    (by decide) (by decide) (by decide)
  have h₄ := hfield "max-files" Files.policy.maxFiles
    (by decide) (by decide) (by decide)
  have h₅ := hfield "max-input-json-bytes" Files.policy.maxInputJsonBytes
    (by decide) (by decide) (by decide)
  have h₆ := hfield "max-total-bytes" Files.policy.maxTotalBytes
    (by decide) (by decide) (by decide)
  have h₇ := hfield "version" Files.policy.version
    (by decide) (by decide) (by decide)
  apply (size_object _).trans
  simp only [map_cons, map_nil, sum_cons, sum_nil, length_cons, length_nil]
  omega

theorem size_filesJson (hdigest : ∀ bytes, (host.digest bytes).length = 32)
    (haccepted : Accepted host frozen) (hportable : Portable frozen) :
    size (Files.object (frozen.files.map fun e ↦ Files.entry e.1 (Files.fileJson e.2))) ≤
      3200000 := by
  obtain ⟨total, hread⟩ := haccepted.read
  have hfiles := size_files hdigest hread hportable.padded
  have htotal := total_le hread (by norm_num)
  have hlength := haccepted.length
  have hobject := size_object (frozen.files.map fun e ↦ Files.entry e.1 (Files.fileJson e.2))
  rw [List.map_map, List.length_map] at hobject
  simp only [Function.comp_def] at hobject
  omega

/-- An accepted input is small enough to be sent. -/
theorem jsonBytes_length (hdigest : ∀ bytes, (host.digest bytes).length = 32)
    (htext : ∀ u, (host.text u).count = 36)
    (haccepted : Accepted host frozen) (hportable : Portable frozen) :
    1 ≤ (Files.jsonBytes host frozen).length ∧ (Files.jsonBytes host frozen).length ≤ 4194304 := by
  constructor
  · have hne : Files.jsonBytes host frozen ≠ [] := by
      unfold Files.jsonBytes Files.frozenJson Files.object
      simp [Files.utf8Point]
    exact length_pos_iff.mpr hne
  · have hpolicy := size_policy
    rw [← haccepted.policy] at hpolicy
    have h₁ := size_field "config" 8 (by decide)
      (size_config haccepted.config)
    have h₂ := size_field "files" 8 (by decide)
      (size_filesJson hdigest haccepted hportable)
    have h₃ := size_field "input-id" 8 (by decide)
      (size_text (htext frozen.inputId).le)
    have h₄ := size_field "limits" 8 (by decide)
      (size_limits haccepted.limits)
    have h₅ := size_field "policy" 8 (by decide) hpolicy
    have h₆ := size_field "task" 8 (by decide)
      (size_text haccepted.task.2)
    apply (size_object _).trans
    simp only [map_cons, map_nil, sum_cons, sum_nil, length_cons, length_nil]
    omega

/-- An input as the worker reads it. -/
def received (host : Host U) (frozen : Frozen U JavaString) : Frozen PyString PyString :=
  frozen.map JavaString.received fun u ↦ (host.text u).received

theorem text_received (hs : s.IsText) {n : ℕ} (hlower : 1 ≤ s.count)
    (hupper : s.count ≤ n) : text s.received n := by
  obtain ⟨-, hback⟩ := hs.utf16_received
  have hlen := PyString.len_le_count s.received
  rw [hback] at hlen
  have hpos : 1 ≤ s.received.len := by
    rw [one_le_iff_ne_zero]
    intro hzero
    have hnil : s.received.points = [] := length_eq_zero_iff.mp hzero
    rw [← hback, PyString.utf16, hnil] at hlower
    exact absurd hlower (by decide)
  simp only [text, Bool.and_eq_true, decide_eq_true_eq]
  exact ⟨hpos, hlen.trans hupper⟩

theorem checkConfig_received (h : Files.configSchema c) (hversion : c.version.IsText)
    (hmodel : c.model.IsText) :
    checkConfig (c.map JavaString.received) (c.map JavaString.received) ∧
      (c.map JavaString.received).map PyString.utf16 = c := by
  obtain ⟨hadapter, hv₁, hv₂, hm₁, hm₂, hpolicy⟩ := configSchema_eq h
  have hadapter : (c.adapter.received = "codex" ∨ c.adapter.received = "claude-code") ∧
      c.adapter.received.utf16 = c.adapter := by
    obtain heq | heq := hadapter
    all_goals rw [heq]
    all_goals decide
  have hpolicy : c.policy.received = "local-trusted-v1" ∧ c.policy.received.utf16 = c.policy := by
    rw [hpolicy]
    decide
  constructor
  · simp only [checkConfig, Bool.and_eq_true, Bool.or_eq_true, decide_eq_true_eq, true_and]
    exact ⟨⟨⟨hadapter.1, text_received hversion hv₁ hv₂⟩, text_received hmodel hm₁ hm₂⟩, hpolicy.1⟩
  · exact (Config.mk.injEq ..).mpr
      ⟨hadapter.2, hversion.utf16_received.2, hmodel.utf16_received.2, hpolicy.2⟩

theorem checkLimits_received (h : Files.limitsSchema l) : checkLimits (l.map JavaString.received) ∧
      (l.map JavaString.received).map PyString.utf16 = l := by
  obtain ⟨hlower, hupper, hsettlement⟩ := limitsSchema_eq h
  have hsettlement : (l.settlement.received = "review" ∨ l.settlement.received = "discard") ∧
      l.settlement.received.utf16 = l.settlement := by
    obtain heq | heq := hsettlement
    all_goals rw [heq]
    all_goals decide
  constructor
  · simp only [checkLimits, Bool.and_eq_true, Bool.or_eq_true, decide_eq_true_eq]
    exact ⟨⟨hlower, hupper⟩, hsettlement.1⟩
  · exact (Limits.mk.injEq ..).mpr ⟨rfl, hsettlement.2⟩

/-- No input stands where another one has a directory. -/
theorem parents_free (haccepted : Accepted host frozen)
    (hportable : Portable frozen) {e : JavaString × Option (File JavaString)}
    (he : e ∈ frozen.files) {parts : List (List ℕ)} (hparts : pathParts e.1.received = some parts) :
    ((parents parts).any fun p ↦
      decide (p ∈ (received host frozen).files.map fst)) = false := by
  rw [List.any_eq_false]
  intro r hr hmem
  have hmem := of_decide_eq_true hmem
  obtain ⟨q, hq, rfl⟩ := mem_map.mp hmem
  obtain ⟨e', he', rfl⟩ := mem_map.mp hq
  have hpresent : ∀ e' ∈ frozen.files, e'.1 ∈ Files.written (frozen.files.map fst) frozen.files := by
    intro e' he'
    simp only [Files.written, mem_filter, decide_eq_true_eq, mem_append]
    refine ⟨.inl (mem_map_of_mem he'), fun hdeleted ↦ ?_⟩
    obtain ⟨d, hd, -⟩ := mem_map.mp hdeleted
    obtain ⟨hd, hnone⟩ := mem_filter.mp hd
    have hsome := haccepted.there d hd
    rw [isSome_eq_false_iff.mpr hnone] at hsome
    cases hsome
  have hseparate := haccepted.separate
  simp only [Files.separate, List.all_eq_true, decide_eq_true_eq] at hseparate
  have hback := (hportable.names e he).1.utf16_received.2
  have hback' := (hportable.names e' he').1.utf16_received.2
  have hparent : e'.1 ∈ Files.parents e.1 := by
    rw [← hback, parents_utf16 hparts, ← hback']
    exact mem_map_of_mem hr
  exact hseparate e.1 (hpresent e he) e'.1 hparent (hpresent e' he')

/-- The loop of the worker over the files ends with the server's sum. -/
theorem checkFiles_received (hdigest : ∀ bytes, (host.digest bytes).length = 32)
    {names : FileMap PyString} (hnames : ∀ e ∈ files, ∃ parts, pathParts e.1.received = some parts ∧
      ((parents parts).any fun p ↦ decide (p ∈ names.map fst)) = false)
    (hthere : ∀ e ∈ files, e.2.isSome)
    (hpadded : ∀ e ∈ files, ∀ file ∈ e.2, file.base64.count % 4 = 0)
    (h : files.foldlM (Files.checkFile host selected) total = some total') :
    (Files.mapFiles JavaString.received files).foldlM (checkFile host.digest names) total =
      some total' := by
  induction files generalizing total with
  | nil => exact h
  | cons e files ih =>
    obtain ⟨⟨parts, hparts, hfree⟩, hnames⟩ := forall_mem_cons.mp hnames
    obtain ⟨hsome, hthere⟩ := forall_mem_cons.mp hthere
    obtain ⟨hpad, hpadded⟩ := forall_mem_cons.mp hpadded
    obtain ⟨next, hnext, h⟩ := bind_eq_some_iff.mp h
    have hrest := ih hnames hthere hpadded h
    obtain ⟨name, file⟩ := e
    obtain ⟨-, ⟨rfl, -⟩ | ⟨file, data, rfl, hdata, rfl, hfits⟩⟩ := checkFile_eq_some hnext
    · cases hsome
    · have hread := (fileBytes_received hdigest hdata (hpad file rfl)).1
      have hfits : ¬ total + (data.length : ℤ) > Files.policy.maxTotalBytes := not_lt.mpr hfits
      rw [Files.mapFiles, map_cons, foldlM_cons, checkFile]
      simp only [hparts, hfree, map_some, hread, bind_eq_bind, bind_some,
        Bool.false_eq_true, if_false, if_neg hfits]
      exact hrest

/-- The worker lets through what the server has, and has the same texts. -/
theorem received_valid (hdigest : ∀ bytes, (host.digest bytes).length = 32)
    (htext : ∀ u, canonicalUuid (host.text u).received)
    (haccepted : Accepted host frozen) (hportable : Portable frozen) :
    validate host.digest (received host frozen) (received host frozen).config ∧
      (received host frozen).toBody.map PyString.utf16 = frozen.toBody := by
  obtain ⟨hconfig, hconfigBack⟩ :=
    checkConfig_received haccepted.config hportable.version hportable.model
  obtain ⟨hlimits, hlimitsBack⟩ := checkLimits_received haccepted.limits
  obtain ⟨total, hread⟩ := haccepted.read
  constructor
  · have hfiles : (received host frozen).files.foldlM
        (checkFile host.digest (received host frozen).files) 0 = some total := by
      apply checkFiles_received hdigest _ haccepted.there hportable.padded hread
      intro e he
      obtain ⟨parts, hparts⟩ := (hportable.names e he).2
      exact ⟨parts, hparts, parents_free haccepted hportable he hparts⟩
    have hlength : ((received host frozen).files.length : ℤ) ≤ Files.policy.maxFiles := by
      have hbound := haccepted.length
      have hsame : (received host frozen).files.length = frozen.files.length := by
        simp [received, Frozen.map, Body.map, Files.mapFiles]
      have hmax : Files.policy.maxFiles = 100 := rfl
      omega
    have htask := text_received hportable.task haccepted.task.1 haccepted.task.2
    simp only [validate, Bool.and_eq_true, decide_eq_true_eq]
    exact ⟨⟨⟨⟨⟨⟨htext frozen.inputId, hconfig⟩, htask⟩, haccepted.policy⟩, hlimits⟩, hlength⟩,
      by rw [hfiles]; rfl⟩
  · obtain ⟨⟨task, config, files, limits, policy⟩, inputId⟩ := frozen
    have hfiles : Files.mapFiles PyString.utf16 (Files.mapFiles JavaString.received files) =
        files := by
      unfold Files.mapFiles
      rw [List.map_map]
      calc
        files.map _ = files.map id := by
          apply map_congr_left
          intro e he
          obtain ⟨s, t, hstep⟩ := Lists.step_of_foldlM hread he
          have hname := (hportable.names e he).1.utf16_received.2
          obtain ⟨name, file⟩ := e
          obtain ⟨-, ⟨rfl, -⟩ | ⟨file, data, rfl, hdata, -⟩⟩ := checkFile_eq_some hstep
          · exact congrArg (·, none) hname
          · have hsame := (fileBytes_received hdigest hdata (hportable.padded _ he file rfl)).2.1
            exact Prod.ext hname (congrArg some hsame)
        _ = files := map_id files
    simp only [received, Frozen.map, Body.map, hportable.task.utf16_received.2, hfiles]
    congr 1

/-! ## Fetching -/

section Fetch

variable [DecidableEq U]

/-- The server's chunks as the worker reads them. -/
def served (host : Host U) (frozen : Frozen U JavaString) (offset length : ℕ) :
    Option (Chunk PyString PyString) :=
  (Files.inputChunk host frozen offset length).map
    (Chunk.map JavaString.received fun u ↦ (host.text u).received)

/-- What all chunks of an input have in common. -/
def descriptor (host : Host U) (frozen : Frozen U JavaString) : Inputs.Identity where
  inputId := (host.text frozen.inputId).received
  bytes := (Files.jsonBytes host frozen).length
  sha256 := Inputs.sha256 host.digest (Files.jsonBytes host frozen)

omit [DecidableEq U] in
theorem received_sha256 (bytes : List UInt8) :
    (Files.sha256 host bytes).received = sha256 host.digest bytes :=
  (received_asciiCode (hex_ascii (host.digest bytes))).1

/-- Where the chunk from an offset ends. -/
def stopAt (bytes : List UInt8) (offset : ℕ) : ℕ := min bytes.length (offset + 16384)

def chunkData (bytes : List UInt8) (offset : ℕ) : List UInt8 :=
  (bytes.take (stopAt bytes offset)).drop offset

def servedPart (d : Inputs.Identity) (bytes : List UInt8) (offset : ℕ) :
    Chunk PyString PyString where
  inputId := d.inputId
  bytes := d.bytes
  sha256 := d.sha256
  offset := offset
  base64 := ⟨Base64.encode (chunkData bytes offset)⟩
  nextOffset := if stopAt bytes offset < bytes.length then some (stopAt bytes offset) else none

variable {offset : ℕ}

theorem served_eq (haccepted : Accepted host frozen)
    (hsize : (Files.jsonBytes host frozen).length ≤ 4194304)
    (hoffset : offset < (Files.jsonBytes host frozen).length) :
    served host frozen offset Files.policy.chunkBytes.toNat =
      some (servedPart (descriptor host frozen) (Files.jsonBytes host frozen) offset) := by
  have hmax : Files.policy.maxInputJsonBytes = 4194304 := rfl
  have hnat : Files.policy.chunkBytes.toNat = 16384 := rfl
  have hasciiData := received_asciiCode fun c hc ↦ (encode_plain
    (chunkData (Files.jsonBytes host frozen) offset) c hc).2.1
  rw [hnat]
  unfold served Files.inputChunk
  rw [if_pos ⟨haccepted.identity, by omega, by omega, by omega, by omega, by omega⟩]
  simp only [map_some, Chunk.map, received_sha256]
  rw [← stopAt, ← chunkData, hasciiData.1]
  rfl

variable {bytes : List UInt8}

theorem stopAt_bounds (h : offset < bytes.length) :
    offset < stopAt bytes offset ∧ stopAt bytes offset ≤ bytes.length ∧
      stopAt bytes offset ≤ offset + 16384 ∧
      offset + (chunkData bytes offset).length = stopAt bytes offset := by
  unfold chunkData
  rw [length_drop, length_take]
  unfold stopAt
  omega

/-- The worker takes the chunk that it has asked for. -/
theorem checkChunk_served {d : Inputs.Identity}
    (hid : canonicalUuid d.inputId) (hbytes : d.bytes = bytes.length)
    (hisDigest : isDigest d.sha256) (hsize : bytes.length ≤ 4194304)
    (hoffset : offset < bytes.length) {known : Option Inputs.Identity}
    (hknown : ∀ d' ∈ known, d = d') :
    checkChunk known offset (servedPart d bytes offset) = some (chunkData bytes offset) := by
  have hmax : Files.policy.maxInputJsonBytes = 4194304 := rfl
  have hchunk : Files.policy.chunkBytes = 16384 := rfl
  obtain ⟨hlower, hupper, hfew, hnext⟩ := stopAt_bounds hoffset
  have hbase64 : (encode (chunkData bytes offset)).length ≤ 21848 := by
    rw [length_encode]
    omega
  have hpos : 1 ≤ d.bytes := by omega
  have hfits : d.bytes ≤ Files.policy.maxInputJsonBytes := by omega
  have hsome : 1 ≤ (chunkData bytes offset).length := by omega
  have hmost : ((chunkData bytes offset).length : ℤ) ≤ Files.policy.chunkBytes := by omega
  have hstop : (offset : ℤ) + (chunkData bytes offset).length = stopAt bytes offset := by omega
  unfold checkChunk
  rw [if_pos ⟨hid, hpos, hfits, hisDigest, rfl, hknown, hbase64⟩]
  simp only [servedPart, decode_encode, bind_eq_bind, bind_some, hstop, hbytes]
  apply if_pos
  refine ⟨hsome, hmost, by exact_mod_cast hupper, fun hmore ↦ ?_, fun hend ↦ ?_⟩
  · have hmore : stopAt bytes offset < bytes.length := by exact_mod_cast hmore
    rw [if_pos hmore]
  · have hend : stopAt bytes offset = bytes.length := by exact_mod_cast hend
    rw [if_neg (not_lt.mpr hend.ge)]

/-- From every offset the loop ends with the whole text. -/
theorem fetchLoop_parts {call : ℕ → ℕ → Option (Chunk PyString PyString)} {d : Inputs.Identity}
    (hid : canonicalUuid d.inputId)
    (hbytes : d.bytes = bytes.length) (hisDigest : isDigest d.sha256)
    (hsize : bytes.length ≤ 4194304)
    (hcall : ∀ offset < bytes.length, call offset Files.policy.chunkBytes.toNat =
      some (servedPart d bytes offset)) {fuel : ℕ} (hoffset : offset < bytes.length)
    (hfuel : bytes.length ≤ offset + fuel) {known : Option Inputs.Identity}
    (hknown : ∀ d' ∈ known, d = d') :
    fetchLoop call fuel known (bytes.take offset) offset = some (d, bytes) := by
  induction fuel generalizing offset known with
  | zero => omega
  | succ fuel ih =>
    have hchecked := checkChunk_served hid hbytes hisDigest hsize hoffset hknown
    obtain ⟨hlower, hupper, -, hnext⟩ := stopAt_bounds hoffset
    have hchunks : bytes.take offset ++ chunkData bytes offset = bytes.take (stopAt bytes offset) := by
      calc
        bytes.take offset ++ chunkData bytes offset =
            (bytes.take (stopAt bytes offset)).take offset ++ chunkData bytes offset := by
          rw [take_take, min_eq_left hlower.le]
        _ = bytes.take (stopAt bytes offset) := take_append_drop offset _
    have hidentity : identity (servedPart d bytes offset) = d := rfl
    have hpart : (servedPart d bytes offset).bytes = bytes.length := hbytes
    rw [fetchLoop, hcall offset hoffset]
    simp only [bind_eq_bind, bind_some, hchecked, hidentity, hpart, hnext, hchunks]
    split
    · next hend =>
      have hend : stopAt bytes offset = bytes.length := by exact_mod_cast hend
      rw [hend, take_length]
    · next hmore =>
      apply ih (by omega) (by omega)
      exact fun d' hd ↦ mem_some_iff.mp hd

/-- What the platforms document of digests, UUIDs and the policy for paths. -/
structure Documented (host : Host U) : Prop where
  digest : ∀ bytes, (host.digest bytes).length = 32
  count : ∀ u, (host.text u).count = 36
  text : ∀ u, Inputs.canonicalUuid (host.text u).received = true
  permits : Permits host

/-- The worker fetches what the server has accepted, with the same bytes in its files. -/
theorem input_fetched (hhost : Documented host)
    (hvalid : Files.validateFrozen host frozen) (hportable : Portable frozen)
    {loads : List UInt8 → Option (Frozen PyString PyString)}
    (hloads : loads (Files.jsonBytes host frozen) = some (received host frozen)) {run : PyString}
    (hrun : canonicalUuid run) : (∀ fuel, 4194304 ≤ fuel →
      fetch host.digest (served host frozen) loads fuel run (received host frozen).config =
        some (received host frozen)) ∧
      ∀ e ∈ frozen.files, ∃ file data, e.2 = some file ∧ Files.fileBytes host file = some data ∧
        fileBytes host.digest (some (file.map JavaString.received)) = some data := by
  have haccepted := accepted_of_validateFrozen hvalid
  obtain ⟨hpos, hsize⟩ := jsonBytes_length hhost.digest hhost.count haccepted hportable
  constructor
  · intro fuel hfuel
    have hisDigest : isDigest (descriptor host frozen).sha256 := by
      simp only [isDigest, descriptor, sha256, PyString.len, length_hex,
        hhost.digest, Bool.and_eq_true, decide_eq_true_eq, List.all_eq_true]
      exact ⟨trivial, hex_digits _⟩
    have hloop : fetchLoop (served host frozen) fuel none [] 0 =
        some (descriptor host frozen, Files.jsonBytes host frozen) :=
      fetchLoop_parts (hhost.text frozen.inputId) rfl hisDigest hsize
        (fun offset hoffset ↦ served_eq haccepted hsize hoffset) hpos (by omega) (by simp)
    have hchecked := (received_valid hhost.digest hhost.text haccepted hportable).1
    have hsha : sha256 host.digest (Files.jsonBytes host frozen) =
      (descriptor host frozen).sha256 := rfl
    have hid : (received host frozen).inputId = (descriptor host frozen).inputId := rfl
    rw [fetch, if_pos hrun, hloop]
    simp only [bind_eq_bind, bind_some, hsha, if_true, hloads, hchecked, hid, and_self]
  · intro e he
    obtain ⟨total, hread⟩ := haccepted.read
    obtain ⟨s, t, hstep⟩ := Lists.step_of_foldlM hread he
    obtain ⟨-, ⟨hfile, -⟩ | ⟨file, data, hfile, hdata, -⟩⟩ := checkFile_eq_some hstep
    · have hthere := haccepted.there e he
      rw [hfile] at hthere
      cases hthere
    · exact ⟨file, data, hfile, hdata,
        (fileBytes_received hhost.digest hdata (hportable.padded e he file hfile)).1⟩

end Fetch

end Host

/-- The digest of `hi`, and of the JSON of the input below. -/
def digest (bytes : List UInt8) : List UInt8 :=
  if bytes = [104, 105] then
    [143, 67, 67, 70, 100, 143, 107, 150, 223, 137, 221, 169, 1, 197, 23, 107, 16, 166, 216,
    57, 97, 221, 60, 26, 200, 139, 89, 178, 220, 50, 122, 164]
  else
    [177, 207, 120, 196, 157, 171, 238, 173, 78, 38, 56, 42, 17, 9, 14, 81, 180, 180, 237, 70,
    50, 162, 92, 47, 244, 235, 197, 78, 196, 94, 128, 169]

def host : Host Unit where
  digest := digest
  workspacePath p := some ("/" ++ p)
  identity _ := ()
  text _ := "00000000-0000-0000-0000-000000000000"

def hiFile (base64 : String) : File JavaString :=
  ⟨base64, 2, Files.sha256 host [104, 105], 0o100644⟩

/-- An input of one file. -/
def input (name base64 : String) : Frozen Unit JavaString where
  task := "t"
  config := ⟨"codex", "1", "m", "local-trusted-v1"⟩
  files := [(name, some (hiFile base64))]
  limits := ⟨60000, "review"⟩
  policy := Files.policy
  inputId := ()

def output (summary : PyString) : Files.Output PyString where
  files := [("out/r.txt", some ((hiFile "aGk=").map JavaString.received))]
  summary := summary
  exitCode := 0

theorem host_documented : Documented host where
  digest bytes := by
    change (digest bytes).length = 32
    unfold digest
    split <;> rfl
  count := fun () ↦ by decide
  text := fun () ↦ by decide
  permits _ _ _ := rfl

theorem input_portable : Portable (input "a.txt" "aGk=") where
  task := isText_ascii (by decide)
  version := isText_ascii (by decide)
  model := isText_ascii (by decide)
  names e he := by
    cases mem_singleton.mp he
    exact ⟨isText_ascii (by decide), isSome_iff_exists.mp (by decide)⟩
  padded e he file hfile := by
    cases mem_singleton.mp he
    cases hfile
    decide

/-- A text of `n` characters that take two code units each. -/
def faces (n : ℕ) : PyString := ⟨List.replicate n 0x1F600⟩

theorem faces_size (n : ℕ) :
    (faces n).encodable ∧ (faces n).len = n ∧ (faces n).utf16.count = 2 * n := by
  refine ⟨?_, length_replicate, ?_⟩
  · apply all_eq_true.mpr
    intro c hc
    rw [eq_of_mem_replicate hc]
    rfl
  · have hunits : (PyString.unitsOfPoint 0x1F600).length = 2 := rfl
    simp only [faces, PyString.utf16, JavaString.count, length_flatMap, map_replicate,
      sum_replicate_nat, hunits]
    exact mul_comm n 2

end Simmis.Workers.Agreement
