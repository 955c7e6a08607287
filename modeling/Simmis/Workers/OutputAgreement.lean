import Simmis.Library.Lists
import Simmis.Workers.Outputs

/-!
# Outputs that both sides accept

A text of the worker has as many code points as it has, and on the server as many code units as it
takes; all other checks of an output agree.
-/

namespace Simmis.Workers.Agreement

open List Option PyString Inputs Outputs Segments Function
open Files (Config File FileMap Frozen Host Output)

theorem utf16_ascii {code : List ℕ} (h : ∀ c ∈ code, c < 128) :
    (mk code).utf16 = Files.ascii code := by
  unfold utf16 Files.ascii
  congr 1
  calc
    code.flatMap unitsOfPoint = code.flatMap fun c ↦ [c.toUInt16] := by
      apply flatMap_congr
      intro c hc
      have hsmall := h c hc
      rw [unitsOfPoint, if_pos (by omega)]
    _ = code.map Nat.toUInt16 := flatMap_pure_eq_map Nat.toUInt16 code

theorem hexDigit_digit {n : ℕ} (hn : n < 16) : Files.isHexDigit (Files.hexDigit n) := by
  interval_cases n <;> rfl

theorem isHexDigit_plain {c : ℕ} (h : Files.isHexDigit c) : Base64.IsPlain c := by
  simp only [Files.isHexDigit, Bool.or_eq_true, Bool.and_eq_true, decide_eq_true_eq] at h
  unfold Base64.IsPlain
  omega

theorem hex_digits (bytes : List UInt8) : ∀ c ∈ Files.hex bytes, Files.isHexDigit c := by
  intro c hc
  obtain ⟨b, -, hc⟩ := mem_flatMap.mp hc
  have hb := b.toNat_lt
  simp only [mem_cons, not_mem_nil, or_false] at hc
  obtain rfl | rfl := hc
  · exact hexDigit_digit (by omega)
  · exact hexDigit_digit (by omega)

theorem count_utf16_ascii {s : PyString} (h : ∀ p ∈ s.points, p < 128) :
    s.utf16.code = s.points ∧ s.utf16.count = s.len := by
  have hcode := (PyString.utf16_ascii h).1
  refine ⟨hcode, ?_⟩
  calc
    s.utf16.count = s.utf16.code.length := by simp [JavaString.count, JavaString.code]
    _ = s.len := by rw [hcode, len]

section Host

variable {U : Type} {host : Host U}

theorem digestLine_of_isDigest {s : PyString} (h : isDigest s) :
    Files.isDigestLine s.utf16.code := by
  simp only [isDigest, Bool.and_eq_true, decide_eq_true_eq, List.all_eq_true] at h
  obtain ⟨hlen, hdigits⟩ := h
  have hascii : ∀ p ∈ s.points, p < 128 := fun p hp ↦ (isHexDigit_plain (hdigits p hp)).2.1
  have hlen : s.points.length = 64 := hlen
  rw [(count_utf16_ascii hascii).1, Files.isDigestLine]
  simp only [Bool.and_eq_true, decide_eq_true_eq, List.all_eq_true]
  refine ⟨⟨hlen.ge, fun c hc ↦ hdigits c (List.mem_of_mem_take hc)⟩, ?_⟩
  rw [drop_eq_nil_of_le hlen.le]
  exact mem_cons_self ..

/-- A file that the worker reads is read by the server, with the same bytes. -/
theorem fileBytes_utf16 {file : File PyString} {data : List UInt8}
    (h : fileBytes host.digest (some file) = some data) : Files.fileSchema (file.map utf16) ∧
      Files.fileBytes host (file.map utf16) = some data := by
  change (if _ then _ else none) = _ at h
  rw [ite_none_right_eq_some] at h
  obtain ⟨⟨hlen, hlower, hupper, hmode, hsha⟩, h⟩ := h
  obtain ⟨bytes, hdecode, h⟩ := bind_eq_some_iff.mp h
  rw [ite_none_right_eq_some] at h
  obtain ⟨⟨hbytes, hdigest⟩, h⟩ := h
  cases h
  have hascii : ∀ p ∈ file.base64.points, p < 128 :=
    fun p hp ↦ (Base64.decode_plain hdecode p hp).2.1
  obtain ⟨hcode, hcount⟩ := count_utf16_ascii hascii
  have hschema : Files.fileSchema (file.map utf16) := by
    simp only [Files.fileSchema, Bool.and_eq_true, Bool.or_eq_true, decide_eq_true_eq]
    exact ⟨⟨⟨⟨hcount.trans_le hlen, hlower⟩, hupper⟩, digestLine_of_isDigest hsha⟩, hmode⟩
  refine ⟨hschema, ?_⟩
  have hsame : file.sha256.utf16 = Files.sha256 host data := by
    rw [← hdigest]
    exact utf16_ascii fun c hc ↦ (isHexDigit_plain (hex_digits _ c hc)).2.1
  have hdecode : Base64.decode false (file.map utf16).base64.code = some data := by
    rw [show (file.map utf16).base64.code = file.base64.points from hcode]
    exact Base64.decode_lenient hdecode
  have hfits : (data.length : ℤ) ≤ Files.policy.maxFileBytes := hbytes ▸ hupper
  unfold Files.fileBytes
  rw [if_pos hschema, hdecode, bind_eq_bind, bind_some]
  exact if_pos ⟨hbytes, hsame, hfits⟩

variable {p : PyString} {parts : List (List ℕ)}

theorem pathParts_eq_some (h : pathParts p = some parts) :
    1 ≤ p.len ∧ p.points.any isControl = false ∧ p.encodable ∧
      parts = p.points.splitOn 47 ∧ ∀ segment ∈ parts, segment ≠ [] := by
  unfold pathParts at h
  rw [ite_none_right_eq_some] at h
  obtain ⟨⟨hlower, -, -, hcontrol, hencodable, hrefused⟩, h⟩ := h
  cases h
  refine ⟨hlower, hcontrol, hencodable, rfl, ?_⟩
  rintro segment hsegment rfl
  rw [List.any_eq_false] at hrefused
  exact hrefused [] hsegment rfl

theorem unitsOfPoint_slash : unitsOfPoint 47 = [47] := rfl

theorem toNat_mem_unitsOfPoint {p : ℕ} (hp : p < 0x110000) {u : UInt16}
    (hu : u ∈ unitsOfPoint p) : u.toNat = p ∧ p < 0x10000 ∨ 0xD800 ≤ u.toNat := by
  have hcode := mem_map_of_mem (f := UInt16.toNat) hu
  rw [code_unitsOfPoint hp] at hcode
  split at hcode
  · next hsmall => exact .inl ⟨mem_singleton.mp hcode, hsmall⟩
  · simp only [mem_cons, not_mem_nil, or_false] at hcode
    omega

theorem units_ne_nil {points : List ℕ} (h : points ≠ []) : points.flatMap unitsOfPoint ≠ [] := by
  cases points with
  | nil => contradiction
  | cons c points =>
    intro hnil
    have hfirst : unitsOfPoint c = [] := (append_eq_nil_iff.mp hnil).1
    unfold unitsOfPoint at hfirst
    split at hfirst <;> cases hfirst

theorem point_of_mem (hp : p.encodable) {c : ℕ} (hc : c ∈ p.points) : c < 0x110000 := by
  have hpoint := all_eq_true.mp hp c hc
  simp only [Bool.and_eq_true, decide_eq_true_eq] at hpoint
  exact hpoint.1

/-- The segments of a name on the server. -/
theorem splitOn_utf16 (hp : p.encodable) :
    p.utf16.units.splitOn 47 = (p.points.splitOn 47).map (·.flatMap unitsOfPoint) := by
  apply splitOn_flatMap unitsOfPoint_slash
  intro c hc hne hmem
  obtain ⟨heq, -⟩ | hlarge := toNat_mem_unitsOfPoint (point_of_mem hp hc) hmem
  · exact hne heq.symm
  · exact absurd hlarge (by decide)

section

variable (h : pathParts p = some parts)
include h

/-- The server lets a worker's name through, if it is short enough. -/
theorem path_utf16 (hcount : p.utf16.count ≤ 512)
    (hpolicy : host.workspacePath p.utf16 = some ("/" ++ p.utf16)) : Files.path host p.utf16 := by
  obtain ⟨hlen, hcontrol, hencodable, hparts, hsegments⟩ := pathParts_eq_some h
  have hunit : ∀ u ∈ p.utf16.units, ∃ c ∈ p.points, u.toNat = c ∧ c < 0x10000 ∨ 0xD800 ≤ u.toNat := by
    intro u hu
    obtain ⟨c, hc, hu⟩ := mem_flatMap.mp hu
    exact ⟨c, hc, toNat_mem_unitsOfPoint (point_of_mem hencodable hc) hu⟩
  have hhead : p.utf16.code.head? ≠ some 47 := by
    intro hhead
    obtain ⟨units, hunits⟩ : ∃ rest, p.utf16.units = 47 :: rest := by
      unfold JavaString.code at hhead
      cases hunits : p.utf16.units with
      | nil =>
        rw [hunits] at hhead
        cases hhead
      | cons u rest =>
        rw [hunits] at hhead
        have hu : u.toNat = (47 : UInt16).toNat := some.inj hhead
        exact ⟨rest, by rw [UInt16.toNat.inj hu]⟩
    have hempty : [] ∈ p.utf16.units.splitOn 47 := by
      rw [hunits, splitOn_cons_eq_if_modifyHead]
      simp
    rw [splitOn_utf16 hencodable, ← hparts] at hempty
    obtain ⟨segment, hsegment, hnil⟩ := mem_map.mp hempty
    exact units_ne_nil (hsegments segment hsegment) hnil
  have hcode : p.utf16.code.any Files.isControl = false := by
    rw [List.any_eq_false] at hcontrol ⊢
    intro n hn hbad
    obtain ⟨u, hu, rfl⟩ := mem_map.mp hn
    simp only [Files.isControl, Bool.or_eq_true, decide_eq_true_eq] at hbad
    obtain ⟨c, hc, ⟨heq, -⟩ | hlarge⟩ := hunit u hu
    · have hgood := hcontrol c hc
      simp only [isControl, Bool.or_eq_true, Bool.and_eq_true, decide_eq_true_eq] at hgood
      omega
    · omega
  simp only [Files.path, Bool.and_eq_true, decide_eq_true_eq, Bool.not_eq_true']
  exact ⟨⟨⟨⟨hlen.trans (len_le_count p), hcount⟩, hhead⟩, hcode⟩, hpolicy⟩

theorem parents_utf16 : Files.parents p.utf16 = (parents parts).map utf16 := by
  obtain ⟨-, -, hencodable, hparts, hsegments⟩ := pathParts_eq_some h
  have hsplit : Files.split p.utf16 = parts.map (·.flatMap unitsOfPoint) := by
    unfold Files.split
    rw [splitOn_utf16 hencodable, ← hparts, rdropWhile_eq_self_iff]
    intro hne hlast
    obtain ⟨segment, hsegment, heq⟩ := mem_map.mp (getLast_mem hne)
    rw [← heq] at hlast
    exact units_ne_nil (hsegments segment hsegment) (isEmpty_iff.mp hlast)
  calc
    Files.parents p.utf16 =
        (leading 47 (parts.map (·.flatMap unitsOfPoint))).map JavaString.mk := by
      rw [Files.parents, hsplit, running_dropLast]
    _ = (parents parts).map utf16 := by
      rw [leading_flatMap unitsOfPoint_slash, parents, List.map_map, List.map_map]
      rfl

theorem parents_encodable {q : PyString} (hq : q ∈ parents parts) : q.encodable := by
  obtain ⟨-, -, hencodable, hparts, -⟩ := pathParts_eq_some h
  obtain ⟨points, hpoints, rfl⟩ := mem_map.mp hq
  rw [hparts] at hpoints
  have hleading := prefix_of_mem_leading 47 hpoints
  apply all_eq_true.mpr
  exact fun c hc ↦ all_eq_true.mp hencodable c (hleading.subset hc)

end

theorem deliverable_utf16 (h : isDeliverable p) : Files.isDeliverable p.utf16 := by
  obtain ⟨rest, hrest⟩ := isPrefixOf_iff_prefix.mp h
  apply isPrefixOf_iff_prefix.mpr
  refine ⟨rest.flatMap unitsOfPoint, ?_⟩
  rw [utf16, ← hrest, flatMap_append]
  rfl

/-- The policy for paths lets a name of the worker through. -/
def Permits (host : Host U) : Prop :=
  ∀ p parts, Inputs.pathParts p = some parts → host.workspacePath p.utf16 = some ("/" ++ p.utf16)

variable {s' : ℤ × List PyString}

/-- What the worker has made sure of for each file. -/
structure Checked (host : Host U) (files : FileMap PyString) : Prop where
  named : ∀ e ∈ files, ∃ parts, Inputs.pathParts e.1 = some parts
  read : ∀ e ∈ files, ∀ file ∈ e.2, ∃ data, Inputs.fileBytes host.digest (some file) = some data

section

variable (hpermits : Permits host) {selected : List PyString} {s : ℤ × List PyString}
include hpermits

theorem checkFile_utf16 {e : PyString × Option (File PyString)}
    (h : checkFile host.digest selected s e = some s') (hcount : e.1.utf16.count ≤ 512) :
    (∃ parts, pathParts e.1 = some parts) ∧
      s'.2 = (if e.2.isSome then s.2.insert e.1 else s.2.filter (· ≠ e.1)) ∧
      (∀ file ∈ e.2, ∃ data, fileBytes host.digest (some file) = some data) ∧
      Files.checkFile host (selected.map utf16) s.1
        (e.1.utf16, e.2.map (File.map utf16)) = some s'.1 := by
  obtain ⟨parts, hparts, h⟩ := bind_eq_some_iff.mp h
  split at h
  · cases h
  · next hallowed =>
    have hallowed : e.1 ∈ selected ∨ e.2.isSome ∧ isDeliverable e.1 := by
      by_contra hnot
      exact hallowed (not_or.mp hnot)
    obtain ⟨p, file⟩ := e
    have hchecks : (Files.path host p.utf16 &&
        (decide (p.utf16 ∈ selected.map utf16) ||
          ((file.map (File.map utf16)).isSome && Files.isDeliverable p.utf16))) := by
      rw [path_utf16 hparts hcount (hpermits p parts hparts), Bool.true_and, Bool.or_eq_true]
      obtain hmem | ⟨hfile, hdeliverable⟩ := hallowed
      · exact .inl (decide_eq_true (mem_map_of_mem hmem))
      · right
        rw [isSome_map, deliverable_utf16 hdeliverable, Bool.and_true]
        exact hfile
    obtain ⟨s₁, hstep, h⟩ := bind_eq_some_iff.mp h
    split at h
    · cases h
    · next hfits =>
      cases h
      rw [Files.checkFile, if_pos hchecks]
      cases file with
      | none =>
        cases hstep
        exact ⟨⟨parts, hparts⟩, rfl, by simp, rfl⟩
      | some file =>
        obtain ⟨data, hdata, hstep⟩ := bind_eq_some_iff.mp hstep
        cases hstep
        refine ⟨⟨parts, hparts⟩, rfl, ?_, ?_⟩
        · rintro _ ⟨⟩
          exact ⟨data, hdata⟩
        · simp only [map_some, (fileBytes_utf16 hdata).2, bind_eq_bind, bind_some]
          exact if_pos (not_lt.mp hfits)

theorem checkFiles_utf16 {files : FileMap PyString}
    (h : files.foldlM (checkFile host.digest selected) s = some s')
    (hcount : ∀ e ∈ files, e.1.utf16.count ≤ 512) : Checked host files ∧
      (Files.mapFiles utf16 files).foldlM
        (Files.checkFile host (selected.map utf16)) s.1 = some s'.1 := by
  induction files generalizing s with
  | nil =>
    cases h
    exact ⟨⟨by simp, by simp⟩, rfl⟩
  | cons e files ih =>
    obtain ⟨he, hfiles⟩ := forall_mem_cons.mp hcount
    obtain ⟨s₁, hs₁, h⟩ := bind_eq_some_iff.mp h
    obtain ⟨hnamed, -, hread, hchecked⟩ := checkFile_utf16 hpermits hs₁ he
    obtain ⟨hrest, htotal⟩ := ih h hfiles
    refine ⟨⟨?_, ?_⟩, ?_⟩
    · exact forall_mem_cons.mpr ⟨hnamed, hrest.named⟩
    · exact forall_mem_cons.mpr ⟨hread, hrest.read⟩
    · rw [Files.mapFiles, map_cons, foldlM_cons, hchecked]
      exact htotal

/-- A file is there if it has been written, or was there and has not been deleted. -/
theorem mem_written {files : FileMap PyString}
    (h : files.foldlM (checkFile host.digest selected) s = some s')
    (hcount : ∀ e ∈ files, e.1.utf16.count ≤ 512) (hdict : (files.map Prod.fst).Nodup)
    (hp : p ∈ s.2 ∧ (p, none) ∉ files ∨ ∃ file, (p, some file) ∈ files) : p ∈ s'.2 := by
  induction files generalizing s with
  | nil =>
    cases h
    obtain ⟨hp, -⟩ | ⟨file, hfile⟩ := hp
    · exact hp
    · cases hfile
  | cons e files ih =>
    obtain ⟨he, hfiles⟩ := forall_mem_cons.mp hcount
    obtain ⟨hnew, hdict⟩ := nodup_cons.mp hdict
    obtain ⟨s₁, hs₁, h⟩ := bind_eq_some_iff.mp h
    obtain ⟨-, hwritten, -, -⟩ := checkFile_utf16 hpermits hs₁ he
    apply ih h hfiles hdict
    obtain ⟨hold, hkept⟩ | ⟨file, hfile⟩ := hp
    · simp only [mem_cons, not_or] at hkept
      refine .inl ⟨?_, hkept.2⟩
      rw [hwritten]
      split
      · exact mem_insert_of_mem hold
      · next hnone =>
        have hne : p ≠ e.1 := by
          rintro rfl
          exact hkept.1 (Prod.ext rfl (not_isSome_iff_eq_none.mp hnone).symm)
        simpa [hold] using hne
    · obtain heq | hfile := mem_cons.mp hfile
      · left
        cases heq
        refine ⟨?_, fun hnone ↦ hnew (mem_map.mpr ⟨_, hnone, rfl⟩)⟩
        rw [hwritten]
        exact mem_insert_self
      · exact .inr ⟨file, hfile⟩

end

theorem wire_keyword (s : JavaString) : (Files.keyword s).wire = s := by
  unfold Files.keyword
  split
  · rfl
  · next hslash =>
    rw [not_or, not_not] at hslash
    obtain ⟨units⟩ := s
    have hne : units.dropWhile (· ≠ 47) ≠ [] := by
      intro hnil
      have hall := dropWhile_eq_nil_iff.mp hnil 47 hslash.1
      simp at hall
    have hhead := head_dropWhile_not (fun u : UInt16 ↦ decide (u ≠ 47)) hne
    have hsplit : units.dropWhile (· ≠ 47) = 47 :: (units.dropWhile (· ≠ 47)).tail := by
      conv_lhs => rw [← cons_head_tail hne]
      have h47 : (units.dropWhile (· ≠ 47)).head hne = 47 := by simpa using hhead
      rw [h47]
    change JavaString.mk (units.takeWhile (· ≠ 47) ++ [47] ++ _) = _
    rw [append_assoc, singleton_append, ← hsplit, takeWhile_append_dropWhile]

theorem keyword_eq (s : JavaString) : ∃ ns name, Files.keyword s = .keyword ns name := by
  unfold Files.keyword
  split
  · exact ⟨none, s, rfl⟩
  · exact ⟨_, _, rfl⟩

theorem transport_files {l : List (Key × Option (File JavaString))} (out : FileMap JavaString)
    (h : (out.map Prod.fst ++ l.map (·.1.wire)).Nodup) :
    l.foldlM (fun (out : FileMap JavaString) e ↦
        if e.1.wire ∈ out.map Prod.fst then none else some (out ++ [(e.1.wire, e.2)])) out =
      some (out ++ l.map fun e ↦ (e.1.wire, e.2)) := by
  induction l generalizing out with
  | nil => simp
  | cons e l ih =>
    have hnew : e.1.wire ∉ out.map Prod.fst := by
      intro hmem
      exact (nodup_append.mp h).2.2 _ hmem _ (mem_cons_self ..) rfl
    have hrest : ((out ++ [(e.1.wire, e.2)]).map Prod.fst ++ l.map (·.1.wire)).Nodup := by
      simpa using h
    rw [foldlM_cons, if_neg hnew]
    simp only [bind_eq_bind, bind_some]
    rw [ih _ hrest]
    simp

theorem named_encodable (h : ∃ parts, pathParts p = some parts) : p.encodable := by
  obtain ⟨parts, hparts⟩ := h
  exact (pathParts_eq_some hparts).2.2.1

/-- The worker's last check is the server's last check. -/
theorem separate_utf16 {present : List PyString} {written : List JavaString}
    (hpresent : separate present)
    (hwritten : ∀ q ∈ written, ∃ p ∈ present, p.utf16 = q) : Files.separate written := by
  simp only [separate, List.all_eq_true, Option.any_eq_true] at hpresent
  simp only [Files.separate, List.all_eq_true, decide_eq_true_eq]
  intro q hq parent hparent hcollision
  obtain ⟨p, hp, rfl⟩ := hwritten q hq
  obtain ⟨parts, hparts, hfree⟩ := hpresent p hp
  rw [parents_utf16 hparts] at hparent
  obtain ⟨r, hr, rfl⟩ := mem_map.mp hparent
  obtain ⟨p', hp', heq⟩ := hwritten _ hcollision
  obtain ⟨parts', hparts', -⟩ := hpresent p' hp'
  have hsame : p' = r := utf16_injective (named_encodable ⟨parts', hparts'⟩)
    (parents_encodable hparts hr) heq
  exact of_decide_eq_true (hfree r hr) (hsame ▸ hp')

/-- What an output needs beside the checks: short enough texts. -/
structure Short (output : Output PyString) : Prop where
  summary : output.summary.utf16.count ≤ 16000
  names : ∀ e ∈ output.files, e.1.utf16.count ≤ 512

section Output

variable {frozen : Frozen PyString PyString} {config : Config PyString} {output : Output PyString}

theorem schema_utf16 (hshort : Short output) (hchecked : Checked host output.files)
    (hfiles : (output.files.length : ℤ) ≤ Files.policy.maxFiles)
    (hlower : 0 ≤ output.exitCode) (hupper : output.exitCode ≤ 255) :
    Files.outputSchema (output.map utf16) ∧ Files.transportSchema (Files.decoded output) := by
  have hlength : output.files.length ≤ 100 := by
    have hmax : Files.policy.maxFiles = 100 := rfl
    omega
  have hschema : ∀ e ∈ output.files, (e.2.map (File.map utf16)).all Files.fileSchema := by
    intro e he
    cases hfile : e.2 with
    | none => rfl
    | some file =>
      obtain ⟨data, hdata⟩ := hchecked.read e he file hfile
      exact (fileBytes_utf16 hdata).1
  constructor
  · simp only [Files.outputSchema, Output.map, Files.mapFiles, Bool.and_eq_true, decide_eq_true_eq,
      List.all_eq_true, List.length_map, List.forall_mem_map]
    refine ⟨⟨⟨⟨hlength, fun e he ↦ ⟨⟨?_, hshort.names e he⟩, hschema e he⟩⟩,
      decide_eq_true hshort.summary⟩, decide_eq_true hlower⟩, decide_eq_true hupper⟩
    obtain ⟨parts, hparts⟩ := hchecked.named e he
    exact (pathParts_eq_some hparts).1.trans (len_le_count e.1)
  · simp only [Files.transportSchema, Files.decoded, Bool.and_eq_true, decide_eq_true_eq,
      List.all_eq_true, List.length_map, List.forall_mem_map]
    refine ⟨⟨⟨⟨hlength, fun e he ↦ ⟨?_, hschema e he⟩⟩, decide_eq_true hshort.summary⟩,
      decide_eq_true hlower⟩, decide_eq_true hupper⟩
    obtain ⟨ns, name, hkeyword⟩ := keyword_eq e.1.utf16
    rw [hkeyword]

theorem transportOutput_decoded (hchecked : Checked host output.files)
    (hdict : (output.files.map Prod.fst).Nodup)
    (hschema : Files.transportSchema (Files.decoded output)) :
    Files.transportOutput (Files.decoded output) = some (output.map utf16) := by
  have hnames : (output.files.map fun e ↦ e.1.utf16).Nodup := by
    rw [show (output.files.map fun e ↦ e.1.utf16) = (output.files.map Prod.fst).map utf16 by
      rw [List.map_map]; rfl]
    apply hdict.map_on
    intro p hp q hq
    obtain ⟨e, he, rfl⟩ := mem_map.mp hp
    obtain ⟨e', he', rfl⟩ := mem_map.mp hq
    exact utf16_injective (named_encodable (hchecked.named e he))
      (named_encodable (hchecked.named e' he'))
  have hfold := transport_files (l := (Files.decoded output).files) [] (by
    simpa [Files.decoded, wire_keyword, comp_def] using hnames)
  rw [Files.transportOutput, if_pos hschema, hfold]
  simp [Files.decoded, wire_keyword, comp_def, Output.map, Files.mapFiles]

/-- An output that the worker accepts is accepted by the server, and is the same. -/
theorem output_accepted (hpermits : Permits host)
    (hvalid : validate host.digest frozen config output)
    (hdict : (output.files.map Prod.fst).Nodup) (hshort : Short output) :
    Files.transportOutput (Files.decoded output) = some (output.map utf16) ∧
      Files.validateOutput host (Files.mapFiles utf16 frozen.files) (output.map utf16) ∧
      ∀ e ∈ output.files, ∀ file ∈ e.2, ∃ data, fileBytes host.digest (some file) = some data ∧
          Files.fileBytes host (file.map utf16) = some data := by
  simp only [Outputs.validate, Bool.and_eq_true, decide_eq_true_eq] at hvalid
  obtain ⟨⟨⟨⟨⟨⟨hfrozen, -⟩, hlower⟩, hupper⟩, hfiles⟩, -⟩, hfold⟩ := hvalid
  obtain ⟨s, hs, hseparate⟩ := (any_eq_true _ _).mp hfold
  obtain ⟨hchecked, htotal⟩ := checkFiles_utf16 hpermits hs hshort.names
  obtain ⟨hschema, htransport⟩ := schema_utf16 hshort hchecked hfiles hlower hupper
  refine ⟨transportOutput_decoded hchecked hdict htransport, ?_, ?_⟩
  · have hkeys : (Files.mapFiles utf16 frozen.files).map Prod.fst =
        (frozen.files.map Prod.fst).map utf16 := by
      simp [Files.mapFiles, comp_def]
    have hwritten : ∀ q ∈ Files.written ((frozen.files.map Prod.fst).map utf16)
        (output.map utf16).files, ∃ p ∈ s.2, p.utf16 = q := by
      intro q hq
      simp only [Files.written, mem_filter, decide_eq_true_eq, mem_append] at hq
      obtain ⟨hpresent, hkept⟩ := hq
      obtain hold | hnew := hpresent
      · obtain ⟨p, hp, rfl⟩ := mem_map.mp hold
        refine ⟨p, mem_written hpermits hs hshort.names hdict (.inl ⟨hp, fun hdeleted ↦ ?_⟩), rfl⟩
        apply hkept
        refine mem_map.mpr ⟨(p.utf16, none), mem_filter.mpr ⟨?_, rfl⟩, rfl⟩
        exact mem_map.mpr ⟨(p, none), hdeleted, rfl⟩
      · obtain ⟨e, he, rfl⟩ := mem_map.mp hnew
        obtain ⟨he, hsome⟩ := mem_filter.mp he
        obtain ⟨⟨p, file⟩, hp, rfl⟩ := mem_map.mp he
        cases file with
        | none => cases hsome
        | some file =>
          exact ⟨p, mem_written hpermits hs hshort.names hdict (.inr ⟨file, hp⟩), rfl⟩
    simp only [Files.validateOutput, Bool.and_eq_true, hkeys]
    exact ⟨⟨hschema, by rw [Output.map, htotal]; rfl⟩, separate_utf16 hseparate hwritten⟩
  · intro e he file hfile
    obtain ⟨data, hdata⟩ := hchecked.read e he file hfile
    exact ⟨data, hdata, (fileBytes_utf16 hdata).2⟩

theorem collected_valid {digest : List UInt8 → List UInt8} {root : Outputs.Node}
    {summary : PyString} {exitCode : ℤ}
    (h : collect digest root frozen config summary exitCode = some output) :
    validate digest frozen config output := by
  unfold collect at h
  rw [ite_none_right_eq_some] at h
  obtain ⟨chosen, -, h⟩ := bind_eq_some_iff.mp h.2
  obtain ⟨c, -, h⟩ := bind_eq_some_iff.mp h
  exact (filter_eq_some_iff.mp h).2

end Output

end Host

end Simmis.Workers.Agreement
