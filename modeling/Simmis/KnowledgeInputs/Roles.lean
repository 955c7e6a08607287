import Simmis.KnowledgeInputs.Policy

/-!
# Roles of paths

No path is both a trigger and context. Under a policy of version 2, no target of the output triggers
the workflow. Under one of version 1, a folder below `wiki` may be a trigger root, and then a target
does.
-/

namespace Simmis.KnowledgeInputs

open Documents List View Text

variable {R : Type} {host : View.Host R} {policy : Policy} {path : String}

theorem startsWith_folder {root : String} :
    startsWith path (folder root) ↔ root = "" ∨ IsAbove root path := by
  unfold folder
  split
  · rename_i hempty
    simp [startsWith, hempty]
  · rename_i hne
    rw [startsWith_iff]
    exact ⟨.inr, fun h ↦ h.resolve_left hne⟩

theorem within_iff {roots : List String} :
    within roots path ↔ ∃ root ∈ roots, root = "" ∨ IsAbove root path := by
  unfold within
  rw [any_eq_true]
  simp only [startsWith_folder]

theorem rolePath_iff {role : Role} : rolePath policy role path ↔
    within (policy.roots role) path ∧ ¬ within policy.excludedRoots path ∧
      (role = .trigger ∨ policy.version = 1 ∨ ¬ within policy.triggerRoots path) := by
  unfold rolePath
  simp only [Bool.and_eq_true, Bool.or_eq_true, Bool.not_eq_true', decide_eq_true_eq, and_assoc,
    or_assoc, Bool.not_eq_true]

theorem Policy.Accepted.version (h : policy.Accepted host) :
    policy.version = 1 ∨ policy.version = 2 := by
  obtain hfits | hfits := h.fits
  · unfold fitsV1 at hfits
    rw [decide_eq_true_eq] at hfits
    exact .inl hfits.1
  · unfold fitsV2 at hfits
    rw [decide_eq_true_eq] at hfits
    exact .inr hfits.1

/-- No path has both roles. -/
theorem Policy.Accepted.roles_disjoint (h : policy.Accepted host) (path : String) :
    ¬ (rolePath policy .trigger path ∧ rolePath policy .context path) := by
  rintro ⟨htrigger, hcontext⟩
  have htriggers := (rolePath_iff.mp htrigger).1
  obtain ⟨hcontexts, -, hrole⟩ := rolePath_iff.mp hcontext
  obtain hrole | hversion | hnot := hrole
  · cases hrole
  · obtain ⟨a, ha, hstart⟩ := any_eq_true.mp htriggers
    obtain ⟨b, hb, hstart'⟩ := any_eq_true.mp hcontexts
    apply h.disjoint hversion a ha b hb
    unfold startsWith at hstart hstart'
    rw [ isPrefixOf_iff_prefix] at hstart hstart'
    unfold overlap startsWith
    rw [Bool.or_eq_true, isPrefixOf_iff_prefix, isPrefixOf_iff_prefix]
    exact ( prefix_or_prefix_of_prefix hstart hstart').symm
  · exact hnot htriggers

/-- Under a policy of version 2, a target is no trigger. -/
theorem Policy.Output.not_trigger {scope : Scope} (h : policy.Output host scope)
    (hpath : scope.Admits host path) : rolePath policy .trigger path = false := by
  rw [← Bool.not_eq_true, rolePath_iff]
  rintro ⟨htrigger, -⟩
  obtain ⟨root, hroot, hempty | habove⟩ := within_iff.mp htrigger
  · exact h.root (hempty ▸ hroot)
  · have hmeets : (containsPath scope.destinationRoot root ||
        containsPath root scope.destinationRoot) := by
      rw [Bool.or_eq_true, containsPath_iff, containsPath_iff]
      obtain hbelow | hempty := hpath.below
      · obtain heq | hab | hba := isAbove_total habove hbelow
        · exact .inr (.inr (.inl heq))
        · exact .inr (.inr (.inr hab))
        · exact .inl (.inr (.inr hba))
      · exact .inl (.inl hempty)
    have hprotected := h.isProtected root (mem_append_left _ hroot)
    obtain ⟨exclusion, hexclusion, hcontains⟩ :=
      any_eq_true.mp (of_decide_eq_true hprotected hmeets)
    apply hpath.free exclusion hexclusion
    rw [containsPath_iff] at hcontains ⊢
    obtain hempty | rfl | hab := hcontains
    · exact .inl hempty
    · exact .inr (.inr habove)
    · exact .inr (.inr (hab.trans habove))

/-- An exact relative path, before the workspace is asked. -/
def isExact (path : String) : Bool :=
  1 ≤ Text.count path ∧ Text.count path ≤ 512 ∧ ¬ View.hasForbidden path ∧
    (Text.segments path).all (View.isSegment [".", ".."])

theorem isPath_iff : isPath host path ↔ isExact path ∧ "/" ++ path = host.workspacePath path := by
  unfold isPath isExact
  simp only [decide_eq_true_eq, and_assoc]

theorem withoutLineEnd_append (l rest : List Char) : ∃ l' : List Char,
    withoutLineEnd (l ++ '/' :: rest) = l' ++ '/' :: rest ∧ l'.length ≤ l.length := by
  unfold withoutLineEnd
  split
  · rename_i reversed tail heq
    match l with
    | [] => cases heq
    | [_] => cases heq
    | _ :: _ :: l =>
      cases heq
      refine ⟨l, rfl, ?_⟩
      rw [length_cons, length_cons]
      omega
  · rename_i reversed c tail hno heq
    match l with
    | [] =>
      cases heq
      exact ⟨[], rfl, le_rfl⟩
    | c :: l =>
      cases heq
      split
      · exact ⟨l, rfl, by simp⟩
      · exact ⟨_ :: l, rfl, le_rfl⟩
  · rename_i heq
    simp at heq

/-- The name of a Markdown file has three characters at least. -/
theorem length_of_isMarkdown {root name : String}
    (h : isMarkdown (root ++ "/" ++ name)) : 3 ≤ name.toList.length := by
  by_contra hshort
  have hreverse : (root ++ "/" ++ name).toList.reverse =
      name.toList.reverse ++ '/' :: root.toList.reverse := by
    rw [toList_below, reverse_append, reverse_cons, append_assoc]
    rfl
  obtain ⟨l, hl, hlength⟩ := withoutLineEnd_append name.toList.reverse root.toList.reverse
  rw [length_reverse] at hlength
  unfold isMarkdown at h
  rw [hreverse, hl] at h
  obtain ⟨extension, hextension, hprefix⟩ := any_eq_true.mp h
  obtain ⟨tail, htail⟩ := isPrefixOf_iff_prefix.mp hprefix
  -- The slash would stand within the extension.
  have hlong : l.length < extension.toList.reverse.length := by
    have hthree : ∀ e ∈ [".md", ".markdown"], 3 ≤ e.toList.reverse.length := by decide
    have hextension := hthree extension hextension
    omega
  have hslash : '/' ∈ extension.toList.reverse := by
    have hget := congrArg (·[l.length]?) htail
    simp only [getElem?_append_left hlong, map_append, map_cons] at hget
    rw [getElem?_append_right (by simp)] at hget
    apply mem_of_getElem? (i := l.length)
    rw [hget]
    simp
  have hnone : ∀ e ∈ [".md", ".markdown"], '/' ∉ e.toList.reverse := by decide
  exact hnone extension hextension hslash

/-- The Markdown file with the shortest name in a folder. -/
def shortest (root : String) : String := root ++ "/.md"

theorem shortest_eq (root : String) : shortest root = root ++ "/" ++ ".md" := by
  rw [String.append_assoc]
  rfl

theorem isMarkdown_shortest (root : String) : isMarkdown (shortest root) := by
  have hreverse : (shortest root).toList.reverse =
      'd' :: 'm' :: '.' :: '/' :: root.toList.reverse := by
    rw [shortest_eq, toList_below, reverse_append, reverse_cons, append_assoc]
    rfl
  unfold isMarkdown
  rw [hreverse]
  simp [withoutLineEnd]

theorem isExact_shortest {root : String} (h : isExact root) (hcount : Text.count root ≤ 508) :
    isExact (shortest root) := by
  unfold isExact at *
  rw [decide_eq_true_eq] at *
  obtain ⟨hlow, -, hforbidden, hsegments⟩ := h
  have hlength : Text.count (shortest root) = Text.count root + 4 := by
    unfold shortest
    rw [count_append]
    rfl
  refine ⟨by omega, by omega, ?_, ?_⟩
  · unfold hasForbidden at *
    unfold shortest
    rw [String.toList_append, any_append, Bool.or_eq_true]
    rintro (hleft | hright)
    · exact hforbidden hleft
    · revert hright
      decide
  · unfold segments at *
    rw [shortest_eq, toList_below, splitOn_append_cons_self, map_append, all_append, hsegments]
    decide

/-- Every trigger root at or below `wiki` is excluded, or too long for a file. -/
def outputSafe (policy : Policy) : Bool :=
  policy.version = 2 ∨ ∀ root ∈ policy.triggerRoots, containsPath "wiki" root →
    (∃ exclusion ∈ policy.excludePrefixes, containsPath exclusion root) ∨ 508 < Text.count root

theorem containsPath_wiki {root : String} :
    containsPath "wiki" root ↔ root = "wiki" ∨ IsAbove "wiki" root := by
  rw [containsPath_iff, eq_comm (a := root)]
  exact or_iff_right (by decide)

theorem Policy.Accepted.trigger_ne_empty (h : policy.Accepted host) {root : String}
    (hroot : root ∈ policy.triggerRoots) : root ≠ "" := by
  have hroots : isRoots 1 16 1 policy.triggerRoots := by
    obtain hfits | hfits := h.fits
    · unfold fitsV1 at hfits
      rw [decide_eq_true_eq] at hfits
      exact hfits.2.1
    · unfold fitsV2 at hfits
      rw [decide_eq_true_eq] at hfits
      exact hfits.2.1
  unfold isRoots at hroots
  rw [decide_eq_true_eq] at hroots
  have hbounded := all_eq_true.mp hroots.2.2 root hroot
  rintro rfl
  revert hbounded
  decide

/-- Under version 1 a target is a trigger unless the policy is safe. -/
theorem Policy.Accepted.trigger_v1 (h : policy.Accepted host) (hversion : policy.version = 1)
    (hworkspace : ∀ path, isExact path → host.workspacePath path = "/" ++ path) :
    (∀ path, Admissible host none path → rolePath policy .trigger path = false) ↔
      outputSafe policy := by
  have hexcluded : policy.excludedRoots = policy.excludePrefixes := by
    unfold excludedRoots
    rw [hversion]
    exact append_nil _
  unfold outputSafe
  rw [decide_eq_true_eq, hversion]
  constructor
  · intro hsafe
    right
    intro root hroot hwiki
    by_contra hnot
    rw [not_or, not_lt] at hnot
    obtain ⟨hnone, hcount⟩ := hnot
    have hexact := (isPath_iff.mp ((h.triggers root hroot).resolve_left (h.trigger_ne_empty hroot))).1
    have hshort := isExact_shortest hexact hcount
    have habove : IsAbove root (shortest root) := ⟨".md", shortest_eq root⟩
    have hbelow : IsAbove "wiki" (shortest root) := by
      obtain rfl | hab := containsPath_wiki.mp hwiki
      · exact habove
      · exact hab.trans habove
    have hnot := hsafe (shortest root)
      ⟨isPath_iff.mpr ⟨hshort, (hworkspace _ hshort).symm⟩, hbelow, isMarkdown_shortest root⟩
    rw [← Bool.not_eq_true, rolePath_iff] at hnot
    refine hnot ⟨within_iff.mpr ⟨root, hroot, .inr habove⟩, ?_, .inl rfl⟩
    rw [hexcluded, within_iff]
    rintro ⟨exclusion, hexclusion, hempty | habove'⟩
    · exact hnone ⟨exclusion, hexclusion, containsPath_iff.mpr (.inl hempty)⟩
    · obtain rfl | hab | hba := isAbove_total habove' habove
      · exact hnone ⟨exclusion, hexclusion, containsPath_iff.mpr (.inr (.inl rfl))⟩
      · exact hnone ⟨exclusion, hexclusion, containsPath_iff.mpr (.inr (.inr hab))⟩
      · obtain ⟨rest, rfl⟩ := hba
        obtain ⟨rest', hrest'⟩ := isAbove_iff.mp habove'
        rw [shortest_eq, toList_below, toList_below, append_assoc,
          append_cancel_left_eq, cons_append, cons.injEq] at hrest'
        have hslash : '/' ∈ ".md".toList := by
          rw [hrest'.2]
          simp
        revert hslash
        decide
  · rintro (hversion' | hsafe) path ⟨hpath, hbelow, hmarkdown⟩
    · cases hversion'
    · rw [← Bool.not_eq_true, rolePath_iff]
      rintro ⟨htrigger, hnot, -⟩
      rw [hexcluded, within_iff] at hnot
      obtain ⟨root, hroot, hempty | habove⟩ := within_iff.mp htrigger
      · exact h.trigger_ne_empty hroot hempty
      · have hwiki : containsPath "wiki" root := by
          obtain heq | hab | hba := isAbove_total habove hbelow
          · exact containsPath_wiki.mpr (.inl heq)
          · exact absurd hab (not_isAbove_wiki root)
          · exact containsPath_wiki.mpr (.inr hba)
        obtain ⟨exclusion, hexclusion, hcontains⟩ | hlong := hsafe root hroot hwiki
        · apply hnot
          obtain hempty | rfl | hab := containsPath_iff.mp hcontains
          · exact ⟨exclusion, hexclusion, .inl hempty⟩
          · exact ⟨exclusion, hexclusion, .inr habove⟩
          · exact ⟨exclusion, hexclusion, .inr (hab.trans habove)⟩
        · obtain ⟨name, rfl⟩ := habove
          have hname := length_of_isMarkdown hmarkdown
          have hcount := (isPath_iff.mp hpath).1
          unfold isExact at hcount
          rw [decide_eq_true_eq, count_append, count_append] at hcount
          have hname' := length_le_count name
          have hslash : Text.count "/" = 1 := by decide
          omega

end Simmis.KnowledgeInputs
