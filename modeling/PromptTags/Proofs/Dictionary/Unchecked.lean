import PromptTags.Proofs.Dictionary.Reported
import PromptTags.Proofs.Tag.Leaves
import PromptTags.Proofs.Yaml.Vacant

/-! Documents that are skipped before they are read. A document without content is one whose lines hold nothing
but white space and comments. The reader has a notion of lines and of white space of its own, and it finds
nothing in such a document exactly if the two notions agree on each line. -/
namespace PromptTags

/-! ### Lines -/

namespace Yaml

open Text (split join chompReturn)

variable {pieces : List Text} {piece t : Text}

theorem allVoid_join : AllVoid (join ['\n'] pieces) ↔ ∀ piece ∈ pieces, AllVoid piece := by
  induction pieces with
  | nil => simp [join, List.intercalate]
  | cons p ps ih =>
    cases ps with
    | nil => simp [join, List.intercalate]
    | cons q qs =>
      have hjoin : join ['\n'] (p :: q :: qs) = p ++ '\n' :: join ['\n'] (q :: qs) := by
        simp [join, List.intercalate]
      rw [hjoin, allVoid_append_cons (by decide), ih, List.forall_mem_cons (l := q :: qs)]

theorem allVoid_chompReturn : AllVoid (chompReturn piece) ↔ AllVoid piece := by
  rw [chompReturn]
  split
  · next hlast =>
    obtain ⟨before, rfl⟩ := List.getLast?_eq_some_iff.1 hlast
    rw [List.dropLast_concat, allVoid_append_cons (by decide)]
    simp
  · rfl

/-- To divide a text at newlines is not to divide it at all line breaks, but the reader passes over a text if
and only if it passes over each of the lines. -/
theorem allVoid_iff_forall_lines : AllVoid t ↔ ∀ line ∈ Text.lines t, AllVoid line := by
  conv => lhs; rw [← Text.join_split '\n' t]
  rw [allVoid_join, Text.lines]
  obtain ⟨pieces, last, hsplit⟩ := (List.eq_nil_or_concat _).resolve_left (Text.split_ne_nil '\n' t)
  rw [List.concat_eq_append] at hsplit
  have hchomped : (∀ line ∈ pieces.map chompReturn, AllVoid line) ↔ ∀ piece ∈ pieces, AllVoid piece := by
    simp [allVoid_chompReturn]
  rw [hsplit]
  simp only [List.getLast?_concat, List.dropLast_concat]
  cases last with
  | nil =>
    rw [hchomped, List.forall_mem_append]
    simp only [List.forall_mem_singleton, Yaml.allVoid_nil, and_true]
  | cons c cs => rw [List.forall_mem_append, List.forall_mem_append, hchomped]

end Yaml

/-! ### White space -/

namespace TagDocument

open Yaml (AllVoid isBreak isVoidLine isVoidRest)

variable {c : Char} {line front rest t : Text}

theorem trimEnd_cons (hc : Text.isBlank c = false) (cs : Text) : ∃ ds, Text.trimEnd (c :: cs) = c :: ds := by
  rw [Text.trimEnd, List.reverse_cons, List.dropWhile_append]
  split
  · exact ⟨[], by simp [hc]⟩
  · exact ⟨((cs.reverse).dropWhile Text.isBlank).reverse, by simp⟩

/-- Behind the white space in front of a line without content there is a comment or nothing. -/
theorem dropWhile_isBlank_of_not_lineHasContent (h : lineHasContent line = false) :
    line.dropWhile Text.isBlank = [] ∨ ∃ cs, line.dropWhile Text.isBlank = '#' :: cs := by
  cases hrest : line.dropWhile Text.isBlank with
  | nil => exact .inl rfl
  | cons c cs =>
    have hc : Text.isBlank c = false := by
      have hhead := List.head?_dropWhile_not Text.isBlank line
      rw [hrest] at hhead
      simpa using hhead
    obtain ⟨ds, hds⟩ := trimEnd_cons hc cs
    rw [lineHasContent, Text.trim, hrest, hds] at h
    have hsign : c = '#' := by simpa using h
    exact .inr ⟨cs, by rw [hsign]⟩

/-- The reader takes a line without content for what it is taken for here: all white space in front of its
comment consists of spaces and line breaks, and what follows a line break within the comment is void. -/
def isSeenAlike (line : Text) : Bool :=
  (line.takeWhile Text.isBlank).all (fun c => c = ' ' || isBreak c) &&
    (Yaml.lines (line.dropWhile Text.isBlank)).tail.all isVoidLine

theorem isVoidLine_cons_of_blank (hc : Text.isBlank c = true) {cs : Text}
    (hcs : cs.head? ≠ some Yaml.byteOrderMark) :
    isVoidLine (c :: cs) = true ↔ c = ' ' ∧ isVoidLine cs = true := by
  have hmark : c ≠ Yaml.byteOrderMark := by
    rintro rfl
    exact absurd hc (by decide)
  have hsign : c ≠ '#' := by
    rintro rfl
    exact absurd hc (by decide)
  have hline : isVoidLine cs = isVoidRest cs := by
    cases cs with
    | nil => rfl
    | cons d ds => exact if_neg fun hd => hcs (congrArg some hd)
  rw [isVoidLine, if_neg hmark, Yaml.isVoidRest_cons, hline]
  split
  · next hspace => simp [hspace]
  · next hspace => simp [hspace, hsign]

/-- White space in front of a comment or of the end. -/
theorem allVoid_append_iff (hfront : ∀ c ∈ front, Text.isBlank c = true)
    (hrest : rest = [] ∨ ∃ cs, rest = '#' :: cs) :
    AllVoid (front ++ rest) ↔
      (∀ c ∈ front, c = ' ' ∨ isBreak c = true) ∧
        ∀ piece ∈ (Yaml.lines rest).tail, isVoidLine piece = true := by
  induction front with
  | nil =>
    -- the line on which the comment starts is void
    rcases hrest with rfl | ⟨cs, rfl⟩
    · simp [Yaml.lines, List.splitOnP_nil]
    · obtain ⟨first, more, hlines⟩ := Yaml.exists_lines_eq_cons cs
      have hfirst : isVoidLine ('#' :: first) = true := by
        rw [isVoidLine, if_neg (by decide), Yaml.isVoidRest_cons, if_neg (by decide)]
        rfl
      rw [List.nil_append, AllVoid, Yaml.lines_cons (by decide) hlines, List.forall_mem_cons, List.tail_cons]
      simp [hfirst]
  | cons c front ih =>
    obtain ⟨hc, hfront⟩ := List.forall_mem_cons.1 hfront
    obtain ⟨first, more, hlines⟩ := Yaml.exists_lines_eq_cons (front ++ rest)
    rw [List.cons_append, List.forall_mem_cons, and_assoc, ← ih hfront, AllVoid, AllVoid, hlines]
    -- a line break adds a void line, and any other character stands at the front of the first line
    by_cases hbreak : isBreak c = true
    · rw [Yaml.lines_cons_of_break hbreak, hlines]
      simp [hbreak]
    · have hfirst : first.head? ≠ some Yaml.byteOrderMark := by
        intro hmark
        have hhead := Yaml.head?_of_lines hlines hmark
        -- neither white space nor the sign of a comment is the mark
        cases front with
        | nil => rcases hrest with rfl | ⟨cs, rfl⟩ <;> exact absurd hhead (by simp [Yaml.byteOrderMark])
        | cons d ds =>
          obtain rfl := Option.some.inj hhead
          exact absurd (hfront _ List.mem_cons_self) (by decide)
      rw [Yaml.lines_cons hbreak hlines, List.forall_mem_cons, List.forall_mem_cons,
        isVoidLine_cons_of_blank hc hfirst]
      simp [hbreak, and_assoc]

theorem allVoid_iff_isSeenAlike (h : lineHasContent line = false) :
    AllVoid line ↔ isSeenAlike line = true := by
  have hfront : ∀ c ∈ line.takeWhile Text.isBlank, Text.isBlank c = true :=
    List.all_eq_true.1 List.all_takeWhile
  have hiff := allVoid_append_iff hfront (dropWhile_isBlank_of_not_lineHasContent h)
  rw [List.takeWhile_append_dropWhile] at hiff
  simpa [isSeenAlike] using hiff

/-- What a document gives if it is read without a look at its lines first. -/
def readUnchecked (d : TagDocument) : Except Problem (Node × List Problem) :=
  match Yaml.Node.ofText d.content with
  | .error refusal => .error (.ofRefusal refusal)
  | .ok node =>
    if node.isNull then .error .empty
    else
      let (root, omissions) := Node.ofYaml node
      if root.isEmpty then .error .empty else .ok (root, omissions.map .ofOmission)

theorem read_eq (d : TagDocument) :
    d.read = if hasContent d.content then d.readUnchecked else .error .empty := by
  rw [read]
  cases hasContent d.content <;> rfl

theorem lineHasContent_of_mem_lines (h : hasContent t = false) :
    ∀ line ∈ Text.lines t, lineHasContent line = false := by
  simpa [hasContent] using h

/-- Without content, a text is one that the reader passes over if and only if each line is seen alike. -/
theorem allVoid_iff_forall_isSeenAlike (h : hasContent t = false) :
    AllVoid t ↔ ∀ line ∈ Text.lines t, isSeenAlike line = true := by
  rw [Yaml.allVoid_iff_forall_lines]
  exact forall₂_congr fun line hline => allVoid_iff_isSeenAlike (lineHasContent_of_mem_lines h line hline)

/-- That a document is not read if its lines are without content makes no difference for a document with
content. For one without, the reader gets to the end of the text without meeting anything if and only if each
line is seen alike. Then it finds a null, so that the document would be empty as well, unless there is a
character that may not occur: that would be reported instead. -/
theorem check_hides_nothing_where_lines_are_seen_alike (d : TagDocument) :
    (hasContent d.content = true → d.read = d.readUnchecked) ∧
    (hasContent d.content = false →
      d.read = .error .empty ∧
      (Yaml.Vacant d.content ↔ ∀ line ∈ Text.lines d.content, isSeenAlike line = true) ∧
      ((∀ line ∈ Text.lines d.content, isSeenAlike line = true) →
        if d.content.all Yaml.isAllowed then
          Yaml.Node.ofText d.content = .ok .null ∧ d.readUnchecked = .error .empty
        else
          Yaml.Node.ofText d.content = .error (.unreadable .controlCharacter) ∧
            d.readUnchecked = .error (.ofRefusal (.unreadable .controlCharacter)))) := by
  refine ⟨fun h => ?_, fun h => ⟨?_, ?_, fun hlines => ?_⟩⟩
  · rw [read_eq, if_pos h]
  · rw [read_eq, h]
    rfl
  · rw [Yaml.vacant_iff_allVoid, allVoid_iff_forall_isSeenAlike h]
  · have hread := Yaml.Node.ofText_of_allVoid ((allVoid_iff_forall_isSeenAlike h).2 hlines)
    split
    · next hallowed =>
      rw [if_pos hallowed] at hread
      exact ⟨hread, by rw [readUnchecked, hread]; rfl⟩
    · next hallowed =>
      rw [if_neg hallowed] at hread
      exact ⟨hread, by rw [readUnchecked, hread]⟩

/-- Line breaks of all kinds, with spaces and comments between them. -/
theorem check_hides_nothing_where_lines_are_seen_alike_mixed_breaks :
    let d : TagDocument := ⟨Text.lit "misc", Text.lit "misc.yml", Text.lit " # a\r\n\n\u0085# b\r  #c\u2028"⟩
    hasContent d.content = false ∧ (∀ line ∈ Text.lines d.content, isSeenAlike line = true) ∧
      Yaml.Vacant d.content ∧ Yaml.Node.ofText d.content = .ok .null ∧ d.readUnchecked = d.read := by
  intro d
  obtain ⟨-, hvacuous⟩ := check_hides_nothing_where_lines_are_seen_alike d
  have hcontent : hasContent d.content = false := by decide +kernel
  have hlines : ∀ line ∈ Text.lines d.content, isSeenAlike line = true :=
    List.all_eq_true.1 (by decide +kernel)
  obtain ⟨hread, hvacant, hsame⟩ := hvacuous hcontent
  have hnull := hsame hlines
  rw [if_pos (by decide +kernel)] at hnull
  exact ⟨hcontent, hlines, hvacant.2 hlines, hnull.1, hnull.2.trans hread.symm⟩

/-- Behind a carriage return that ends the line of a comment for the reader alone, a value is hidden. -/
theorem value_hidden_behind_carriage_return :
    let d : TagDocument := ⟨Text.lit "misc", Text.lit "misc.yml", Text.lit "# c\ra: b"⟩
    hasContent d.content = false ∧ d.read = .error .empty ∧
      ∃ node, Yaml.Node.ofText d.content = .ok node ∧ node.isNull = false ∧
        (Node.ofYaml node).1.leaves = [Text.lit "b"] ∧
        d.readUnchecked = .ok ((Node.ofYaml node).1, (Node.ofYaml node).2.map .ofOmission) := by
  intro d
  have hcontent : hasContent d.content = false := by decide +kernel
  obtain ⟨node, hread, hnode⟩ := Yaml.Node.exists_ofText_of_any d.content
    (fun node => (!node.isNull && node.keepsAnything) && (Node.ofYaml node).1.leaves = [Text.lit "b"])
    (by decide +kernel)
  simp only [Bool.and_eq_true, Bool.not_eq_true', decide_eq_true_eq] at hnode
  obtain ⟨⟨hnull, hkeeps⟩, hleaves⟩ := hnode
  have hempty := Node.isEmpty_ofYaml hnull
  refine ⟨hcontent, by rw [read_eq, hcontent]; rfl, node, hread, hnull, hleaves, ?_⟩
  rw [readUnchecked, hread]
  simp [hnull, hempty, hkeeps]

end TagDocument

end PromptTags
