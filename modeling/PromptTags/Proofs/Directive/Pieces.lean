import PromptTags.Proofs.Directive.Gap

/-! The pieces of a scan stand on their own. A directive cut out of its text is found again as the same
directive, although a reading with a repeat text depends on what can close it, and a gap cut out of its
text holds no directive. -/
namespace PromptTags

namespace Scan

/-- What follows a marker in a sealed text shuts it off from every later marker. -/
theorem barrier_mem_of_sealed {a b : Text} (h : Sealed (a ++ marker :: b)) : barrier ∈ b := by
  induction a with
  | nil =>
    -- two markers behind the text would close a mention that no barrier hides
    apply Classical.byContradiction
    intro hb
    have hne : barrier ≠ marker := by decide
    have hbody : Mention.IsBody (b ++ [marker]) := ⟨by simp, by simp [hb, hne]⟩
    have hsome := Mention.after?_isSome hbody []
    have hnone := h.1 rfl [marker, marker]
    rw [List.append_assoc, List.singleton_append, hnone] at hsome
    cases hsome
  | cons c cs ih => exact ih h.2

/-- Every gap in front of a mention is sealed, and the mention is read behind it. -/
theorem reads_of_mem_found {t : Text} {entry : Text × Mention} (h : entry ∈ (ofText t).found) :
    Sealed entry.1 ∧
      ∃ t', Mention.after? (entry.2.body ++ marker :: t') = some (entry.2, t') := by
  induction t using ind with
  | last rest hrest =>
    rw [hrest] at h
    cases h
  | step g m t' hg hread ih =>
    rw [ofText_gap_mention hg hread] at h
    rcases List.mem_cons.1 h with rfl | hmore
    · exact ⟨hg, t', hread⟩
    · exact ih hmore

/-- The text behind the last mention is scanned as it was. -/
theorem ofText_rest (t : Text) : ofText (ofText t).rest = ⟨[], (ofText t).rest⟩ := by
  induction t using ind with
  | last rest h =>
    rw [h]
    exact h
  | step g m t hg hread ih => rwa [ofText_gap_mention hg hread]

end Scan

namespace Mention

theorem join_path_directive (m : Mention) : Text.join [keySeparator] m.directive.path = m.path :=
  Text.join_split keySeparator m.path

theorem barrier_notMem_raw {m : Mention} (h : IsBody m.body) : barrier ∉ m.raw := by
  have hne : barrier ≠ marker := by decide
  simp [raw_eq, hne, h.within]

theorem three_le_length_raw {m : Mention} (h : IsBody m.body) : 3 ≤ m.raw.length := by
  have hpos : 0 < m.body.length := List.length_pos_iff.2 h.ne_nil
  rw [raw_eq, List.length_cons, List.length_append, List.length_singleton]
  omega

/-- A directive is all that is found in its own text. -/
theorem scan_raw {m : Mention} {rest : Text}
    (h : after? (m.body ++ marker :: rest) = some (m, rest)) : Directive.scan m.raw = [m.directive] := by
  rw [raw_eq, Directive.scan_marker_of_some (after?_body h), Directive.scan_nil]

end Mention

/-- A text is its gaps and the texts of its directives in turn. No gap holds a directive, every directive
is found again in its own text, and every marker in a gap before a directive has a barrier behind it. -/
theorem scan_cuts_into_standing_pieces (t : Text) :
    let cut := Scan.ofText t
    let directives := Directive.scan t
    directives.length = cut.found.length ∧
    cut.fill (directives.map Directive.raw) = t ∧
    (∀ entry ∈ cut.found, Directive.scan entry.1 = []) ∧
    Directive.scan cut.rest = [] ∧
    (∀ d ∈ directives,
      Directive.scan d.raw = [d] ∧
      3 ≤ d.raw.length ∧ d.raw.head? = some marker ∧ d.raw.getLast? = some marker ∧
      barrier ∉ d.raw ∧
      Text.join [keySeparator] d.path ≠ [] ∧
      marker ∉ (Text.join [keySeparator] d.path).tail) ∧
    ∀ entry ∈ cut.found, ∀ before behind, entry.1 = before ++ marker :: behind →
      barrier ∈ behind := by
  intro cut directives
  refine ⟨Directive.length_scan t, ?_, ?_, ?_, ?_, ?_⟩
  · rw [Directive.map_raw_scan]
    exact Scan.fill_raw t
  · intro entry hentry
    exact Directive.scan_of_sealed (Scan.reads_of_mem_found hentry).1
  · change (Scan.ofText cut.rest).mentions.map Mention.directive = []
    rw [Scan.ofText_rest t]
    rfl
  · intro d hd
    obtain ⟨m, hm, rfl⟩ := List.mem_map.1 hd
    obtain ⟨entry, hentry, rfl⟩ := List.mem_map.1 hm
    obtain ⟨-, t', hread⟩ := Scan.reads_of_mem_found hentry
    have hbody := (Mention.body_of_after? hread).1
    have hpath := Mention.isPath_of_after? hread
    change Directive.scan entry.2.raw = _ ∧ 3 ≤ entry.2.raw.length ∧ entry.2.raw.head? = _ ∧
      entry.2.raw.getLast? = _ ∧ barrier ∉ entry.2.raw ∧ _
    rw [Mention.join_path_directive]
    refine ⟨Mention.scan_raw hread, Mention.three_le_length_raw hbody, ?_, ?_,
      Mention.barrier_notMem_raw hbody, hpath.ne_nil, hpath.inner⟩
    · rw [Mention.raw_eq]
      rfl
    · rw [Mention.raw_eq, ← List.cons_append, List.getLast?_concat]
  · intro entry hentry before behind hgap
    have hsealed := (Scan.reads_of_mem_found hentry).1
    rw [hgap] at hsealed
    exact Scan.barrier_mem_of_sealed hsealed

/-- A marker behind which nothing can close, a path that starts with a marker, and a marker at the end. -/
theorem scan_cuts_into_standing_pieces_barrier :
    let t := Text.lit "x@>y@2$$@a:b@ @@z@@"
    let d : Directive := ⟨Text.lit "@2$$@a:b@", ⟨2, 2⟩, [Text.lit "@a", Text.lit "b"]⟩
    let entry : Text × Mention := (Text.lit "x@>y", ⟨some (Text.lit "2"), Text.lit "@a:b"⟩)
    d ∈ Directive.scan t ∧ Directive.scan d.raw = [d] ∧
    entry ∈ (Scan.ofText t).found ∧ entry.1 = Text.lit "x" ++ marker :: Text.lit ">y" ∧
    barrier ∈ Text.lit ">y" := by
  intro t d entry
  have hd : d ∈ Directive.scan t := by decide +kernel
  have hentry : entry ∈ (Scan.ofText t).found := by decide +kernel
  have hgap : entry.1 = Text.lit "x" ++ marker :: Text.lit ">y" := rfl
  obtain ⟨-, -, -, -, hdirectives, hgaps⟩ := scan_cuts_into_standing_pieces t
  exact ⟨hd, (hdirectives d hd).1, hentry, hgap, hgaps entry hentry _ _ hgap⟩

end PromptTags
