import PromptTags.Directive.Repeat
import PromptTags.Log

/-!
Finding directives in a text. A directive stands between two markers: a path, or a repeat text, two
dollar signs and a path. The repeat text holds no marker, dollar sign or `>`; the path is not empty,
holds no `>`, and ends at the first marker after its first character. Wherever both readings are
possible the one with a repeat text is taken. Directives are found from left to right and do not
overlap.
-/

namespace PromptTags

/-- The character that opens and closes a directive. -/
def marker : Char := '@'

/-- The character that no directive reaches across. -/
def barrier : Char := '>'

/-- The sign that is written twice between a repeat text and a path. -/
def repeatSign : Char := '$'

def keySeparator : Char := ':'

/-- A directive as it stands in a text: the repeat text, if there is one, and the path text. -/
structure Mention where
  count : Option Text
  path : Text
  deriving DecidableEq, Repr

namespace Mention

/-- The text of a mention, with both markers. -/
def raw (m : Mention) : Text :=
  match m.count with
  | none => marker :: m.path ++ [marker]
  | some count => marker :: count ++ repeatSign :: repeatSign :: m.path ++ [marker]

/-- The path text up to the closing marker, and what follows the marker. -/
def closing : Text → Option (Text × Text)
  | [] => none
  | c :: cs =>
    if c = marker then some ([], cs)
    else if c = barrier then none
    else (closing cs).map fun r => (c :: r.1, r.2)

/-- A path text of at least one character with its closing marker, and what follows. -/
def path? : Text → Option (Text × Text)
  | [] => none
  | c :: cs => if c = barrier then none else (closing cs).map fun r => (c :: r.1, r.2)

/-- A repeat text with the two signs after it, and what follows. -/
def count? : Text → Option (Text × Text)
  | [] => none
  | c :: cs =>
    if c = repeatSign then
      match cs with
      | [] => none
      | c' :: rest => if c' = repeatSign then some ([], rest) else none
    else if c = marker ∨ c = barrier then none
    else (count? cs).map fun r => (c :: r.1, r.2)

/-- The reading with a repeat text of what follows an opening marker. -/
def counted? (t : Text) : Option (Mention × Text) := do
  let (count, t) ← count? t
  let (path, t) ← path? t
  return (⟨some count, path⟩, t)

/-- The reading without a repeat text of what follows an opening marker. -/
def plain? (t : Text) : Option (Mention × Text) := do
  let (path, t) ← path? t
  return (⟨none, path⟩, t)

/-- The mention that an opening marker starts, and what follows it. -/
def after? (t : Text) : Option (Mention × Text) :=
  match counted? t with
  | some found => some found
  | none => plain? t

theorem length_lt_of_closing {t p rest : Text} (h : closing t = some (p, rest)) :
    rest.length < t.length := by
  induction t generalizing p with
  | nil => simp [closing] at h
  | cons c cs ih =>
    simp only [closing] at h
    split at h
    · cases h; simp
    · split at h
      · cases h
      · obtain ⟨r, hr, he⟩ := Option.map_eq_some_iff.1 h
        cases he
        have := ih hr
        simp only [List.length_cons]; omega

theorem length_lt_of_path? {t p rest : Text} (h : path? t = some (p, rest)) :
    rest.length < t.length := by
  cases t with
  | nil => simp [path?] at h
  | cons c cs =>
    simp only [path?] at h
    split at h
    · cases h
    · obtain ⟨r, hr, he⟩ := Option.map_eq_some_iff.1 h
      cases he
      have := length_lt_of_closing hr
      simp only [List.length_cons]; omega

theorem length_lt_of_count? {t p rest : Text} (h : count? t = some (p, rest)) :
    rest.length < t.length := by
  induction t generalizing p with
  | nil => simp [count?] at h
  | cons c cs ih =>
    simp only [count?] at h
    split at h
    · cases cs with
      | nil => cases h
      | cons c' cs =>
        dsimp only at h
        split at h
        · cases h; simp only [List.length_cons]; omega
        · cases h
    · split at h
      · cases h
      · obtain ⟨r, hr, he⟩ := Option.map_eq_some_iff.1 h
        cases he
        have := ih hr
        simp only [List.length_cons]; omega

/-- A mention takes up some of the text. -/
theorem length_lt_of_after? {t rest : Text} {m : Mention} (h : after? t = some (m, rest)) :
    rest.length < t.length := by
  simp only [after?] at h
  split at h
  · next found hc =>
    cases h
    simp only [counted?, Option.bind_eq_bind, Option.bind_eq_some_iff] at hc
    obtain ⟨⟨c, t₁⟩, h₁, ⟨p, t₂⟩, h₂, h₃⟩ := hc
    cases h₃
    have := length_lt_of_count? h₁
    have := length_lt_of_path? h₂
    simp only at *; omega
  · simp only [plain?, Option.bind_eq_bind, Option.bind_eq_some_iff] at h
    obtain ⟨⟨p, t₁⟩, h₁, h₂⟩ := h
    cases h₂
    exact length_lt_of_path? h₁

end Mention

/-- A text cut into its mentions, each with the plain text before it, and the plain text that
follows the last one. -/
structure Scan where
  found : List (Text × Mention)
  rest : Text
  deriving DecidableEq, Repr

namespace Scan

/-- Plain text put in front. -/
def plain (c : Char) (s : Scan) : Scan :=
  match s.found with
  | [] => { s with rest := c :: s.rest }
  | (gap, m) :: more => { s with found := (c :: gap, m) :: more }

def mention (m : Mention) (s : Scan) : Scan := { s with found := ([], m) :: s.found }

/-- Cut a text into its mentions and the text between them. -/
def ofText : Text → Scan
  | [] => ⟨[], []⟩
  | c :: cs =>
    if c = marker then
      match _h : Mention.after? cs with
      | some (m, rest) => mention m (ofText rest)
      | none => plain c (ofText cs)
    else plain c (ofText cs)
termination_by t => t.length
decreasing_by
  · have := Mention.length_lt_of_after? _h
    simp only [List.length_cons]; omega
  · simp
  · simp

def mentions (s : Scan) : List Mention := s.found.map Prod.snd

end Scan

structure Directive where
  raw : Text
  /-- How many values it asks for. -/
  range : RepeatRange
  path : List Text
  deriving DecidableEq, Repr

namespace Mention

/-- How many values a mention asks for: one, unless its repeat text is a count or range. -/
def range (m : Mention) : RepeatRange :=
  match m.count with
  | none => .once
  | some count => (RepeatRange.parse? count).getD .once

def directive (m : Mention) : Directive :=
  ⟨m.raw, m.range, Text.split keySeparator m.path⟩

/-- What is logged of a mention: a repeat text that is no count or range. -/
def remark (m : Mention) : Log :=
  match m.count with
  | none => []
  | some count =>
    if (RepeatRange.parse? count).isSome then []
    else .debug s!"Repeat count '{String.ofList count}' is not a count or range, using 1"

end Mention

namespace Directive

/-- The directives of a text, from left to right. -/
def scan (t : Text) : List Directive := (Scan.ofText t).mentions.map Mention.directive

def scanLog (t : Text) : Log := (Scan.ofText t).mentions.flatMap Mention.remark

end Directive

end PromptTags
