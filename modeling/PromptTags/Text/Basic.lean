/-!
Texts are lists of characters, so that scanning and substituting are plain recursion on them.
This module holds the operations shared by every part of the library: splitting at a separator,
replacing a first occurrence, searching, and lower case for ASCII words.
-/

namespace PromptTags

/-- A text is the list of its characters. -/
abbrev Text := List Char

namespace Text

abbrev lit (s : String) : Text := s.toList

def octets (t : Text) : List UInt8 := t.flatMap String.utf8EncodeChar

/-- The pieces of a text between the occurrences of `sep`; there is always at least one piece. -/
def split (sep : Char) : Text → List Text
  | [] => [[]]
  | c :: cs =>
    if c = sep then [] :: split sep cs
    else match split sep cs with
      | [] => [[c]]
      | piece :: pieces => (c :: piece) :: pieces

/-- The pieces joined with `sep` between neighbours. -/
def join (sep : Text) (pieces : List Text) : Text := List.intercalate sep pieces

/-- Splitting never gives the empty list. -/
theorem split_ne_nil (sep : Char) (t : Text) : split sep t ≠ [] := by
  cases t with
  | nil => simp [split]
  | cons c cs =>
    simp only [split]
    split
    · simp
    · split <;> simp

/-- Splitting and joining again gives the text back. -/
theorem join_split (sep : Char) (t : Text) : join [sep] (split sep t) = t := by
  induction t with
  | nil => simp [split, join, List.intercalate]
  | cons c cs ih =>
    have hne := split_ne_nil sep cs
    simp only [split]
    split
    · next h =>
      subst h
      cases hs : split c cs with
      | nil => exact absurd hs hne
      | cons p ps =>
        rw [hs] at ih
        simp only [join, List.intercalate, List.intersperse_cons_cons, List.flatten_cons,
          List.nil_append, List.cons_append] at ih ⊢
        rw [ih]
    · split
      · next hs => exact absurd hs hne
      · next p ps hs =>
        rw [hs] at ih
        cases ps with
        | nil => simpa [join, List.intercalate] using ih
        | cons q qs =>
          simp only [join, List.intercalate, List.intersperse_cons_cons, List.flatten_cons,
            List.cons_append] at ih ⊢
          rw [ih]

/-- A text without the separator is a single piece. -/
theorem split_of_notMem {sep : Char} {t : Text} (h : sep ∉ t) : split sep t = [t] := by
  induction t with
  | nil => rfl
  | cons c cs ih =>
    simp only [List.mem_cons, not_or] at h
    simp only [split, Ne.symm h.1, if_false, ih h.2]

/-- Around a separator the pieces are those of either side. -/
theorem split_append_sep (sep : Char) (t rest : Text) :
    split sep (t ++ sep :: rest) = split sep t ++ split sep rest := by
  induction t with
  | nil => simp [split]
  | cons c cs ih =>
    have hne := split_ne_nil sep cs
    simp only [List.cons_append, split, ih]
    split
    · rfl
    · cases hs : split sep cs with
      | nil => exact absurd hs hne
      | cons p ps => rfl

/-- A piece ends at the first separator after it. -/
theorem split_append_cons {sep : Char} {t : Text} (h : sep ∉ t) (rest : Text) :
    split sep (t ++ sep :: rest) = t :: split sep rest := by
  rw [split_append_sep, split_of_notMem h, List.singleton_append]

/-- Pieces without the separator come back from the joined text. -/
theorem split_join {sep : Char} {pieces : List Text} (hne : pieces ≠ [])
    (h : ∀ piece ∈ pieces, sep ∉ piece) : split sep (join [sep] pieces) = pieces := by
  induction pieces with
  | nil => exact absurd rfl hne
  | cons p ps ih =>
    cases ps with
    | nil => simpa [join, List.intercalate] using split_of_notMem (h p List.mem_cons_self)
    | cons q qs =>
      have htail := ih (List.cons_ne_nil q qs) fun r hr => h r (List.mem_cons_of_mem p hr)
      simp only [join, List.intercalate, List.intersperse_cons_cons, List.flatten_cons,
        List.singleton_append] at htail ⊢
      rw [split_append_cons (h p List.mem_cons_self), htail]

/-- Fewer pieces are not longer when joined. -/
theorem length_join_le (sep : Text) (a b : List Text) :
    (join sep a).length ≤ (join sep (a ++ b)).length := by
  induction a with
  | nil => simp [join, List.intercalate]
  | cons x xs ih =>
    cases xs with
    | nil =>
      cases b with
      | nil => simp
      | cons y ys => simp [join, List.intercalate]
    | cons y ys =>
      simp only [join, List.intercalate, List.cons_append, List.intersperse_cons_cons,
        List.flatten_cons, List.length_append] at ih ⊢
      omega

/-- Without a piece that is not empty the joined text is shorter. -/
theorem length_join_append_cons (sep : Char) (a : List Text) (p : Text) (b : List Text)
    (hp : p ≠ []) : (join [sep] a).length < (join [sep] (a ++ p :: b)).length := by
  have h : (join [sep] (a ++ [p])).length ≤ (join [sep] (a ++ [p] ++ b)).length :=
    length_join_le _ _ _
  have h2 : (join [sep] a).length < (join [sep] (a ++ [p])).length := by
    clear h
    induction a with
    | nil => cases p with
      | nil => exact absurd rfl hp
      | cons => simp [join, List.intercalate]
    | cons x xs ih =>
      cases xs with
      | nil => simp [join, List.intercalate]
      | cons y ys =>
        simp only [join, List.intercalate, List.cons_append, List.intersperse_cons_cons,
          List.flatten_cons, List.length_append, List.length_cons, List.nil_append] at ih ⊢
        omega
  simp only [List.append_assoc, List.singleton_append] at h
  omega

/-- The text with the first occurrence of `old` replaced by `new`; unchanged if there is none. -/
def replaceFirst (old new : Text) : Text → Text
  | [] => if old.isEmpty then new else []
  | c :: cs =>
    if old.isPrefixOf (c :: cs) then new ++ (c :: cs).drop old.length
    else c :: replaceFirst old new cs

def hasPart (part : Text) : Text → Bool
  | [] => part.isEmpty
  | c :: cs => part.isPrefixOf (c :: cs) || hasPart part cs

/-- The text with every capital ASCII letter made small. -/
def lower (t : Text) : Text := t.map Char.toLower

def isAny (words : List String) (t : Text) : Bool := words.any fun word => word.toList = t

/-- What follows `start`, if the text begins with it. -/
def after? (start : Text) (t : Text) : Option Text :=
  if start.isPrefixOf t then some (t.drop start.length) else none

end Text

end PromptTags
