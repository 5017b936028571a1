import PromptTags.Text.Basic

/-!
Reading from the front of a text: blanks, line breaks and comments, and lists with separators.
-/

namespace PromptTags.Toml

/-- A reader takes a value off the front of a text, or refuses. -/
abbrev Reader (α : Type) := Text → Option (α × Text)

def isBlank (c : Char) : Bool := c = ' ' || c = '\t'

def skipBlanks (t : Text) : Text := t.dropWhile isBlank

/-- A character that may stand in a comment, or uninterpreted between quotes. -/
def isPrintable (c : Char) : Bool := c = '\t' || (0x20 ≤ c.toNat && c.toNat ≠ 0x7F)

def afterSign (c : Char) (t : Text) : Option Text :=
  match t with
  | x :: rest => if x = c then some rest else none
  | [] => none

/-- A text without the line break at its front, if it has one there. -/
def afterBreak? (t : Text) : Option Text :=
  match t with
  | '\n' :: rest => some rest
  | '\r' :: '\n' :: rest => some rest
  | _ => none

/-- What follows a comment: a line break, or nothing. -/
def afterComment (t : Text) : Option Text :=
  let rest := t.dropWhile isPrintable
  if rest.isEmpty then some [] else afterBreak? rest

/-- What follows the end of a line: blanks, a comment that may be there, and the line break. -/
def afterLine (t : Text) : Option Text :=
  match skipBlanks t with
  | [] => some []
  | '#' :: rest => afterComment rest
  | rest => afterBreak? rest

/-- What follows blanks, line breaks and comments. -/
def skipGap : (inComment : Bool) → Text → Option Text
  | _, [] => some []
  | inComment, c :: cs =>
    if c = '\n' then skipGap false cs
    else if c = '\r' then if cs.head? = some '\n' then skipGap false cs else none
    else if inComment then if isPrintable c then skipGap true cs else none
    else if isBlank c then skipGap false cs
    else if c = '#' then skipGap true cs
    else some (c :: cs)

/-- Things with a separator between neighbours, one at least; `fuel` bounds their number. -/
def separated {α : Type} (item : Reader α) (separator : Char) : (fuel : Nat) → Reader (List α)
  | 0, _ => none
  | fuel + 1, t =>
    match item t with
    | none => none
    | some (a, c :: rest) =>
      if c = separator then (separated item separator fuel rest).map fun r => (a :: r.1, r.2)
      else some ([a], c :: rest)
    | some (a, []) => some ([a], [])

end PromptTags.Toml
