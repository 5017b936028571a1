import PromptTags.Text.Basic

/-!
Places in a YAML text and the classes of characters that matter there. A carriage return, a newline,
the pair of both, a next-line character and the two Unicode separators each end a line; blanks are
the space and the tab only.
-/

namespace PromptTags.Yaml

/-- A place in a text: how many octets of its UTF-8 form lie before it, in how many lines, and how
many characters of its own line. -/
structure Mark where
  index : Nat
  line : Nat
  column : Nat
  deriving DecidableEq, Repr

namespace Mark

def start : Mark := ⟨0, 0, 0⟩

/-- Behind a character of the line. -/
def past (m : Mark) (c : Char) : Mark :=
  { m with index := m.index + c.utf8Size, column := m.column + 1 }

/-- The start of the next line, behind a line break of `n` octets. -/
def newline (m : Mark) (n : Nat) : Mark := ⟨m.index + n, m.line + 1, 0⟩

end Mark

/-- What is left of a text, and the place where it starts. -/
structure Cursor where
  rest : Text
  mark : Mark
  deriving DecidableEq, Repr

def byteOrderMark : Char := '\uFEFF'

def isBlank (c : Char) : Bool := c = ' ' || c = '\t'

def isBreak (c : Char) : Bool :=
  c = '\n' || c = '\r' || c = '\u0085' || c = '\u2028' || c = '\u2029'

/-- What a line break stands for in a scalar: the two Unicode separators are kept, every other
break is a newline. -/
def breakText (c : Char) : Char := if c = '\u2028' ∨ c = '\u2029' then c else '\n'

/-- Whether a text is at its end, at a blank or at a line break. -/
def atGap : Text → Bool
  | [] => true
  | c :: _ => isBlank c || isBreak c

/-- Whether a text is at its end or at a line break. -/
def atLineEnd : Text → Bool
  | [] => true
  | c :: _ => isBreak c

/-- Whether a text starts with three dots or three hyphens that stand alone. At the start of a line
they bound a document. -/
def atDocumentMark : Text → Bool
  | '-' :: '-' :: '-' :: rest => atGap rest
  | '.' :: '.' :: '.' :: rest => atGap rest
  | _ => false

/-- A character of a name: an ASCII letter, a digit, an underscore or a hyphen. -/
def isNameChar (c : Char) : Bool := c.isAlphanum || c = '_' || c = '-'

/-- A character that opens, closes or divides a flow collection. -/
def isFlowSign (c : Char) : Bool := c = ',' || c = '[' || c = ']' || c = '\x7b' || c = '\x7d'

/-- A character that may occur in a YAML text. -/
def isAllowed (c : Char) : Bool :=
  let n := c.toNat
  n = 0x9 || n = 0xA || n = 0xD || (0x20 ≤ n && n ≤ 0x7E) || n = 0x85 ||
    (0xA0 ≤ n && n ≤ 0xD7FF) || (0xE000 ≤ n && n ≤ 0xFFFD) || 0x10000 ≤ n

namespace Cursor

def column (c : Cursor) : Nat := c.mark.column

/-- `n` characters further on in the line. -/
def skip (c : Cursor) (n : Nat) : Cursor :=
  ⟨c.rest.drop n, (c.rest.take n).foldl Mark.past c.mark⟩

/-- The characters of a class that come next, and the place behind them. -/
def takeWhile (p : Char → Bool) (c : Cursor) : Text × Cursor :=
  let taken := c.rest.takeWhile p
  (taken, c.skip taken.length)

def skipBlanks (c : Cursor) : Cursor := (c.takeWhile isBlank).2

/-- The place behind the comment that may come next. -/
def skipComment (c : Cursor) : Cursor :=
  match c.rest with
  | '#' :: _ => (c.takeWhile fun x => !isBreak x).2
  | _ => c

def skipBreak (c : Cursor) : Cursor :=
  match c.rest with
  | '\r' :: '\n' :: rest => ⟨rest, c.mark.newline 2⟩
  | x :: rest => if isBreak x then ⟨rest, c.mark.newline x.utf8Size⟩ else c
  | [] => c

/-- Pass over blanks, comments and line breaks to the next token. A tab counts as a blank only
where no simple key could start, that is inside a flow collection or behind a token of the line. A
byte order mark may start a line, and takes up a column of it. Outside of flow collections a new
line makes a simple key possible again. -/
def skipGap (inFlow : Bool) : (keyAllowed inComment : Bool) → Text → Mark → Bool × Cursor
  | keyAllowed, _, [], m => (keyAllowed, ⟨[], m⟩)
  | keyAllowed, _, '\r' :: '\n' :: cs, m =>
    skipGap inFlow (keyAllowed || !inFlow) false cs (m.newline 2)
  | keyAllowed, inComment, c :: cs, m =>
    if isBreak c then skipGap inFlow (keyAllowed || !inFlow) false cs (m.newline c.utf8Size)
    else if inComment || c = ' ' || c = '#' || (c = '\t' && (inFlow || !keyAllowed)) ||
        (c = byteOrderMark && m.column = 0) then
      skipGap inFlow keyAllowed (inComment || c = '#') cs (m.past c)
    else (keyAllowed, ⟨c :: cs, m⟩)

end Cursor

end PromptTags.Yaml
