import PromptTags.Text.Numeral
import PromptTags.Yaml.Fault
import PromptTags.Yaml.Scalar.Folding

/-!
Scalars in quotes. Between single quotes only the quote itself is written specially, twice; between
double quotes a backslash starts an escape, and one before a line break hides the break.
-/

namespace PromptTags.Yaml

inductive Quotes where
  | single
  | double
  deriving DecidableEq, Repr

def Quotes.sign : Quotes → Char
  | single => '\x27'
  | double => '\x22'

/-- The character a one-letter escape stands for. -/
def simpleEscape? (c : Char) : Option Char :=
  match c with
  | '0' => some '\x00'
  | 'a' => some '\x07'
  | 'b' => some '\x08'
  | 't' => some '\t'
  | '\t' => some '\t'
  | 'n' => some '\n'
  | 'v' => some '\x0b'
  | 'f' => some '\x0c'
  | 'r' => some '\r'
  | 'e' => some '\x1b'
  | ' ' => some ' '
  | '\x22' => some '\x22'
  | '/' => some '/'
  | '\\' => some '\\'
  | 'N' => some '\u0085'
  | '_' => some '\u00a0'
  | 'L' => some '\u2028'
  | 'P' => some '\u2029'
  | _ => none

/-- How many hexadecimal digits follow the letter of a numeric escape. -/
def escapeWidth? (c : Char) : Option Nat :=
  match c with
  | 'x' => some 2
  | 'u' => some 4
  | 'U' => some 8
  | _ => none

inductive QuotedState where
  | word
  | gap (gap : Gap)
  | escape
  /-- Behind a single quote that either closes or is the first of two. -/
  | quote
  /-- In a numeric escape with `left` digits to come. -/
  | digits (left value : Nat)
  deriving DecidableEq, Repr

/-- Read on behind the opening quote. `done` holds the characters so far, last one first. Gives the
text and the place behind the closing quote. -/
def readQuoted (quotes : Quotes) :
    (done : Text) → QuotedState → Text → Mark → Except Fault (Text × Cursor)
  | done, .quote, [], m => .ok (done.reverse, ⟨[], m⟩)
  | _, .digits _ _, [], _ => .error .escapeDigits
  | _, .escape, [], _ => .error .unknownEscape
  | _, _, [], _ => .error .endInQuotes
  | done, .quote, c :: cs, m =>
    if c = '\x27' then readQuoted quotes ('\x27' :: done) .word cs (m.past c)
    else .ok (done.reverse, ⟨c :: cs, m⟩)
  | done, .digits left value, c :: cs, m =>
    match Text.digitIn? 16 c with
    | none => .error .escapeDigits
    | some d =>
      let value := 16 * value + d
      if left ≤ 1 then
        match Text.charOfCode? value with
        | none => .error .escapeValue
        | some x => readQuoted quotes (x :: done) .word cs (m.past c)
      else readQuoted quotes done (.digits (left - 1) value) cs (m.past c)
  | done, .escape, '\r' :: '\n' :: cs, m =>
    readQuoted quotes done (.gap .escapedBreak) cs (m.newline 2)
  | done, .escape, c :: cs, m =>
    if isBreak c then readQuoted quotes done (.gap .escapedBreak) cs (m.newline c.utf8Size)
    else match escapeWidth? c with
      | some width => readQuoted quotes done (.digits width 0) cs (m.past c)
      | none =>
        match simpleEscape? c with
        | some x => readQuoted quotes (x :: done) .word cs (m.past c)
        | none => .error .unknownEscape
  | done, .gap g, '\r' :: '\n' :: cs, m =>
    readQuoted quotes done (.gap (g.addBreak '\n')) cs (m.newline 2)
  | done, .word, '\r' :: '\n' :: cs, m =>
    readQuoted quotes done (.gap (Gap.none.addBreak '\n')) cs (m.newline 2)
  | done, state, c :: cs, m =>
    let g := match state with
      | .gap g => g
      | _ => Gap.none
    if isBreak c then
      readQuoted quotes done (.gap (g.addBreak (breakText c))) cs (m.newline c.utf8Size)
    else if isBlank c then readQuoted quotes done (.gap (g.addBlank c)) cs (m.past c)
    else if m.column = 0 && atDocumentMark (c :: cs) then .error .documentMarkInQuotes
    else
      let done := g.fold.reverse ++ done
      if c = quotes.sign then
        match quotes with
        | .single => readQuoted quotes done .quote cs (m.past c)
        | .double => .ok (done.reverse, ⟨cs, m.past c⟩)
      else if c = '\\' && quotes = .double then readQuoted quotes done .escape cs (m.past c)
      else readQuoted quotes (c :: done) .word cs (m.past c)

end PromptTags.Yaml
