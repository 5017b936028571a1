import PromptTags.Text.Numeral
import PromptTags.Toml.Reader

/-!
Strings between quotes. There are four forms: double or single quotes, written once or three times.
Double quotes know escapes, and quotes written three times may hold line breaks. A string is written
in the first form that can hold it without an escape; if there is none, double quotes are taken.
-/

namespace PromptTags.Toml

structure Form where
  /-- Double quotes, with escapes between them. -/
  double : Bool
  /-- Quotes that are written three times, with line breaks between them. -/
  tripled : Bool
  deriving DecidableEq, Repr

namespace Form

def sign (f : Form) : Char := if f.double then '\x22' else '\x27'

/-- The quotes on either side. -/
def quotes (f : Form) : Text := if f.tripled then [f.sign, f.sign, f.sign] else [f.sign]

end Form

/-! ### Reading -/

def escape? (c : Char) : Option Char :=
  match c with
  | 'b' => some '\x08'
  | 't' => some '\t'
  | 'n' => some '\n'
  | 'f' => some '\x0c'
  | 'r' => some '\r'
  | '\x22' => some '\x22'
  | '\\' => some '\\'
  | _ => none

/-- Where a reader stands between quotes. -/
inductive Place where
  /-- Behind a character of the string. -/
  | text
  /-- Behind a hidden line break: blanks and further line breaks count for nothing. -/
  | gap
  | escape
  /-- In a numeric escape with `left` digits to come. -/
  | digits (left value : Nat)
  deriving DecidableEq, Repr

def consTo (c : Char) (r : Text × Text) : Text × Text := (c :: r.1, r.2)

/-- Read a string up to its closing quotes, and what follows them. Where more than three quotes come
together at the end, up to two of them belong to the string. -/
def readQuoted (f : Form) : Place → Reader Text
  | _, [] => none
  | .digits left value, c :: cs =>
    match Text.digitIn? 16 c with
    | none => none
    | some d =>
      if left ≤ 1 then
        match Text.charOfCode? (16 * value + d) with
        | none => none
        | some x => (readQuoted f .text cs).map (consTo x)
      else readQuoted f (.digits (left - 1) (16 * value + d)) cs
  | .escape, c :: cs =>
    if c = 'u' then readQuoted f (.digits 4 0) cs
    else if c = 'U' then readQuoted f (.digits 8 0) cs
    else match escape? c with
      | none => none
      | some x => (readQuoted f .text cs).map (consTo x)
  | place, c :: cs =>
    if c = '\n' then
      if !f.tripled then none
      else if place = .gap then readQuoted f .gap cs
      else (readQuoted f .text cs).map (consTo '\n')
    else if c = '\r' then
      if f.tripled && cs.head? = some '\n' then readQuoted f place cs else none
    else if place = .gap && isBlank c then readQuoted f .gap cs
    else if c = f.sign then
      let run := ((c :: cs).takeWhile (· = c)).length
      if !f.tripled then some ([], cs)
      else if run < 3 then (readQuoted f .text cs).map (consTo c)
      else some (List.replicate (Nat.min (run - 3) 2) c, (c :: cs).drop (Nat.min run 5))
    else if c = '\\' && f.double then
      if f.tripled && (afterBreak? (skipBlanks cs)).isSome then readQuoted f .gap cs
      else readQuoted f .escape cs
    else if isPrintable c then (readQuoted f .text cs).map (consTo c)
    else none

/-- Read a string in quotes that are written once. -/
def readLine (t : Text) : Option (Text × Text) :=
  match t with
  | '\x22' :: rest => readQuoted ⟨true, false⟩ .text rest
  | '\x27' :: rest => readQuoted ⟨false, false⟩ .text rest
  | _ => none

/-- Read a string in any form. A line break directly behind three quotes does not belong to it. -/
def readString (t : Text) : Option (Text × Text) :=
  match t with
  | '\x22' :: '\x22' :: '\x22' :: rest =>
    readQuoted ⟨true, true⟩ .text ((afterBreak? rest).getD rest)
  | '\x27' :: '\x27' :: '\x27' :: rest =>
    readQuoted ⟨false, true⟩ .text ((afterBreak? rest).getD rest)
  | _ => readLine t

/-! ### Writing -/

/-- A character that has to be escaped wherever it stands: a control character, the tab and the
newline apart. -/
def isControl (c : Char) : Bool :=
  (c.toNat < 0x20 && c ≠ '\t' && c ≠ '\n') || c.toNat = 0x7F

def hasTriple (c : Char) (t : Text) : Bool := Text.hasPart [c, c, c] t

/-- Whether a form can hold a string without an escape. -/
def Form.holds (f : Form) (t : Text) : Bool :=
  !t.any isControl && !(f.double && '\\' ∈ t) &&
    if f.tripled then !hasTriple f.sign t else f.sign ∉ t && '\n' ∉ t

/-- The form a string is written in. -/
def Form.of (t : Text) : Form :=
  if holds ⟨true, false⟩ t then ⟨true, false⟩
  else if holds ⟨false, false⟩ t then ⟨false, false⟩
  else if holds ⟨true, true⟩ t then ⟨true, true⟩
  else if holds ⟨false, true⟩ t then ⟨false, true⟩
  else ⟨true, '\n' ∈ t⟩

/-- An escape with four hexadecimal digits. -/
def numericEscape (c : Char) : Text :=
  let digits := (Nat.toDigits 16 c.toNat).map Char.toUpper
  '\\' :: 'u' :: List.replicate (4 - digits.length) '0' ++ digits

def escaped (tripled : Bool) (c : Char) : Text :=
  match c with
  | '\x08' => ['\\', 'b']
  | '\t' => ['\\', 't']
  | '\x0c' => ['\\', 'f']
  | '\r' => ['\\', 'r']
  | '\\' => ['\\', '\\']
  | '\n' => if tripled then ['\n'] else ['\\', 'n']
  | _ => if isControl c then numericEscape c else [c]

/-- A string between double quotes. Of a run of quotes only each third one is escaped where the
quotes around it are written three times, and every one where they are written once; `run` counts
the bare quotes that stand directly in front. -/
def escapeText (tripled : Bool) : (run : Nat) → Text → Text
  | _, [] => []
  | run, c :: cs =>
    if c = '\x22' then
      if tripled && run < 2 then '\x22' :: escapeText tripled (run + 1) cs
      else '\\' :: '\x22' :: escapeText tripled 0 cs
    else escaped tripled c ++ escapeText tripled 0 cs

/-- A string with its quotes. A line break follows three opening quotes if the string has one. -/
def writeString (t : Text) : Text :=
  let f := Form.of t
  let lead := if f.tripled && '\n' ∈ t then ['\n'] else []
  f.quotes ++ lead ++ (if f.double then escapeText f.tripled 0 t else t) ++ f.quotes

end PromptTags.Toml
