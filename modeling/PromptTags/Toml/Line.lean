import PromptTags.Toml.Entries
import PromptTags.Toml.Number
import PromptTags.Toml.Quoted

/-!
The lines of a TOML document: entries and headers. A key is a path of bare or quoted parts with dots
between them. Values may be nested, but not beyond all bounds.
-/

namespace PromptTags.Toml

/-- A path must have fewer parts than this, and a value fewer levels of brackets and braces. -/
def depthBound : Nat := 80

/-! ### Keys -/

def isBareChar (c : Char) : Bool := c.isAlphanum || c = '-' || c = '_'

def readPart (t : Text) : Option (Text × Text) :=
  let bare := t.takeWhile isBareChar
  if bare.isEmpty then readLine t else some (bare, t.dropWhile isBareChar)

def readSpacedPart (t : Text) : Option (Text × Text) :=
  (readPart (skipBlanks t)).map fun r => (r.1, skipBlanks r.2)

def readKey (t : Text) : Option (List Text × Text) :=
  (separated readSpacedPart '.' (t.length + 1) t).filter fun r => r.1.length < depthBound

/-! ### Values -/

/-- The items of an array behind its opening bracket, and what follows the closing one. A comma may
follow the last item; `fuel` bounds the number of items. -/
def readItems (item : Reader Value) : (fuel : Nat) → Reader (List Value)
  | 0, _ => none
  | fuel + 1, t =>
    match skipGap false t with
    | none => none
    | some (']' :: rest) => some ([], rest)
    | some t =>
      match item t with
      | none => none
      | some (v, t) =>
        match skipGap false t with
        | some (',' :: rest) => (readItems item fuel rest).map fun r => (v :: r.1, r.2)
        | some (']' :: rest) => some ([v], rest)
        | _ => none

/-- A key, an equals sign and a value, with the blanks around them. -/
def readEntry (value : Reader Value) (t : Text) : Option ((List Text × Value) × Text) := do
  let (keys, t) ← readKey t
  let t ← afterSign '=' t
  let (v, t) ← value (skipBlanks t)
  return ((keys, v), skipBlanks t)

/-- The entries of a table behind its opening brace, and what follows the closing one. -/
def readInline (value : Reader Value) (t : Text) : Option (List (List Text × Value) × Text) :=
  match skipBlanks t with
  | '\x7d' :: rest => some ([], rest)
  | t => do
    let (entries, t) ← separated (readEntry value) ',' (t.length + 1) t
    let rest ← afterSign '\x7d' t
    return (entries, rest)

/-- A value that has no other in it. -/
def readScalar (t : Text) : Option (Value × Text) :=
  match t with
  | 't' :: 'r' :: 'u' :: 'e' :: rest => some (.boolean true, rest)
  | 'f' :: 'a' :: 'l' :: 's' :: 'e' :: rest => some (.boolean false, rest)
  | '\x22' :: _ => (readString t).map fun r => (.string r.1, r.2)
  | '\x27' :: _ => (readString t).map fun r => (.string r.1, r.2)
  | _ => readNumeral t

/-- A value with fewer than `depth` levels of brackets and braces. -/
def readValue : (depth : Nat) → Reader Value
  | 0, _ => none
  | depth + 1, t =>
    match t with
    | '[' :: rest =>
      if depth = 0 then none
      else (readItems (readValue depth) (rest.length + 1) rest).map fun r => (.array r.1, r.2)
    | '\x7b' :: rest =>
      if depth = 0 then none
      else match readInline (readValue depth) rest with
        | none => none
        | some (lines, rest) =>
          (Entries.addAll lines []).map fun entries => (.table .inline entries, rest)
    | _ => readScalar t

/-! ### Lines -/

/-- A line of a document that is not empty. -/
inductive Line where
  | entry (keys : List Text) (value : Value)
  /-- A header in brackets. -/
  | table (keys : List Text)
  /-- A header in double brackets. -/
  | tables (keys : List Text)
  deriving Repr, Inhabited

/-- An entry that fills its line, and what follows the line. -/
def readEntryLine (t : Text) : Option (Line × Text) := do
  let ((keys, v), t) ← readEntry (readValue depthBound) t
  let rest ← afterLine t
  return (.entry keys v, rest)

/-- A header that fills its line, behind the opening brackets, and what follows the line. -/
def readHeader (close : Text) (header : List Text → Line) (t : Text) : Option (Line × Text) := do
  let (keys, t) ← readKey t
  let rest ← afterLine (← Text.after? close t)
  return (header keys, rest)

/-- The next line of a text that does not start with a blank. Nothing is given for a comment or an
empty line. -/
def readNextLine (t : Text) : Option (Option Line × Text) :=
  match t with
  | '#' :: rest => (afterComment rest).map fun rest => (none, rest)
  | '\n' :: rest => some (none, rest)
  | '\r' :: _ => (afterBreak? t).map fun rest => (none, rest)
  | '[' :: '[' :: rest => (readHeader [']', ']'] .tables rest).map fun r => (some r.1, r.2)
  | '[' :: rest => (readHeader [']'] .table rest).map fun r => (some r.1, r.2)
  | _ => (readEntryLine t).map fun r => (some r.1, r.2)

def Line.ofText (t : Text) : Option (List Line) :=
  match _h : skipBlanks t with
  | [] => some []
  | c :: cs =>
    match readNextLine (c :: cs) with
    | none => none
    | some (line, rest) =>
      if rest.length ≤ cs.length then (ofText rest).map fun lines => line.toList ++ lines
      else none
termination_by t.length
decreasing_by
  have := (List.dropWhile_suffix isBlank (l := t)).length_le
  have h : (skipBlanks t).length ≤ t.length := this
  rw [_h, List.length_cons] at h
  omega

end PromptTags.Toml
