import PromptTags.Text.Numeral
import PromptTags.Toml.Reader
import PromptTags.Toml.Value

/-!
Numbers, dates and times. Digits may have underscores between them. Integers have 64 bits with a
sign; floating point numbers may be infinite or no number, but a finite numeral must not be too
great. Dates have to exist in the calendar.
-/

namespace PromptTags.Toml

/-! ### Digits -/

/-- Digits that go on a numeral, each with at most one underscore in front; without the
underscores. -/
def moreDigits (isDigit : Char → Bool) : Reader Text
  | [] => some ([], [])
  | [c] => if c = '_' then none else if isDigit c then some ([c], []) else some ([], [c])
  | c :: d :: rest =>
    if c = '_' then
      if isDigit d then (moreDigits isDigit rest).map fun r => (d :: r.1, r.2) else none
    else if isDigit c then (moreDigits isDigit (d :: rest)).map fun r => (c :: r.1, r.2)
    else some ([], c :: d :: rest)

/-- One digit at least, and those that go on. -/
def someDigits (isDigit : Char → Bool) : Reader Text
  | [] => none
  | c :: rest =>
    if isDigit c then (moreDigits isDigit rest).map fun r => (c :: r.1, r.2) else none

/-- The whole part of a decimal numeral: a zero alone, or digits that start with another one. -/
def wholeDigits (t : Text) : Option (Text × Text) :=
  match t with
  | '0' :: rest => some (['0'], rest)
  | _ => someDigits Char.isDigit t

/-! ### Numbers -/

def cutSign (t : Text) : Text × Text :=
  match t with
  | '+' :: rest => (['+'], rest)
  | '-' :: rest => (['-'], rest)
  | _ => ([], t)

/-- Integers lie below this bound, and not below its negative. -/
def integerBound : Int := 0x8000000000000000

/-- An integer, if it fits into 64 bits. -/
def integer? (value : Int) : Option Value :=
  if -integerBound ≤ value ∧ value < integerBound then some (.integer value) else none

/-- The numeral of a given base behind its mark. -/
def basedInteger (base : Nat) (t : Text) : Option (Value × Text) := do
  let (digits, rest) ← someDigits (fun c => (Text.digitIn? base c).isSome) t
  let n ← Text.naturalIn? base digits
  let value ← integer? n
  return (value, rest)

/-- A floating point number, given its text without underscores. -/
def float? (t : Text) : Option Value :=
  match Binary64.parse? t with
  | some (.infinite false) => none
  | some x => some (.float x)
  | none => none

/-- The exponent of a numeral, if one follows: its text without underscores. -/
def exponentPart (t : Text) : Option (Text × Text) :=
  match t with
  | c :: rest =>
    if c = 'e' ∨ c = 'E' then do
      let (sign, rest) := cutSign rest
      let (digits, rest) ← someDigits Char.isDigit rest
      return ('e' :: sign ++ digits, rest)
    else some ([], t)
  | [] => some ([], [])

/-- The point of a numeral and the digits after it, if they follow. -/
def fractionPart (t : Text) : Option (Text × Text) :=
  match t with
  | '.' :: rest => do
    let (digits, rest) ← someDigits Char.isDigit rest
    return ('.' :: digits, rest)
  | _ => some ([], t)

/-- A decimal numeral with an optional sign: an integer unless it has a point or an exponent. -/
def decimalNumber (t : Text) : Option (Value × Text) := do
  let (sign, body) := cutSign t
  let (whole, rest) ← wholeDigits body
  let (fraction, rest) ← fractionPart rest
  let (exponent, rest) ← exponentPart rest
  if fraction.isEmpty && exponent.isEmpty then
    let n : Int := Text.decimalValue 0 whole
    let value ← integer? (if sign = ['-'] then -n else n)
    return (value, rest)
  else
    let value ← float? (sign ++ whole ++ fraction ++ exponent)
    return (value, rest)

/-- The words for infinity and for what is no number, with an optional sign. -/
def namedNumber? (t : Text) : Option (Value × Text) :=
  match cutSign t with
  | (sign, 'i' :: 'n' :: 'f' :: rest) => some (.float (.infinite (sign = ['-'])), rest)
  | (_, 'n' :: 'a' :: 'n' :: rest) => some (.float .nan, rest)
  | _ => none

def readNumber (t : Text) : Option (Value × Text) :=
  match t with
  | '0' :: 'x' :: rest => basedInteger 16 rest
  | '0' :: 'o' :: rest => basedInteger 8 rest
  | '0' :: 'b' :: rest => basedInteger 2 rest
  | _ =>
    match namedNumber? t with
    | some found => some found
    | none => decimalNumber t

/-! ### Dates and times -/

def fixedDigits (n : Nat) (t : Text) : Option (Nat × Text) :=
  let digits := t.take n
  if digits.length = n && digits.all Char.isDigit then
    some (Text.decimalValue 0 digits, t.drop n)
  else none

def isLeapYear (year : Nat) : Bool := year % 4 = 0 && (year % 100 ≠ 0 || year % 400 = 0)

def daysIn (year month : Nat) : Nat :=
  if month = 2 then if isLeapYear year then 29 else 28
  else if month ∈ [4, 6, 9, 11] then 30
  else 31

def afterDate (t : Text) : Option Text := do
  let (year, t) ← fixedDigits 4 t
  let (month, t) ← fixedDigits 2 (← afterSign '-' t)
  let (day, t) ← fixedDigits 2 (← afterSign '-' t)
  if 1 ≤ month ∧ month ≤ 12 ∧ 1 ≤ day ∧ day ≤ daysIn year month then some t else none

def afterMinute (t : Text) : Option Text := do
  let (hour, t) ← fixedDigits 2 t
  let (minute, t) ← fixedDigits 2 (← afterSign ':' t)
  if hour ≤ 23 ∧ minute ≤ 59 then some t else none

/-- What follows a time of a day. A second may be the sixty-first of its minute. -/
def afterTime (t : Text) : Option Text := do
  let t ← afterMinute t
  let (second, t) ← fixedDigits 2 (← afterSign ':' t)
  if 60 < second then none
  match t with
  | '.' :: c :: rest => if c.isDigit then some (rest.dropWhile Char.isDigit) else some t
  | _ => some t

def afterOffset (t : Text) : Option Text :=
  match t with
  | 'Z' :: rest => some rest
  | 'z' :: rest => some rest
  | '+' :: rest => afterMinute rest
  | '-' :: rest => afterMinute rest
  | _ => some t

/-- Whether a text starts with two digits and a colon. -/
def startsTime (t : Text) : Bool :=
  match t with
  | a :: b :: ':' :: _ => a.isDigit && b.isDigit
  | _ => false

/-- Whether a text starts with four digits and a hyphen. -/
def startsDate (t : Text) : Bool :=
  match t with
  | a :: b :: c :: d :: '-' :: _ => a.isDigit && b.isDigit && c.isDigit && d.isDigit
  | _ => false

def afterDateTime (t : Text) : Option Text := do
  let t ← afterDate t
  match t with
  | c :: rest =>
    if (c = 'T' || c = 't' || c = ' ') && startsTime rest then (afterTime rest).bind afterOffset
    else some t
  | [] => some t

/-- A date, a time or both; or a number. -/
def readNumeral (t : Text) : Option (Value × Text) :=
  let written (rest : Text) := (Value.dateTime (t.take (t.length - rest.length)), rest)
  if startsDate t then (afterDateTime t).map written
  else if startsTime t then (afterTime t).map written
  else readNumber t

end PromptTags.Toml
