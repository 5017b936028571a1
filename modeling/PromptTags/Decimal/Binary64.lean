import PromptTags.Text.Numeral

/-!
Binary floating point numbers of 64 bits, as exact values: a significand of at most 53 bits times a
power of two. Decimal numerals are rounded to the nearest such number, a tie going to the even one.
-/

namespace PromptTags

/-- A floating point number. A finite one is `significand * 2 ^ exponent`, with an exponent of at
least -1074 and a significand below `2 ^ 53`, which is at least `2 ^ 52` unless the exponent is
least. -/
inductive Binary64 where
  | nan
  | infinite (negative : Bool)
  | finite (negative : Bool) (significand : Nat) (exponent : Int)
  deriving DecidableEq, Repr

namespace Binary64

/-- The quotient of two numbers rounded to the nearest integer, a tie to the even one. -/
def roundDiv (num den : Nat) : Nat :=
  let q := num / den
  let r := num % den
  if 2 * r < den then q
  else if den < 2 * r then q + 1
  else q + q % 2

/-- The least significand of 53 bits. -/
def leastNormal : Nat := 0x10000000000000

def minExponent : Int := -1074

/-- The greatest exponent of a finite number. -/
def maxExponent : Int := 971

/-- A positive quotient divided by a power of two, as a quotient. -/
def scale (num den : Nat) (exponent : Int) : Nat × Nat :=
  if exponent < 0 then (num * Nat.pow 2 (-exponent).toNat, den)
  else (num, den * Nat.pow 2 exponent.toNat)

/-- The exponent for a positive quotient: the significand is to have 53 bits if the least exponent
allows it. -/
def exponentFor (num den : Nat) : Int :=
  let guess : Int := (num.log2 : Int) - den.log2 - 52
  let (n, d) := scale num den guess
  max (if n < d * leastNormal then guess - 1 else guess) minExponent

/-- The number nearest to a quotient. -/
def ofQuotient (negative : Bool) (num den : Nat) : Binary64 :=
  if num = 0 then finite negative 0 minExponent
  else
    let exponent := exponentFor num den
    let (n, d) := scale num den exponent
    let m := roundDiv n d
    let (m, exponent) := if m = 2 * leastNormal then (leastNormal, exponent + 1) else (m, exponent)
    if maxExponent < exponent then infinite negative else finite negative m exponent

/-- The number nearest to `digits * 10 ^ exponent`. Far outside of the range of the format the power
of ten is not worked out. -/
def ofDecimal (negative : Bool) (digits : Nat) (exponent : Int) : Binary64 :=
  let size : Int := (Nat.toDigits 10 digits).length + exponent
  if digits = 0 ∨ size < -330 then finite negative 0 minExponent
  else if 310 < size then infinite negative
  else if exponent < 0 then ofQuotient negative digits (Nat.pow 10 (-exponent).toNat)
  else ofQuotient negative (digits * Nat.pow 10 exponent.toNat) 1

def isFinite : Binary64 → Bool
  | finite _ _ _ => true
  | _ => false

/-- The exponent that may end a numeral: nothing, or an `e`, an optional sign and digits. -/
def exponentPart? : Text → Option Int
  | [] => some 0
  | c :: cs =>
    if c = 'e' ∨ c = 'E' then
      match cs with
      | '-' :: digits => (Text.natural? digits).map fun n => -(n : Int)
      | '+' :: digits => (Text.natural? digits).map Int.ofNat
      | digits => (Text.natural? digits).map Int.ofNat
    else none

/-- Read digits with an optional point, at least one digit in all, and an optional exponent. -/
def unsigned? (negative : Bool) (t : Text) : Option Binary64 :=
  let whole := t.takeWhile Char.isDigit
  let rest := t.dropWhile Char.isDigit
  let (part, rest) := match rest with
    | '.' :: rest => (rest.takeWhile Char.isDigit, rest.dropWhile Char.isDigit)
    | rest => ([], rest)
  if whole.isEmpty && part.isEmpty then none
  else (exponentPart? rest).map fun e =>
    ofDecimal negative (Text.decimalValue 0 (whole ++ part)) (e - part.length)

def parse? (t : Text) : Option Binary64 :=
  match t with
  | '-' :: rest => unsigned? true rest
  | '+' :: rest => unsigned? false rest
  | _ => unsigned? false t

end Binary64

end PromptTags
