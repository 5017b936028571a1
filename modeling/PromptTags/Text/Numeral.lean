import PromptTags.Text.Basic

/-!
Decimal and other positional numerals. Reading accepts ASCII digits only; the bounded readers for
counts also take a leading plus sign, and refuse values that do not fit.
-/

namespace PromptTags.Text

/-- The value of an ASCII digit. -/
def digitValue (c : Char) : Nat := c.toNat - '0'.toNat

/-- The value of a run of decimal digits, read on from `start`. -/
def decimalValue (start : Nat) (digits : Text) : Nat :=
  digits.foldl (fun n c => 10 * n + digitValue c) start

/-- The value of a non-empty text of ASCII digits. -/
def natural? (t : Text) : Option Nat :=
  if t.isEmpty || !t.all Char.isDigit then none else some (decimalValue 0 t)

/-- A number below `bound`, written in ASCII digits after an optional plus sign. -/
def boundedNumber? (bound : Nat) (t : Text) : Option Nat :=
  let digits := match t with
    | '+' :: rest => rest
    | _ => t
  (natural? digits).filter (· < bound)

/-- The decimal digits of a number, without leading zeros. -/
def ofNat (n : Nat) : Text := Nat.toDigits 10 n

/-- A number in decimal, with a minus sign if it is negative. -/
def ofInt : Int → Text
  | .ofNat n => ofNat n
  | .negSucc n => '-' :: ofNat (n + 1)

/-- The value of an ASCII digit or letter as a digit of a base of up to sixteen. -/
def digitIn? (base : Nat) (c : Char) : Option Nat :=
  let value :=
    if c.isDigit then c.toNat - '0'.toNat
    else if 'a' ≤ c ∧ c ≤ 'f' then c.toNat - 'a'.toNat + 10
    else if 'A' ≤ c ∧ c ≤ 'F' then c.toNat - 'A'.toNat + 10
    else base
  if value < base then some value else none

/-- The value of a non-empty text of digits of the given base. -/
def naturalIn? (base : Nat) (t : Text) : Option Nat :=
  if t.isEmpty then none
  else t.foldlM (fun n c => (digitIn? base c).map (base * n + ·)) 0

def charOfCode? (n : Nat) : Option Char :=
  if h : n.isValidChar then some (Char.ofNatAux n h) else none

end PromptTags.Text
