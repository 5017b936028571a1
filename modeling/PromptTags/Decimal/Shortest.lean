import PromptTags.Decimal.Binary64

/-!
The shortest decimal numeral that reads back as a floating point number. A number is read back from
every real that is nearer to it than to its neighbours; of the decimals with the fewest digits there
the one nearest to the number is taken, of two equally near ones the greater.
-/

namespace PromptTags.Binary64

/-- The reals that round to a number, scaled to integers: the number and the two bounds, all over
one denominator, and whether the bounds belong to them. -/
structure Reach where
  low : Nat
  value : Nat
  high : Nat
  den : Nat
  closed : Bool
  deriving DecidableEq, Repr

/-- The reals that round to `significand * 2 ^ exponent`. Below a power of two the numbers lie twice
as close. -/
def reach (significand : Nat) (exponent : Int) : Reach :=
  let below : Nat := if significand = leastNormal ∧ minExponent < exponent then 1 else 2
  let up := Nat.pow 2 exponent.toNat
  ⟨(4 * significand - below) * up, 4 * significand * up, (4 * significand + 2) * up,
    4 * Nat.pow 2 (-exponent).toNat, significand % 2 = 0⟩

namespace Reach

/-- Whether `digits * 10 ^ place` lies in reach. -/
def has (r : Reach) (digits : Nat) (place : Int) : Bool :=
  let x := digits * Nat.pow 10 place.toNat * r.den
  let s := Nat.pow 10 (-place).toNat
  if r.closed then r.low * s ≤ x && x ≤ r.high * s else r.low * s < x && x < r.high * s

/-- The decimal at a place that is next below the number, and whether the number lies at least
halfway from it to the next one above. -/
def floorAt (r : Reach) (place : Int) : Nat × Bool :=
  let num := r.value * Nat.pow 10 (-place).toNat
  let den := r.den * Nat.pow 10 place.toNat
  (num / den, den ≤ 2 * (num % den))

/-- The place of the first digit of the number: the greatest power of ten that is not above it. -/
def leadingPlace (r : Reach) : Int :=
  let whole := r.value / r.den
  if 0 < whole then (Nat.toDigits 10 whole).length - 1
  else -((Nat.toDigits 10 ((r.den - 1) / r.value)).length : Int)

/-- The shortest decimal in reach, with at most `left` digits more than `place` allows for. -/
def search (r : Reach) : (left : Nat) → (place : Int) → Nat × Int
  | 0, place => ((r.floorAt place).1, place)
  | left + 1, place =>
    let (floor, upper) := r.floorAt place
    let down := r.has floor place
    let up := r.has (floor + 1) place
    if up && (upper || !down) then (floor + 1, place)
    else if down then (floor, place)
    else search r left (place - 1)

end Reach

/-- The shortest decimal that reads back as `significand * 2 ^ exponent`: digits and a power of
ten. A nine that was rounded up to ten counts as one digit of the place above. -/
def shortest (significand : Nat) (exponent : Int) : Nat × Int :=
  let r := reach significand exponent
  match r.search 17 r.leadingPlace with
  | (10, place) => (1, place + 1)
  | found => found

/-- `digits * 10 ^ place` written out, without an exponent. -/
def positional (digits : Nat) (place : Int) : Text :=
  let ds := Text.ofNat digits
  if 0 ≤ place then ds ++ List.replicate place.toNat '0'
  else
    let n := (-place).toNat
    if n < ds.length then ds.take (ds.length - n) ++ '.' :: ds.drop (ds.length - n)
    else '0' :: '.' :: List.replicate (n - ds.length) '0' ++ ds

/-- A floating point number as text: shortest digits, never an exponent, no point behind a whole
number, and a sign on a negative zero. -/
def text : Binary64 → Text
  | nan => Text.lit "NaN"
  | infinite negative => Text.lit (if negative then "-inf" else "inf")
  | finite negative significand exponent =>
    let unsigned :=
      if significand = 0 then ['0']
      else
        let (digits, place) := shortest significand exponent
        positional digits place
    if negative then '-' :: unsigned else unsigned

end PromptTags.Binary64
