import PromptTags.Text.Numeral

/-!
How many values a directive asks for: a count, or a range written with a hyphen in either order.
-/

namespace PromptTags

/-- Inclusive bounds on how many values a directive draws. -/
structure RepeatRange where
  min : Nat
  max : Nat
  deriving DecidableEq, Repr

namespace RepeatRange

/-- Exactly one value, which is what a directive without a count draws. -/
def once : RepeatRange := ⟨1, 1⟩

def countBound : Nat := UInt32.size

/-- A single count: ASCII digits, with a value that fits. -/
def count? (t : Text) : Option Nat := (Text.natural? t).filter (· < countBound)

/-- The range from one bound to the other, whichever is smaller. -/
def ofBounds (a b : Nat) : RepeatRange := ⟨Nat.min a b, Nat.max a b⟩

/-- Read a count, or two counts with a hyphen between them. The first hyphen divides. -/
def parse? (t : Text) : Option RepeatRange :=
  match t.dropWhile (· ≠ '-') with
  | [] => (count? t).map fun n => ofBounds n n
  | _ :: right => do
    let a ← count? (t.takeWhile (· ≠ '-'))
    let b ← count? right
    return ofBounds a b

end RepeatRange

end PromptTags
