import PromptTags.Decimal.Binary64

/-!
Values of TOML documents. Tables remember how they came about, because that decides what a later
part of the document may add to them.
-/

namespace PromptTags.Toml

/-- How a table came about. -/
inductive Origin where
  /-- Between braces. Nothing can be added to it. -/
  | inline
  /-- By a header of its own, or as the document itself. -/
  | header
  /-- On the way to the table of a header. -/
  | implied
  /-- On the way to the last key of a dotted key. -/
  | dotted
  deriving DecidableEq, Repr

/-- A value. The entries of a table have distinct keys. -/
inductive Value where
  | string (text : Text)
  | integer (value : Int)
  | float (value : Binary64)
  | boolean (value : Bool)
  /-- A date, a time or both, as it is written. -/
  | dateTime (written : Text)
  | array (items : List Value)
  | table (origin : Origin) (entries : List (Text × Value))
  /-- Tables that are opened by headers in double brackets, first one first. -/
  | tables (items : List (List (Text × Value)))
  deriving Repr, Inhabited

/-- The entries of a table in the order in which they were added. -/
abbrev Entries := List (Text × Value)

end PromptTags.Toml
