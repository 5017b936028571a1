import PromptTags.Decimal.Shortest
import PromptTags.Yaml.Tree

/-!
Typed values. A plain scalar without a tag is read as a null, a truth value, an integer or a
floating point number if it has the form of one, and else is a text; the tags of the core types ask
for one type. Aliases are replaced by what their anchor holds. Mappings list their entries in
reading order, with keys of any kind, and possibly more than once.
-/

namespace PromptTags.Yaml

inductive Value where
  | null
  | bool (value : Bool)
  | int (value : Int)
  | float (value : Binary64)
  | text (value : Text)
  | sequence (items : List Value)
  | mapping (entries : List (Value × Value))
  /-- Here reading stops. -/
  | broken (fault : Fault)
  deriving Repr, Inhabited

def isNullWord (t : Text) : Bool :=
  Text.isAny ["null", "Null", "NULL", "~"] t

def boolWord? (t : Text) : Option Bool :=
  if Text.isAny ["true", "True", "TRUE"] t then some true
  else if Text.isAny ["false", "False", "FALSE"] t then some false
  else none

/-- Digits that start with a zero and go on after it, with or without a sign, are no number. -/
def hasLeadingZero (t : Text) : Bool :=
  let digits := match t with
    | '-' :: rest => rest
    | '+' :: rest => rest
    | _ => t
  match digits with
  | '0' :: c :: rest => (c :: rest).all Char.isDigit
  | _ => false

/-- A numeral of one of the bases that a prefix names, below `bound`. -/
def basedNumeral? (bound : Nat) (t : Text) : Option Nat :=
  (match t with
    | '0' :: 'x' :: digits => Text.naturalIn? 16 digits
    | '0' :: 'o' :: digits => Text.naturalIn? 8 digits
    | '0' :: 'b' :: digits => Text.naturalIn? 2 digits
    | _ => none).filter (· < bound)

/-- An integer from zero up to but not including `bound`: a numeral in decimal or behind a prefix,
after an optional plus sign. -/
def nonNegative? (bound : Nat) (t : Text) : Option Nat :=
  let unsigned := match t with
    | '+' :: rest => rest
    | _ => t
  match basedNumeral? bound unsigned with
  | some n => some n
  | none => if hasLeadingZero t then none else (Text.natural? unsigned).filter (· < bound)

/-- An integer from `-bound` up to zero: a numeral after a minus sign. -/
def nonPositive? (bound : Nat) (t : Text) : Option Int :=
  match t with
  | '-' :: unsigned =>
    match basedNumeral? (bound + 1) unsigned with
    | some n => some (-n)
    | none =>
      if hasLeadingZero t then none
      else ((Text.natural? unsigned).filter (· ≤ bound)).map fun n => -(n : Int)
  | _ => none

/-- Numbers of 64 bits lie below this bound. -/
def wordBound : Nat := UInt64.size

/-- Numbers of 128 bits lie below this bound. -/
def doubleBound : Nat := wordBound * wordBound

/-- An integer: below `2 ^ 64` if it is not negative, and not below `-2 ^ 63` if it is. A numeral
outside of that is still refused as an integer if 128 bits can hold it, and else is none. -/
def integer? (t : Text) : Option (Except Fault Int) :=
  match nonNegative? wordBound t with
  | some n => some (.ok n)
  | none =>
    match nonPositive? (wordBound / 2) t with
    | some i => some (.ok i)
    | none =>
      if (nonNegative? doubleBound t).isSome || (nonPositive? (doubleBound / 2) t).isSome then
        some (.error .numberTooLarge)
      else none

/-- A floating point number: a decimal numeral that is not too large, or one of the words for
infinity and for what is no number. -/
def float? (t : Text) : Option Binary64 :=
  let unsigned := match t with
    | '+' :: rest => rest
    | _ => t
  let twoSigns := match t with
    | '+' :: c :: _ => c = '+' || c = '-'
    | _ => false
  if twoSigns then none
  else if Text.isAny [".inf", ".Inf", ".INF"] unsigned then some (.infinite false)
  else if Text.isAny ["-.inf", "-.Inf", "-.INF"] t then some (.infinite true)
  else if Text.isAny [".nan", ".NaN", ".NAN"] t then some .nan
  else (Binary64.parse? unsigned).filter Binary64.isFinite

namespace Value

def ofPlain (t : Text) : Value :=
  if t.isEmpty || isNullWord t then .null
  else match boolWord? t with
    | some b => .bool b
    | none =>
      match integer? t with
      | some (.ok i) => .int i
      | some (.error e) => .broken e
      | none =>
        if hasLeadingZero t then .text t
        else match float? t with
          | some x => .float x
          | none => .text t

def coreTag (name : String) : List UInt8 := coreTagStart ++ Text.octets name.toList

/-- The value that a tag of a core type makes of a scalar, whatever its style. -/
def ofCoreTag? (tag : List UInt8) (t : Text) : Option Value :=
  if tag = coreTag "bool" then
    some (match boolWord? t with
      | some b => .bool b
      | none => .broken (.notOfType "a boolean"))
  else if tag = coreTag "int" then
    some (match integer? t with
      | some (.ok i) => .int i
      | some (.error e) => .broken e
      | none => .broken (.notOfType "an integer"))
  else if tag = coreTag "float" then
    some (match float? t with
      | some x => .float x
      | none => .broken (.notOfType "a float"))
  else if tag = coreTag "null" then
    some (if isNullWord t then .null else .broken (.notOfType "null"))
  else none

/-- Whether a tag is one of the text's own. -/
def isLocalTag (tag : List UInt8) : Bool := tag.head? = some tagSign

/-- The value of a scalar. A tag of the text's own counts as none. -/
def ofScalar (tag : Option (List UInt8)) (t : Text) (style : ScalarStyle) : Value :=
  let bare := if style = .plain then ofPlain t else .text t
  match tag with
  | none => bare
  | some tag => if isLocalTag tag then bare else (ofCoreTag? tag t).getD (.text t)

end Value

/-- The state while a document is turned into a value: how many more aliases may be followed, and
whether reading has stopped. -/
structure Unfolding where
  aliases : Nat
  stopped : Bool
  deriving DecidableEq, Repr

namespace Value

/-- The deepest nesting of collections that is read. -/
def maxDepth : Nat := 128

/-- How many aliases may be followed for each event of the document. -/
def aliasesPerEvent : Nat := 100

/-- Reading stops at a fault. -/
def stop (fault : Fault) (u : Unfolding) : Value × Unfolding :=
  (.broken fault, { u with stopped := true })

/-- A value that was read; at a broken one reading stops. -/
def done (v : Value) (u : Unfolding) : Value × Unfolding :=
  match v with
  | .broken fault => stop fault u
  | _ => (v, u)

def readItems (read : Tree → Unfolding → Value × Unfolding) :
    List Tree → Unfolding → List Value × Unfolding
  | [], u => ([], u)
  | t :: ts, u =>
    let (v, u) := read t u
    if u.stopped then ([v], u)
    else
      let (vs, u) := readItems read ts u
      (v :: vs, u)

def readEntries (read : Tree → Unfolding → Value × Unfolding) :
    List (Tree × Tree) → Unfolding → List (Value × Value) × Unfolding
  | [], u => ([], u)
  | (k, t) :: ts, u =>
    let (key, u) := read k u
    if u.stopped then ([(key, .null)], u)
    else
      let (v, u) := read t u
      if u.stopped then ([(key, v)], u)
      else
        let (vs, u) := readEntries read ts u
        ((key, v) :: vs, u)

/-- Read a node with at most `depth` levels of collections. `find` gives the node behind an
alias. -/
def ofTree (find : Nat → Tree) : (depth : Nat) → Tree → Unfolding → Value × Unfolding
  | depth, t, u =>
    let (t, followed) := match t with
      | .alias id => (find id, true)
      | _ => (t, false)
    if followed && u.aliases = 0 then stop .tooManyAliases u
    else
      let u := if followed then { u with aliases := u.aliases - 1 } else u
      match t, depth with
      | .scalar _ tag content style, _ => done (ofScalar tag content style) u
      | .broken fault, _ => stop fault u
      | .alias _, _ => stop .unknownAnchor u
      | .sequence _ _ _, 0 => stop .tooDeep u
      | .mapping _ _ _, 0 => stop .tooDeep u
      | .sequence _ _ items, depth + 1 =>
        let (vs, u) := readItems (ofTree find depth) items u
        (.sequence vs, u)
      | .mapping _ _ entries, depth + 1 =>
        let (vs, u) := readEntries (ofTree find depth) entries u
        (.mapping vs, u)

end Value

end PromptTags.Yaml
