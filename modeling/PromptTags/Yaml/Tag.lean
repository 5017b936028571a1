import PromptTags.Text.Numeral
import PromptTags.Yaml.Cursor
import PromptTags.Yaml.Fault
import PromptTags.Yaml.Token

/-!
Tags, anchors and directives as they are written. A tag is given in full between angle brackets, or
by a handle and a suffix; octets may be escaped by a percent sign.
-/

namespace PromptTags.Yaml

/-- A character of a tag. Between angle brackets brackets and commas are admitted as well. -/
def isTagChar (verbatim : Bool) (c : Char) : Bool :=
  isNameChar c || c ∈ ";/?:@&=+$.!~*()\x27".toList || (verbatim && c ∈ [',', '[', ']'])

/-- The common start of the tags of the core types. -/
def coreTagStart : List UInt8 := Text.octets (Text.lit "tag:yaml.org,2002:")

def tagSign : UInt8 := 0x21

/-- The number of octets of a character whose UTF-8 form starts with a given octet. -/
def octetCount? (n : Nat) : Option Nat :=
  if n < 0x80 then some 1
  else if n / 0x20 = 0x6 then some 2
  else if n / 0x10 = 0xE then some 3
  else if n / 0x8 = 0x1E then some 4
  else none

/-- How many octets of a character are missing behind one more escaped octet. Only the high bits
are looked at, so that octets pass which are the form of no character. -/
def missingAfter? (missing octet : Nat) : Option Nat :=
  if missing = 0 then (octetCount? octet).map (· - 1)
  else if octet / 0x40 = 0x2 then some (missing - 1)
  else none

/-- Read the characters of a tag, decoding escapes; `missing` octets of an escaped character are to
come. Gives the octets, last one first, and what follows. -/
def readTagChars (verbatim : Bool) :
    (done : List UInt8) → (missing : Nat) → Text → Except Fault (List UInt8 × Text)
  | done, missing, '%' :: a :: b :: cs =>
    match Text.digitIn? 16 a, Text.digitIn? 16 b with
    | some x, some y =>
      let octet := 16 * x + y
      match missingAfter? missing octet with
      | none => .error .tagEscape
      | some missing => readTagChars verbatim (octet.toUInt8 :: done) missing cs
    | _, _ => .error .tagEscape
  | done, missing, c :: cs =>
    if missing ≠ 0 ∨ c = '%' then .error .tagEscape
    else if isTagChar verbatim c then
      readTagChars verbatim ((Text.octets [c]).reverse ++ done) missing cs
    else .ok (done, c :: cs)
  | done, missing, [] => if missing ≠ 0 then .error .tagEscape else .ok (done, [])

/-- Read the octets of a tag behind `head`, which counts towards the one character it needs; the
first character of `head` is the sign of the tag and is left out. An octet of zero ends the tag. -/
def readTagText (verbatim : Bool) (head : Text) (t : Text) :
    Except Fault (List UInt8 × Text) := do
  let (done, rest) ← readTagChars verbatim [] 0 t
  if head.isEmpty && done.isEmpty then throw .tagText
  return (Text.octets (head.drop 1) ++ done.reverse.takeWhile (· ≠ 0), rest)

/-- Read a handle: the sign of a tag, a name, and the sign again if it is there. -/
def readHandle (t : Text) : Except Fault (Text × Text) :=
  match t with
  | '!' :: cs =>
    let name := cs.takeWhile isNameChar
    match cs.dropWhile isNameChar with
    | '!' :: rest => .ok ('!' :: name ++ ['!'], rest)
    | rest => .ok ('!' :: name, rest)
  | _ => .error .tagHandle

def isClosedHandle (handle : Text) : Bool :=
  2 ≤ handle.length && handle.getLast? = some '!'

/-- Read a tag in either form, up to the gap or comma behind it. -/
def readTag (inFlow : Bool) (t : Text) : Except Fault (TagName × Text) := do
  let (name, rest) ← match t with
    | '!' :: '<' :: cs => do
      let (suffix, rest) ← readTagText true [] cs
      match rest with
      | '>' :: rest => .ok (⟨[], suffix⟩, rest)
      | _ => throw .tagEnd
    | _ => do
      let (handle, rest) ← readHandle t
      if isClosedHandle handle then
        let (suffix, rest) ← readTagText false [] rest
        pure ((⟨handle, suffix⟩ : TagName), rest)
      else
        let (suffix, rest) ← readTagText false handle rest
        if suffix.isEmpty then pure (⟨[], [tagSign]⟩, rest) else pure (⟨['!'], suffix⟩, rest)
  if atGap rest || (inFlow && rest.head? = some ',') then return (name, rest)
  throw .tagEnd

/-- Read the name of an anchor or alias behind its sign. -/
def readAnchor (t : Text) : Except Fault (Text × Text) :=
  let name := t.takeWhile isNameChar
  let rest := t.dropWhile isNameChar
  let ended := atGap rest || rest.head?.any (· ∈ "?:,]\x7d%@\x60".toList)
  if name.isEmpty || !ended then .error .anchorName else .ok (name, rest)

/-- Read a part of a version number, which has at most nine digits. -/
def readVersionPart (t : Text) : Except Fault (Nat × Text) :=
  let digits := t.takeWhile Char.isDigit
  if digits.isEmpty || 9 < digits.length then .error .versionNumber
  else .ok (Text.decimalValue 0 digits, t.dropWhile Char.isDigit)

def readVersion (t : Text) : Except Fault (Token × Text) := do
  let (major, t) ← readVersionPart (t.dropWhile isBlank)
  match t with
  | '.' :: t =>
    let (minor, t) ← readVersionPart t
    return (.versionDirective major minor, t)
  | _ => throw .versionNumber

def readTagDirective (t : Text) : Except Fault (Token × Text) := do
  let (handle, t) ← readHandle (t.dropWhile isBlank)
  if !isClosedHandle handle && handle ≠ ['!'] then throw .directiveHandle
  match t with
  | c :: _ => if !isBlank c then throw .directiveBlank
  | [] => throw .directiveBlank
  let (expansion, t) ← readTagText true [] (t.dropWhile isBlank)
  if !atGap t then throw .directiveBlank
  return (.tagDirective handle expansion, t)

/-- Read a directive behind its sign, up to the comment or line break that ends it. -/
def readDirective (t : Text) : Except Fault (Token × Text) := do
  let name := t.takeWhile isNameChar
  let rest := t.dropWhile isNameChar
  if name.isEmpty || !atGap rest then throw .directiveName
  if name = "YAML".toList then readVersion rest
  else if name = "TAG".toList then readTagDirective rest
  else throw .unknownDirective

end PromptTags.Yaml
