import PromptTags.Text.Basic

/-!
The tokens of a YAML text. Indentation has become tokens of its own: the start and the end of every
block collection, and the key sign that a simple key does not write.
-/

namespace PromptTags.Yaml

inductive ScalarStyle where
  | plain
  | quoted
  | block
  deriving DecidableEq, Repr

/-- A tag as it is written: a handle and the rest. Escapes may spell octets that are the form of no
text, so the rest is in octets. -/
structure TagName where
  handle : Text
  suffix : List UInt8
  deriving DecidableEq, Repr

inductive Token where
  | streamStart
  | streamEnd
  | versionDirective (major minor : Nat)
  | tagDirective (handle : Text) (expansion : List UInt8)
  | documentStart
  | documentEnd
  | blockSequenceStart
  | blockMappingStart
  | blockEnd
  | flowSequenceStart
  | flowSequenceEnd
  | flowMappingStart
  | flowMappingEnd
  | blockEntry
  | flowEntry
  | key
  | value
  | alias (name : Text)
  | anchor (name : Text)
  | tag (name : TagName)
  | scalar (text : Text) (style : ScalarStyle)
  deriving DecidableEq, Repr

end PromptTags.Yaml
