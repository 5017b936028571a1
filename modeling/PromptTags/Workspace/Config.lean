import PromptTags.Expansion.Expander
import PromptTags.Text.Numeral
import PromptTags.Workspace.Failure

/-!
The configuration of a workspace: its settings with their types, and reading and changing them by
key with texts for values.
-/

namespace PromptTags

structure Config where
  /-- Where the tag files are; taken from the root of the workspace unless absolute. -/
  tagsDir : Option Path
  /-- Whether the texts before expansion are recorded. -/
  saveRawPrompt : Bool
  maxPasses : UInt64
  maxRepeat : UInt32
  keying : Keying
  debug : Bool
  deriving DecidableEq, Repr

namespace Config

/-- The configuration of a new workspace. -/
def standard : Config where
  tagsDir := none
  saveRawPrompt := false
  maxPasses := Expander.defaultMaxPasses.toUInt64
  maxRepeat := Expander.defaultMaxRepeat.toUInt32
  keying := .stem
  debug := false

/-- The directory of tag files unless another one is set. -/
def standardTagsDir : Path := Text.lit "tags"

/-- The directory of tag files of a workspace with the given root. -/
def tagsDirIn (c : Config) (root : Path) : Path :=
  match c.tagsDir with
  | none => Path.join root standardTagsDir
  | some dir => if dir.isEmpty then Path.join root standardTagsDir else Path.join root dir

def expander (c : Config) : Expander := ⟨c.maxPasses.toNat, c.maxRepeat.toNat⟩

def boolWord (b : Bool) : Text := Text.lit (if b then "true" else "false")

def get (c : Config) : Setting → Text
  | .tagsDir => c.tagsDir.getD []
  | .saveRawPrompt => boolWord c.saveRawPrompt
  | .maxPasses => Text.ofNat c.maxPasses.toNat
  | .maxRepeat => Text.ofNat c.maxRepeat.toNat
  | .namespaceKeying => c.keying.name
  | .debug => boolWord c.debug

/-- The truth value a word stands for, whatever the case of its letters. No letter outside of ASCII
has a small form within these words. -/
def boolOf? (word : Text) : Option Bool :=
  let word := Text.lower word
  if Text.isAny ["true", "yes", "on", "1"] word then some true
  else if Text.isAny ["false", "no", "off", "0"] word then some false
  else none

def readBool (setting : Setting) (value : Text) : Except ConfigFault Bool :=
  match boolOf? value with
  | some b => .ok b
  | none => .error (.notBoolean setting value)

/-- The number below `bound` that a text gives a setting. -/
def readCount (bound : Nat) (setting : Setting) (value : Text) : Except ConfigFault Nat :=
  match Text.boundedNumber? bound value with
  | some n => .ok n
  | none => .error (.notCount setting value)

/-- The configuration with a setting changed to what a text stands for. The empty text unsets the
directory of tag files. -/
def set (c : Config) (setting : Setting) (value : Text) : Except ConfigFault Config :=
  match setting with
  | .tagsDir => .ok { c with tagsDir := if value.isEmpty then none else some value }
  | .saveRawPrompt => (readBool setting value).map fun b => { c with saveRawPrompt := b }
  | .maxPasses =>
    (readCount UInt64.size setting value).map fun n => { c with maxPasses := n.toUInt64 }
  | .maxRepeat =>
    (readCount UInt32.size setting value).map fun n => { c with maxRepeat := n.toUInt32 }
  | .namespaceKeying =>
    match Keying.ofWord? value with
    | some keying => .ok { c with keying := keying }
    | none => .error (.unknownKeying value)
  | .debug => (readBool setting value).map fun b => { c with debug := b }

/-- The setting with a key, which has to be known. -/
def settingOf (key : Text) : Except ConfigFault Setting :=
  match Setting.ofKey? key with
  | some setting => .ok setting
  | none => .error (.unknownKey key)

def getKey (c : Config) (key : Text) : Except ConfigFault Text := (settingOf key).map c.get

def setKey (c : Config) (key value : Text) : Except ConfigFault Config :=
  (settingOf key).bind fun setting => c.set setting value

def list (c : Config) : List (String × Text) := Setting.all.map fun s => (s.key, c.get s)

end Config

end PromptTags
