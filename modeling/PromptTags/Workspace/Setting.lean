import PromptTags.Text.Basic

/-!
The settings of a workspace and their keys.
-/

namespace PromptTags

inductive Setting where
  | tagsDir
  | saveRawPrompt
  | maxPasses
  | maxRepeat
  | namespaceKeying
  | debug
  deriving DecidableEq, Repr

namespace Setting

/-- The settings in the order in which they are listed. -/
def all : List Setting :=
  [tagsDir, saveRawPrompt, maxPasses, maxRepeat, namespaceKeying, debug]

def key : Setting → String
  | tagsDir => "tags_dir"
  | saveRawPrompt => "save_raw_prompt"
  | maxPasses => "max_passes"
  | maxRepeat => "max_repeat"
  | namespaceKeying => "namespace_keying"
  | debug => "debug"

def ofKey? (key : Text) : Option Setting := all.find? fun s => s.key.toList = key

/-- All keys, with commas between them. -/
def allKeys : String := ", ".intercalate (all.map key)

end Setting

end PromptTags
