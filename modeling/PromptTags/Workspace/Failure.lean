import PromptTags.Files.Fault
import PromptTags.Files.Path
import PromptTags.Tag.Namespace
import PromptTags.Workspace.Setting

/-!
What can go wrong with a workspace, and how it is put to the user: a message, an exit code, and a
longer text that says what to do.
-/

namespace PromptTags

/-- What can be wrong with a configuration, or with the place it is to be kept in. -/
inductive ConfigFault where
  | unknownKey (key : Text)
  | notBoolean (setting : Setting) (value : Text)
  | notCount (setting : Setting) (value : Text)
  | unknownKeying (word : Text)
  /-- The stored text is no document of the format. -/
  | notDocument
  /-- The stored value of a setting is not of its type. -/
  | wrongType (setting : Setting)
  | tooGreat
  | alreadyWorkspace (root : Path)
  | noWorkspaceAt (root : Path)
  /-- A fault of which only the wording is known. -/
  | stated (wording : Text)
  deriving DecidableEq, Repr

namespace ConfigFault

/-- The start of every message about a stored text that cannot be read. -/
def unreadable : String := "Failed to parse config.toml:"

def message : ConfigFault → String
  | unknownKey key =>
    s!"Unknown config key: '{String.ofList key}'. Valid keys are: {Setting.allKeys}"
  | notBoolean setting value =>
    s!"Invalid value for {setting.key}: '{String.ofList value}'. Expected true or false"
  | notCount setting value =>
    s!"Invalid value for {setting.key}: '{String.ofList value}'. Expected a whole number"
  | unknownKeying word => Keying.unknownMessage word
  | notDocument => s!"{unreadable} not a TOML document"
  | wrongType setting => s!"{unreadable} unexpected value for '{setting.key}'"
  | tooGreat => "Failed to serialize config: out-of-range value for u64 type"
  | alreadyWorkspace root => s!"Directory already initialized: {String.ofList root}"
  | noWorkspaceAt root =>
    s!"PROMPTSEL_ROOT is set to '{String.ofList root}' but no .promptsel directory found. " ++
      "Run 'promptsel init' in that directory or unset PROMPTSEL_ROOT."
  | stated wording => String.ofList wording

end ConfigFault

inductive Failure where
  | notWorkspace (dir : Path)
  | tagNotFound (path : Text)
  | files (fault : FileFault)
  | config (fault : ConfigFault)
  deriving DecidableEq, Repr

namespace Failure

def filesMessage : String := "IO error:"

def message : Failure → String
  | notWorkspace dir => s!"Not a promptsel workspace: {String.ofList dir}"
  | tagNotFound path => s!"Tag not found: {String.ofList path}"
  | files fault => s!"{filesMessage} {fault.message}"
  | config fault => s!"Configuration error: {fault.message}"

def exitCode : Failure → Nat
  | notWorkspace _ => 2
  | tagNotFound _ => 4
  | files _ => 1
  | config _ => 1

def suggestions (items : List String) : String :=
  "\n\nSuggestions:\n" ++ "\n".intercalate (items.map fun item => s!"• {item}")

/-- What is shown to the user: the failure with suggestions what to do about it. A message about a
configuration has them if it names the setting for namespaces. -/
def advice : Failure → String
  | notWorkspace dir =>
    (notWorkspace dir).message ++ suggestions
      ["Run 'promptsel init' in this directory to create a workspace",
        "Navigate to an existing promptsel workspace",
        "Set PROMPTSEL_ROOT environment variable to your workspace path"]
  | tagNotFound path =>
    s!"No tags found under: '{String.ofList path}'" ++ suggestions
      ["Use 'promptsel tags' to see loaded namespaces",
        "Separate nested keys with ':' (e.g., outfits:casual)",
        "Use 'promptsel check' to see tag files that failed to load"]
  | files fault => (files fault).message
  | config fault =>
    if Text.hasPart Setting.namespaceKeying.key.toList fault.message.toList then
      fault.message ++ "\n\nValid values: stem, relative-path\n" ++
        "Example: promptsel config namespace_keying relative-path"
    else fault.message

def ofFiles {α : Type} : Except FileFault α → Except Failure α
  | .ok a => .ok a
  | .error fault => .error (files fault)

def ofConfig {α : Type} : Except ConfigFault α → Except Failure α
  | .ok a => .ok a
  | .error fault => .error (config fault)

/-- Do something with files, and fail if that fails. -/
def orFiles {α : Type} {m : Type → Type} [Monad m] (action : m (Except FileFault α)) :
    ExceptT Failure m α :=
  ExceptT.mk (ofFiles <$> action)

/-- Take a result that depends on a configuration, and fail if there is none. -/
def orConfig {α : Type} {m : Type → Type} [Monad m] (result : Except ConfigFault α) :
    ExceptT Failure m α :=
  ExceptT.mk (pure (ofConfig result))

end Failure

end PromptTags
