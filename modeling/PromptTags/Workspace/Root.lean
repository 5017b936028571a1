import PromptTags.Workspace.Stored
import PromptTags.Workspace.Samples

/-!
The root of a workspace: the directory with the state directory in it. It is named by the
environment, or else is the nearest one at or above the current directory. The configuration lies
in the state directory.
-/

namespace PromptTags

/-- What a command finds around it. -/
structure Surroundings where
  current : Path
  /-- The root that the environment names. -/
  namedRoot : Option Path
  deriving DecidableEq, Repr

namespace Workspace

def stateDir (root : Path) : Path := Path.join root (Text.lit ".promptsel")

def configFile (root : Path) : Path := Path.join (stateDir root) (Text.lit "config.toml")

variable {m : Type → Type} [Monad m] [FileAccess m]

def isRoot (dir : Path) : m Bool := FileAccess.isDirectory (stateDir dir)

def firstRoot : List Path → m (Option Path)
  | [] => return none
  | dir :: dirs => do if ← isRoot dir then return some dir else firstRoot dirs

/-- The nearest root at or above a directory. -/
def discoverFrom (dir : Path) : ExceptT Failure m Path := do
  match ← firstRoot (m := m) (Path.ancestors dir) with
  | some root => return root
  | none => throw (.notWorkspace dir)

def discover (s : Surroundings) : ExceptT Failure m Path :=
  match s.namedRoot with
  | none => discoverFrom s.current
  | some root => do
    if ← isRoot (m := m) root then return root else throw (.config (.noWorkspaceAt root))

/-- Make a directory the root of a workspace, which it must not be already. -/
def establish (root : Path) : ExceptT Failure m Unit := do
  if ← FileAccess.isPresent (m := m) (stateDir root) then
    throw (.config (.alreadyWorkspace root))
  Failure.orFiles (FileAccess.makeDirectory (stateDir root))

def loadConfig (root : Path) : ExceptT Failure m Config := do
  match ← FileAccess.read (m := m) (configFile root) with
  | .ok text => Failure.orConfig (Config.ofStored text)
  | .error .notFound => throw (.notWorkspace root)
  | .error fault => throw (.files fault)

def saveConfig (root : Path) (c : Config) : ExceptT Failure m Unit := do
  if !(← FileAccess.isPresent (m := m) (stateDir root)) then
    Failure.orFiles (FileAccess.makeDirectory (stateDir root))
  let text ← Failure.orConfig c.stored
  Failure.orFiles (FileAccess.write (configFile root) text)

end Workspace

end PromptTags
