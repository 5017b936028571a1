import PromptTags.Report
import PromptTags.Tag.Listing
import PromptTags.Workspace.Root

/-!
What can be done with a workspace: making one, expanding prompts with its tag files, browsing and
checking them, and changing its configuration. The tag files are read afresh each time.
-/

namespace PromptTags.Workspace

variable {m : Type → Type} [Monad m] [FileAccess m]

/-- The directory of examples that new workspaces get their samples from. -/
def examplesDir (root : Path) : Path := Path.join root (Text.lit "tags_examples")

/-- Make a workspace, with or without sample tag files. Gives the samples that were written. -/
def create (root : Path) (withSamples : Bool) : ExceptT Failure m (List Path) := do
  if !(← FileAccess.isPresent (m := m) root) then
    Failure.orFiles (FileAccess.makeDirectories root)
  establish root
  saveConfig root Config.standard
  let tagsDir := Config.standard.tagsDirIn root
  Failure.orFiles (FileAccess.makeDirectories tagsDir)
  if !withSamples then return []
  let source ← SampleSource.detect (m := m) (examplesDir root)
  let written ← SampleSource.provision tagsDir source
  FileAccess.log (m := m) (.info
    s!"Provisioned {written.length} sample tag file(s) into {String.ofList tagsDir}")
  return written

def documents (root : Path) (c : Config) : m (List TagDocument) :=
  TagFiles.documents (c.tagsDirIn root) c.keying

def loadStore (root : Path) (c : Config) : m Store := do
  let (store, log) := Store.load (← documents root c)
  FileAccess.log log
  return store

/-- Expand a request. The source gives the seeds of its items. -/
def expand (root : Path) (r : Request) (seeds : Source) : ExceptT Failure m Batch := do
  let c ← loadConfig root
  let store ← loadStore (m := m) root c
  let (batch, log) := r.expand c.expander store.namespaces c.saveRawPrompt seeds
  FileAccess.log (m := m) log
  return batch

/-- The namespaces of a dictionary, or the paths to the leaves below a path that leads somewhere. -/
def pathsIn (store : Store) (path : Option Text) : Except Failure (List Text) :=
  match Node.pathsBelow? store.namespaces path with
  | some paths => .ok paths
  | none => .error (.tagNotFound (path.getD []))

/-- The namespaces of a workspace, or the paths to the leaves below a path. -/
def tagPaths (root : Path) (path : Option Text) : ExceptT Failure m (List Text) := do
  let c ← loadConfig root
  let store ← loadStore (m := m) root c
  ExceptT.mk (pure (pathsIn store path))

def files (root : Path) : ExceptT Failure m (List Path) := do
  let c ← loadConfig root
  let dir := c.tagsDirIn root
  let found ← TagFiles.collect (m := m) dir
  return found.map (Path.join dir)

def check (root : Path) : ExceptT Failure m CheckReport := do
  let c ← loadConfig root
  let found ← documents (m := m) root c
  let (store, log) := Store.load found
  FileAccess.log (m := m) log
  return ⟨c.tagsDirIn root, found.length, store.namespaces.length, store.diagnostics⟩

def getSetting (root : Path) (key : Text) : ExceptT Failure m Text := do
  let c ← loadConfig root
  Failure.orConfig (c.getKey key)

def setSetting (root : Path) (key value : Text) : ExceptT Failure m Unit := do
  let c ← loadConfig root
  let c ← Failure.orConfig (c.setKey key value)
  saveConfig root c

def listSettings (root : Path) : ExceptT Failure m (List (String × Text)) := do
  let c ← loadConfig root
  return c.list

end PromptTags.Workspace
