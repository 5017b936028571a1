import PromptTags.Workspace.Failure
import PromptTags.Workspace.TagFiles

/-!
Sample tag files for new workspaces: those of a directory of examples, or a few that are built in. A
directory that has tag files already gets none.
-/

namespace PromptTags

/-- A tag file that is built in. -/
structure Sample where
  name : String
  content : String
  deriving DecidableEq, Repr

namespace Sample

def colors : Sample := ⟨"colors.yml",
"warm:
  - red
  - orange
  - yellow
cool:
  - blue
  - green
  - purple
"⟩

def outfits : Sample := ⟨"outfits.yml",
"casual:
  tops:
    - t-shirt
    - hoodie
    - denim jacket
  bottoms:
    - jeans
    - shorts
formal:
  - suit
  - evening dress
colorful: \"@colors:warm@ shirt\"
"⟩

def props : Sample := ⟨"props.yml",
"weapons:
  - sword
  - bow
  - staff
held: \"holding @props:weapons@\"
"⟩

def all : List Sample := [colors, outfits, props]

end Sample

inductive SampleSource where
  /-- Every tag file below a directory. -/
  | examples (dir : Path)
  | builtin
  deriving DecidableEq, Repr

namespace SampleSource

variable {m : Type → Type} [Monad m] [FileAccess m]

/-- A directory of examples if it has tag files, and else the built-in samples. -/
def detect (examplesDir : Path) : m SampleSource := do
  let files ← TagFiles.collect examplesDir
  if files.isEmpty then return .builtin else return .examples examplesDir

def copyAll (examplesDir tagsDir : Path) : List Path → ExceptT Failure m Unit
  | [] => return ()
  | file :: files => do
    let target := Path.join tagsDir file
    match Path.parent? target with
    | none => pure ()
    | some parent => Failure.orFiles (FileAccess.makeDirectories parent)
    Failure.orFiles (FileAccess.copy (Path.join examplesDir file) target)
    FileAccess.log (m := m) (.debug s!"Copied sample {String.ofList target}")
    copyAll examplesDir tagsDir files

def writeAll (tagsDir : Path) : List Sample → ExceptT Failure m Unit
  | [] => return ()
  | sample :: samples => do
    Failure.orFiles
      (FileAccess.write (Path.join tagsDir sample.name.toList) sample.content.toList)
    FileAccess.log (m := m) (.debug s!"Wrote sample {sample.name}")
    writeAll tagsDir samples

/-- Put the samples of a source into a directory that has no tag files yet, making it if it is
missing. Gives the files that were written, as paths from there. -/
def provision (tagsDir : Path) (source : SampleSource) : ExceptT Failure m (List Path) := do
  Failure.orFiles (FileAccess.makeDirectories tagsDir)
  if !(← TagFiles.collect (m := m) tagsDir).isEmpty then
    FileAccess.log (m := m) (.debug s!"{String.ofList tagsDir} already has tag files")
    return []
  match source with
  | .examples examplesDir =>
    let files ← TagFiles.collect (m := m) examplesDir
    copyAll examplesDir tagsDir files
    return files
  | .builtin =>
    writeAll tagsDir Sample.all
    return Sample.all.map fun sample => sample.name.toList

end SampleSource

end PromptTags
