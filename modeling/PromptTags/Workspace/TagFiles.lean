import PromptTags.Dictionary.Store
import PromptTags.Files.Access
import PromptTags.Tag.Namespace

/-!
Finding and reading tag files. Tag files are told by their extension; directories whose names start
with a dot are not entered. The files are taken in the order of their names, directory by directory,
whatever the order in which they are found.
-/

namespace PromptTags

def tagFileExtensions : List String := ["yml", "yaml"]

def isTagFile (p : Path) : Bool := (Path.extension? p).any (Text.isAny tagFileExtensions)

namespace TagFiles

def isHidden (name : Text) : Bool := name.head? = some '.'

/-- Whether a file below a directory is one of its tag files, given the names that lead to it. -/
def admits (dir : Path) (names : List Text) : Bool :=
  isTagFile (Path.join dir (Path.ofNames names)) && !names.dropLast.any isHidden

def insert (names : List Text) : List (List Text) → List (List Text)
  | [] => [names]
  | other :: rest => if other < names then other :: insert names rest else names :: other :: rest

/-- Files in the order of their names: directory by directory, each name by its characters. -/
def sort (files : List (List Text)) : List (List Text) := files.foldr insert []

/-- The tag files among the files below a directory, in order. -/
def select (dir : Path) (files : List (List Text)) : List (List Text) :=
  sort (files.filter (admits dir))

variable {m : Type → Type} [Monad m] [FileAccess m]

/-- The tag files below a directory, as paths from there. There are none if it is missing. -/
def collect (dir : Path) : m (List Path) :=
  return (select dir (← FileAccess.filesBelow dir)).map Path.ofNames

def skipped (p : Path) (reason : String) : Log := .warn s!"Skipping {String.ofList p}: {reason}"

/-- Read tag files, given as paths from a directory. A file that cannot be read is passed over. -/
def readAll (dir : Path) (keying : Keying) : List Path → m (List TagDocument)
  | [] => return []
  | file :: files => do
    let p := Path.join dir file
    match keying.namespace? file with
    | none =>
      FileAccess.log (skipped p "file name is not valid UTF-8")
      readAll dir keying files
    | some ns =>
      match ← FileAccess.read p with
      | .ok content => return ⟨ns, p, content⟩ :: (← readAll dir keying files)
      | .error fault =>
        FileAccess.log (skipped p fault.message)
        readAll dir keying files

def documents (dir : Path) (keying : Keying) : m (List TagDocument) := do
  readAll dir keying (← collect dir)

end TagFiles

end PromptTags
