import PromptTags.Files.Fault
import PromptTags.Files.Path
import PromptTags.Log

/-!
What the rest of the library asks of a file system. Operations that can fail give their fault as a
value, so that a failure leaves what was done before it in place.
-/

namespace PromptTags

inductive FileKind where
  | file
  | directory
  deriving DecidableEq, Repr

/-- Access to files, and a log to write to. -/
class FileAccess (m : Type → Type) where
  kind? : Path → m (Option FileKind)
  read : Path → m (Except FileFault Text)
  /-- Give a file a text, making it if it is missing. -/
  write : Path → Text → m (Except FileFault Unit)
  /-- Give a file the content of another one, the first. -/
  copy : Path → Path → m (Except FileFault Unit)
  makeDirectory : Path → m (Except FileFault Unit)
  /-- The files at and below a path, as the names that lead to them from there, in any order. -/
  filesBelow : Path → m (List (List Text))
  log : Log → m Unit

namespace FileAccess

variable {m : Type → Type} [Monad m] [FileAccess m]

/-- Whether anything stands at a path. -/
def isPresent (p : Path) : m Bool := return (← kind? p).isSome

def isDirectory (p : Path) : m Bool := return (← kind? p) = some .directory

/-- Make a directory, or find that it is there. -/
def ensureDirectory (p : Path) : m (Except FileFault Unit) := do
  match ← makeDirectory p with
  | .ok () => return .ok ()
  | .error fault => if ← isDirectory p then return .ok () else return .error fault

/-- Make a directory and those it has to stand in. -/
def makeDirectories (p : Path) : m (Except FileFault Unit) := do
  if p.isEmpty then return .ok ()
  match ← makeDirectory p with
  | .error .notFound =>
    match _h : Path.parent? p with
    | none => return .error (.other "no directory to start from")
    | some parent =>
      match ← makeDirectories parent with
      | .error fault => return .error fault
      | .ok () => ensureDirectory p
  | .ok () => return .ok ()
  | .error fault => if ← isDirectory p then return .ok () else return .error fault
termination_by p.length
decreasing_by exact Path.length_lt_of_parent? _h

end FileAccess

end PromptTags
