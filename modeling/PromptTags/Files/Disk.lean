import PromptTags.Files.Access
import PromptTags.Files.Tree

/-!
A file tree as a file system. Paths are followed name by name: all but the last have to lead through
directories, and a slash at the end asks for a directory. Names and paths have a greatest length.
-/

namespace PromptTags

/-- A file tree with a current directory, and the log that was written so far. -/
structure Disk where
  tree : FileTree
  current : Location
  log : Log
  deriving Repr, Inhabited

namespace Disk

/-- The pieces of a path. A slash at the end is a step that stays where it is. -/
def pieces (p : Path) : List Text :=
  let names := (Text.split '/' p).filter fun piece => !piece.isEmpty
  if p.getLast? = some '/' then names ++ [['.']] else names

/-- The greatest length of a name, in octets. -/
def maxName : Nat := 255

/-- The greatest length of a path, in octets. -/
def maxPath : Nat := 4095

/-- The fault of a path that leads nowhere whatever files there are. -/
def formFault? (p : Path) : Option FileFault :=
  if p.isEmpty then some .notFound
  else if Path.hasNull p then some .nullInPath
  else if maxPath < (Text.octets p).length then some .tooLong
  else none

def isOverlong (name : Text) : Bool := maxName < (Text.octets name).length

def start (d : Disk) (p : Path) : Location := if Path.isAbsolute p then [] else d.current

/-- The fault of pieces that lead nowhere from a location: a file is in the way, or a name is
missing or too long to be there. -/
def faultAlong (t : FileTree) : (place : Location) → List Text → FileFault
  | _, [] => .notFound
  | place, piece :: rest =>
    match t.at? place with
    | some (.file _) => .notDirectory
    | none => .notFound
    | some (.directory _) =>
      if isOverlong piece then .tooLong
      else match t.follow place [piece] with
        | some place => faultAlong t place rest
        | none => .notFound

/-- The location of what stands at a path. -/
def locate (d : Disk) (p : Path) : Except FileFault Location :=
  match formFault? p with
  | some fault => .error fault
  | none =>
    match d.tree.follow (d.start p) (pieces p) with
    | some place => .ok place
    | none => .error (faultAlong d.tree (d.start p) (pieces p))

/-- What stands at a path. -/
def find? (d : Disk) (p : Path) : Option FileTree :=
  match d.locate p with
  | .ok place => d.tree.at? place
  | .error _ => none

/-- Where a path would make a new node: a name in a directory that is there. -/
def target (d : Disk) (p : Path) : Except FileFault Location :=
  let names := (Text.split '/' p).filter fun piece => !piece.isEmpty
  match formFault? p, names.getLast? with
  | some fault, _ => .error fault
  | none, none => .error .taken
  | none, some last =>
    match d.tree.follow (d.start p) (names.dropLast ++ [['.']]) with
    | none => .error (faultAlong d.tree (d.start p) (names.dropLast ++ [['.']]))
    | some place =>
      if last = ['.'] ∨ last = ['.', '.'] then .error .taken
      else if isOverlong last then .error .tooLong
      else .ok (place ++ [last])

def kindOf : FileTree → FileKind
  | .file _ => .file
  | .directory _ => .directory

def read (d : Disk) (p : Path) : Except FileFault Text :=
  match d.locate p with
  | .error fault => .error fault
  | .ok place =>
    match d.tree.at? place with
    | some (.file (.text t)) => .ok t
    | some (.file (.bytes _)) => .error .notText
    | some (.directory _) => .error .isDirectory
    | none => .error .notFound

def store (d : Disk) (p : Path) (content : Content) : Except FileFault Disk :=
  match d.target p with
  | .error fault => .error fault
  | .ok place =>
    match d.tree.at? place with
    | some (.directory _) => .error .isDirectory
    | _ =>
      if p.getLast? = some '/' then .error .isDirectory
      else .ok { d with tree := d.tree.put place (.file content) }

def copy (d : Disk) (p q : Path) : Except FileFault Disk :=
  match d.locate p with
  | .error fault => .error fault
  | .ok place =>
    match d.tree.at? place with
    | some (.file content) => d.store q content
    | some (.directory _) => .error .isDirectory
    | none => .error .notFound

def makeDirectory (d : Disk) (p : Path) : Except FileFault Disk :=
  match d.target p with
  | .error fault => .error fault
  | .ok place =>
    if (d.tree.at? place).isSome then .error .taken
    else .ok { d with tree := d.tree.put place (.directory []) }

def remove (d : Disk) (p : Path) : Disk :=
  match d.locate p with
  | .ok place => { d with tree := d.tree.erase place }
  | .error _ => d

/-- The files at and below a path. -/
def filesBelow (d : Disk) (p : Path) : List (List Text) :=
  match d.find? p with
  | some t => t.files
  | none => []

def attempt (change : Disk → Except FileFault Disk) : StateM Disk (Except FileFault Unit) :=
  fun d =>
    match change d with
    | .ok d => (.ok (), d)
    | .error fault => (.error fault, d)

instance : FileAccess (StateM Disk) where
  kind? p := fun d => ((d.find? p).map kindOf, d)
  read p := fun d => (d.read p, d)
  write p t := attempt fun d => d.store p (.text t)
  copy p q := attempt fun d => d.copy p q
  makeDirectory p := attempt fun d => d.makeDirectory p
  filesBelow p := fun d => (d.filesBelow p, d)
  log records := fun d => ((), { d with log := d.log ++ records })

end Disk

end PromptTags
