import PromptTags.Text.Basic

/-!
File trees. A node of the tree is a file or a directory of named nodes; a location is the list of
the names that lead to a node.
-/

namespace PromptTags

/-- What a file holds: a text, or bytes that are the encoding of none. -/
inductive Content where
  | text (text : Text)
  | bytes (bytes : List UInt8)
  deriving DecidableEq, Repr

/-- A file, or a directory with distinct names in any order. -/
inductive FileTree where
  | file (content : Content)
  | directory (entries : List (Text × FileTree))
  deriving Repr, Inhabited

/-- The names that lead to a node. -/
abbrev Location := List Text

namespace FileTree

def at? : FileTree → Location → Option FileTree
  | t, [] => some t
  | file _, _ :: _ => none
  | directory entries, name :: rest =>
    match entries.lookup name with
    | some child => child.at? rest
    | none => none

/-- The entries of a directory with a node put under a name. -/
def putEntry (name : Text) (node : FileTree) :
    List (Text × FileTree) → List (Text × FileTree)
  | [] => [(name, node)]
  | (k, t) :: rest => if name = k then (k, node) :: rest else (k, t) :: putEntry name node rest

/-- The tree with a node put at a location. Its directory has to be there; else nothing changes. -/
def put : FileTree → Location → FileTree → FileTree
  | _, [], node => node
  | file content, _ :: _, _ => file content
  | directory entries, [name], node => directory (putEntry name node entries)
  | directory entries, name :: next :: rest, node =>
    directory (entries.map fun e => if e.1 = name then (e.1, put e.2 (next :: rest) node) else e)

def erase : FileTree → Location → FileTree
  | t, [] => t
  | file content, _ :: _ => file content
  | directory entries, [name] => directory (entries.filter fun e => e.1 ≠ name)
  | directory entries, name :: next :: rest =>
    directory (entries.map fun e => if e.1 = name then (e.1, erase e.2 (next :: rest)) else e)

mutual

def files : FileTree → List Location
  | file _ => [[]]
  | directory entries => entryFiles entries

def entryFiles : List (Text × FileTree) → List Location
  | [] => []
  | (name, t) :: rest => (files t).map (name :: ·) ++ entryFiles rest

end

/-- Follow the pieces of a path from a location. A dot stays and two dots go up, but only a
directory can be left in any way. -/
def follow (t : FileTree) : (place : Location) → List Text → Option Location
  | place, [] => some place
  | place, piece :: rest =>
    match t.at? place with
    | some (directory entries) =>
      if piece = ['.'] then follow t place rest
      else if piece = ['.', '.'] then follow t place.dropLast rest
      else if (entries.lookup piece).isSome then follow t (place ++ [piece]) rest
      else none
    | _ => none

end FileTree

end PromptTags
