import PromptTags.Tag.Lookup

/-!
Listing what can be named: the namespaces, or the paths from a node down to every scalar and list
below it, written with a colon between keys, in the order of the keys.
-/

namespace PromptTags.Node

mutual

/-- The paths to the leaves of a node that is itself reached by `path`. -/
def leafPaths (path : Text) : Node → List Text
  | map children => childLeafPaths path children
  | scalar _ => [path]
  | list _ => [path]

/-- The paths to the leaves of the children of a node that is reached by `path`. -/
def childLeafPaths (path : Text) : List (Text × Node) → List Text
  | [] => []
  | (key, child) :: rest => leafPaths (path ++ ':' :: key) child ++ childLeafPaths path rest

end

/-- The namespaces, or the paths to the leaves below a path that is written with colons between its
keys. Nothing is given if the path leads nowhere. -/
def pathsBelow? (namespaces : Keyed Node) (path : Option Text) : Option (List Text) :=
  let path := path.getD []
  if path.isEmpty then some namespaces.keys
  else match lookup namespaces (Text.split ':' path) with
    | .ok node => some (node.leafPaths path)
    | .error _ => none

end PromptTags.Node
