import PromptTags.Tag.Node
import PromptTags.Text.Numeral
import PromptTags.Yaml.Node

/-!
Tag trees from YAML. A sequence becomes a list of its plain entries; an entry that is a collection
is left out and reported with the keys that lead to it and its number. Everything else is kept, a
null as the empty value.
-/

namespace PromptTags

/-- A list entry that was left out: the keys that lead to its list, and its number there. -/
structure Omission where
  keys : List Text
  index : Nat
  deriving DecidableEq, Repr

namespace Omission

/-- Where the entry stands, with colons between keys. -/
def path (o : Omission) : Text := Text.join [':'] (o.keys ++ [Text.ofNat o.index])

def message : String := "list entry is not a plain value, skipped"

end Omission

namespace Node

/-- The plain entries of a sequence, numbered from `index`, and the entries that are left out. -/
def plainItems (keys : List Text) : (index : Nat) → List Yaml.Node → List Text × List Omission
  | _, [] => ([], [])
  | index, item :: items =>
    let (values, omissions) := plainItems keys (index + 1) items
    match item.plain? with
    | some value => (value :: values, omissions)
    | none => (values, ⟨keys, index⟩ :: omissions)

mutual

/-- The tag tree of a YAML node that is reached by `keys`, and the list entries it leaves out. -/
def ofYamlAt (keys : List Text) : Yaml.Node → Node × List Omission
  | .null => (.scalar [], [])
  | .scalar text => (.scalar text, [])
  | .sequence items =>
    let (values, omissions) := plainItems keys 0 items
    (.list values, omissions)
  | .mapping entries =>
    let (children, omissions) := ofYamlEntries keys entries
    (.map children, omissions)

def ofYamlEntries (keys : List Text) : List (Text × Yaml.Node) →
    List (Text × Node) × List Omission
  | [] => ([], [])
  | (key, node) :: rest =>
    let (child, omissions) := ofYamlAt (keys ++ [key]) node
    let (children, more) := ofYamlEntries keys rest
    ((key, child) :: children, omissions ++ more)

end

/-- The tag tree of a YAML node and the list entries it leaves out. -/
def ofYaml (node : Yaml.Node) : Node × List Omission := ofYamlAt [] node

end Node

end PromptTags
