import PromptTags.Tag.Node

/-!
Following a path of keys down a tag tree. A walk that fails names the step that was at fault: the
first key that is missing, or the key of the first node that has no children to go on to.
-/

namespace PromptTags

inductive ResolutionError where
  | keyNotFound (key : Text)
  | shapeMismatch (key : Text)
  | emptyCollection
  deriving DecidableEq, Repr

def ResolutionError.message : ResolutionError → String
  | keyNotFound key => s!"key not found: '{String.ofList key}'"
  | shapeMismatch key => s!"cannot descend into '{String.ofList key}': not a mapping"
  | emptyCollection => "nothing to choose from"

namespace Node

/-- Go on from a node that was reached under `key`. -/
def descend (key : Text) (node : Node) : List Text → Except ResolutionError Node
  | [] => .ok node
  | k :: ks =>
    match node with
    | map children =>
      match Keyed.get? k children with
      | some child => descend k child ks
      | none => .error (.keyNotFound k)
    | _ => .error (.shapeMismatch key)

/-- A key can be followed from a mapping only, to the child under it. -/
theorem descend_cons_eq_ok {key k : Text} {ks : List Text} {m n : Node} :
    descend key n (k :: ks) = .ok m ↔
      ∃ children child, n = map children ∧ Keyed.get? k children = some child ∧
        descend k child ks = .ok m := by
  cases n with
  | scalar value => simp [descend]
  | list values => simp [descend]
  | map children => cases hg : Keyed.get? k children <;> simp [descend, hg]

/-- The node at the end of a path of keys. The empty path leads nowhere. -/
def lookup (base : Keyed Node) : List Text → Except ResolutionError Node
  | [] => .error (.keyNotFound [])
  | k :: ks =>
    match Keyed.get? k base with
    | some node => descend k node ks
    | none => .error (.keyNotFound k)

theorem lookup_singleton (base : Keyed Node) (key : Text) :
    lookup base [key] =
      match Keyed.get? key base with
      | some node => .ok node
      | none => .error (.keyNotFound key) := by
  simp only [lookup, descend]

/-- What a path of one key finds is a child of the mapping. -/
theorem mem_of_lookup_singleton {base : Keyed Node} {key : Text} {node : Node}
    (h : lookup base [key] = .ok node) : (key, node) ∈ base := by
  rw [lookup_singleton] at h
  split at h
  · next hg => cases h; exact Keyed.mem_of_get? hg
  · cases h

theorem lookup_of_mem {children : Keyed Node} (hs : Keyed.Sorted children) {entry : Text × Node}
    (h : entry ∈ children) : lookup children [entry.1] = .ok entry.2 := by
  rw [lookup_singleton, Keyed.get?_of_mem hs h]

end Node

end PromptTags
