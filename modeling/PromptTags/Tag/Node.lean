import PromptTags.Text.Keyed

/-!
Tag trees. A node is a single value, a list of candidates, or a mapping from keys to further nodes.
Mappings list their children in key order; `Node.Ordered` says so for every level of a tree.
-/

namespace PromptTags

inductive Node where
  /-- A value that is used as it stands. -/
  | scalar (value : Text)
  /-- Candidates, of which one is drawn. -/
  | list (values : List Text)
  | map (children : List (Text × Node))
  deriving Repr, Inhabited

namespace Node

/-- Whether a node holds no value at all: a list or mapping without elements. -/
def isEmpty : Node → Bool
  | scalar _ => false
  | list values => values.isEmpty
  | map children => children.isEmpty

mutual

/-- Every mapping of the tree lists its keys in strictly increasing order. -/
def Ordered : Node → Prop
  | scalar _ => True
  | list _ => True
  | map children => Keyed.Sorted children ∧ ChildrenOrdered children

def ChildrenOrdered : List (Text × Node) → Prop
  | [] => True
  | (_, child) :: rest => Ordered child ∧ ChildrenOrdered rest

end

theorem childrenOrdered_iff {children : List (Text × Node)} :
    ChildrenOrdered children ↔ ∀ e ∈ children, Ordered e.2 := by
  induction children with
  | nil => simp [ChildrenOrdered]
  | cons e rest ih => obtain ⟨k, n⟩ := e; simp [ChildrenOrdered, ih]

theorem ordered_map {children : List (Text × Node)} :
    (map children).Ordered ↔ Keyed.Sorted children ∧ ∀ entry ∈ children, entry.2.Ordered := by
  rw [Ordered, childrenOrdered_iff]

/-- A child is smaller than the mapping that holds it. -/
theorem sizeOf_lt_of_mem {key : Text} {child : Node} {children : List (Text × Node)}
    (h : (key, child) ∈ children) : sizeOf child < sizeOf children := by
  have := List.sizeOf_lt_of_mem h
  simp only [Prod.mk.sizeOf_spec] at this
  omega

/-- What a mapping has as soon as all its children have it, and every leaf has, every tree has. -/
@[elab_as_elim, induction_eliminator]
theorem ind {motive : Node → Prop} (scalar : ∀ value, motive (.scalar value))
    (list : ∀ values, motive (.list values))
    (map : ∀ children, (∀ entry ∈ children, motive entry.2) → motive (.map children)) :
    ∀ n, motive n
  | .scalar value => scalar value
  | .list values => list values
  | .map children => map children fun entry _h => ind scalar list map entry.2
termination_by n => sizeOf n
decreasing_by
  have := sizeOf_lt_of_mem _h
  rw [Node.map.sizeOf_spec]
  omega

end Node

end PromptTags
