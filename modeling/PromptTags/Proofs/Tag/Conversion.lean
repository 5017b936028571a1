import PromptTags.Proofs.Tag.Omission

/-! From YAML to tag trees and back. Of a YAML node its tag tree keeps everything but the collections that
stand directly in a sequence, and those are what is reported. A tag tree has no such entries, so that nothing
is lost of it when it is written as a YAML node and read again. -/
namespace PromptTags

namespace Yaml.Node

mutual

/-- The tag tree of a node: a null is the empty value, and of a sequence the plain entries are kept. -/
def tagTree : Node → PromptTags.Node
  | null => .scalar []
  | scalar text => .scalar text
  | sequence items => .list (items.filterMap plain?)
  | mapping entries => .map (entryTrees entries)

/-- The tag trees of the values of a mapping, each under its key. -/
def entryTrees : List (Text × Node) → List (Text × PromptTags.Node)
  | [] => []
  | (key, node) :: rest => (key, tagTree node) :: entryTrees rest

end

end Yaml.Node

namespace Node

mutual

theorem ofYamlAt_eq_tagTree (keys : List Text) (node : Yaml.Node) :
    (ofYamlAt keys node).1 = node.tagTree := by
  match node with
  | .null => rfl
  | .scalar _ => rfl
  | .sequence items => exact congrArg list (values_plainItems keys 0 items)
  | .mapping entries => exact congrArg map (ofYamlEntries_eq_entryTrees keys entries)

theorem ofYamlEntries_eq_entryTrees (keys : List Text) (entries : List (Text × Yaml.Node)) :
    (ofYamlEntries keys entries).1 = Yaml.Node.entryTrees entries := by
  match entries with
  | [] => rfl
  | (key, node) :: rest =>
    change (key, (ofYamlAt (keys ++ [key]) node).1) :: (ofYamlEntries keys rest).1 = _
    rw [ofYamlAt_eq_tagTree, ofYamlEntries_eq_entryTrees, Yaml.Node.entryTrees]

end

/-- Nothing is reported just if no sequence that keys lead to holds a collection. -/
theorem ofYaml_omits_nothing_iff {node : Yaml.Node} :
    (ofYaml node).2 = [] ↔ ∀ keys items, node.Leads keys (.sequence items) →
      ∀ item ∈ items, item.isCollection = false := by
  rw [List.eq_nil_iff_forall_not_mem]
  constructor
  · intro h keys items hleads item hitem
    rw [← Bool.not_eq_true]
    intro hcollection
    obtain ⟨index, hindex⟩ := List.mem_iff_getElem?.1 hitem
    exact h ⟨keys, index⟩ (mem_ofYaml.2 ⟨items, item, hleads, hindex, hcollection⟩)
  · intro h o ho
    obtain ⟨items, item, hleads, hindex, hcollection⟩ := mem_ofYaml.1 ho
    have hplain := h o.keys items hleads item (List.mem_of_getElem? hindex)
    rw [hplain] at hcollection
    cases hcollection

mutual

def toYaml : Node → Yaml.Node
  | scalar value => .scalar value
  | list values => .sequence (values.map .scalar)
  | map children => .mapping (childrenToYaml children)

def childrenToYaml : List (Text × Node) → List (Text × Yaml.Node)
  | [] => []
  | (key, child) :: rest => (key, toYaml child) :: childrenToYaml rest

end

theorem plainItems_map_scalar (keys : List Text) (index : Nat) (values : List Text) :
    plainItems keys index (values.map .scalar) = (values, []) := by
  induction values generalizing index with
  | nil => rfl
  | cons value rest ih => rw [List.map_cons, plainItems, ih]; rfl

mutual

theorem ofYamlAt_toYaml (keys : List Text) (n : Node) : ofYamlAt keys n.toYaml = (n, []) := by
  match n with
  | scalar value => rfl
  | list values => rw [toYaml, ofYamlAt, plainItems_map_scalar]
  | map children => rw [toYaml, ofYamlAt, ofYamlEntries_childrenToYaml]

theorem ofYamlEntries_childrenToYaml (keys : List Text) (children : List (Text × Node)) :
    ofYamlEntries keys (childrenToYaml children) = (children, []) := by
  match children with
  | [] => rfl
  | (key, child) :: rest =>
    rw [childrenToYaml, ofYamlEntries, ofYamlAt_toYaml, ofYamlEntries_childrenToYaml]
    rfl

end

/-- The tag tree of a YAML node has all of it but the collections that stand directly in its sequences. Each of
these is reported once, in the order of a walk down the node, under the keys that lead to its sequence and its
number there. So nothing is reported just if there is none, and a tag tree is read back as it is. -/
theorem ofYaml_omits_nested_entries_only {node : Yaml.Node} (h : node.Ordered) :
    (ofYaml node).1 = node.tagTree ∧
    (∀ o : Omission, o ∈ (ofYaml node).2 ↔
      ∃ items item, node.Leads o.keys (.sequence items) ∧ items[o.index]? = some item ∧
        item.isCollection = true) ∧
    (ofYaml node).2.Pairwise Omission.Before ∧ (ofYaml node).2.Nodup ∧
    (∀ o ∈ (ofYaml node).2, o.path = Text.join (Text.lit ":") (o.keys ++ [Text.ofNat o.index])) ∧
    ((ofYaml node).2 = [] ↔ ∀ keys items, node.Leads keys (.sequence items) →
      ∀ item ∈ items, item.isCollection = false) ∧
    ∀ n : Node, ofYaml n.toYaml = (n, []) := by
  refine ⟨ofYamlAt_eq_tagTree [] node, fun o => mem_ofYaml, pairwise_ofYamlAt [] h,
    nodup_ofYamlAt [] h, fun o _ => rfl, ofYaml_omits_nothing_iff, ofYamlAt_toYaml []⟩

/-- Collections in three sequences, one of them below two keys, with nulls and an empty mapping beside them. -/
theorem ofYaml_omits_nested_entries_only_siblings :
    let node : Yaml.Node := .mapping [
      (Text.lit "a", .sequence [.scalar (Text.lit "x"), .sequence [.sequence []], .null, .mapping []]),
      (Text.lit "b", .mapping [(Text.lit "c", .sequence [.mapping [(Text.lit "d", .sequence [])]]),
        (Text.lit "e", .null)]),
      (Text.lit "ba", .sequence [.null, .sequence []])]
    node.Ordered ∧
    (ofYaml node).1 = .map [(Text.lit "a", .list [Text.lit "x", []]),
      (Text.lit "b", .map [(Text.lit "c", .list []), (Text.lit "e", .scalar [])]),
      (Text.lit "ba", .list [[]])] ∧
    (ofYaml node).2.map Omission.path =
      [Text.lit "a:1", Text.lit "a:3", Text.lit "b:c:0", Text.lit "ba:1"] ∧
    (ofYaml node).2.Pairwise Omission.Before := by
  intro node
  have h : node.Ordered := by
    simp only [node, Yaml.Node.Ordered, Yaml.Node.EntriesOrdered, Yaml.Node.ItemsOrdered, Keyed.Sorted]
    decide
  obtain ⟨htree, -, hpairwise, -⟩ := ofYaml_omits_nested_entries_only h
  exact ⟨h, htree.trans rfl, by decide, hpairwise⟩

end Node

end PromptTags
