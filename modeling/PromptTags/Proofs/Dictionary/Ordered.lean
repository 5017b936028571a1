import PromptTags.Dictionary.Store

/-! Loaded trees are ordered. A mapping is read by putting its entries in one after the other, which keeps
the keys distinct and in order at every level; converting it to a tag tree keeps them, and so does loading
one document over others. -/
namespace PromptTags

namespace Yaml.Node

mutual

/-- Every mapping of the node lists its keys in strictly increasing order. -/
def Ordered : Node → Prop
  | null => True
  | scalar _ => True
  | sequence items => ItemsOrdered items
  | mapping entries => Keyed.Sorted entries ∧ EntriesOrdered entries

def ItemsOrdered : List Node → Prop
  | [] => True
  | item :: items => Ordered item ∧ ItemsOrdered items

def EntriesOrdered : List (Text × Node) → Prop
  | [] => True
  | (_, node) :: rest => Ordered node ∧ EntriesOrdered rest

end

theorem entriesOrdered_iff {entries : List (Text × Node)} :
    EntriesOrdered entries ↔ ∀ entry ∈ entries, entry.2.Ordered := by
  induction entries with
  | nil => simp [EntriesOrdered]
  | cons entry rest ih =>
    obtain ⟨key, node⟩ := entry
    simp [EntriesOrdered, ih]

theorem entriesOrdered_insert {key : Text} {node : Node} {entries : Keyed Node}
    (hnode : node.Ordered) (h : EntriesOrdered entries) :
    EntriesOrdered (Keyed.insert key node entries) := by
  rw [entriesOrdered_iff] at h ⊢
  intro entry hentry
  rcases Keyed.mem_insert hentry with rfl | hentry
  · exact hnode
  · exact h entry hentry

mutual

theorem ordered_ofValue {v : Value} {node : Node} (h : ofValue v = .ok node) : node.Ordered := by
  match v with
  | .null => cases h; trivial
  | .bool true => cases h; trivial
  | .bool false => cases h; trivial
  | .int _ => cases h; trivial
  | .float _ => cases h; trivial
  | .text _ => cases h; trivial
  | .sequence items =>
    rw [ofValue] at h
    split at h
    · next hitems => cases h; exact itemsOrdered_ofItems hitems
    · cases h
  | .mapping entries =>
    rw [ofValue] at h
    split at h
    · next hentries =>
      cases h
      exact entriesOrdered_ofEntries List.Pairwise.nil trivial hentries
    · cases h
  | .broken _ => cases h

theorem itemsOrdered_ofItems {items : List Value} {nodes : List Node}
    (h : ofItems items = .ok nodes) : ItemsOrdered nodes := by
  match items with
  | [] => cases h; trivial
  | v :: vs =>
    rw [ofItems] at h
    split at h
    · cases h
    · next hnode =>
      split at h
      · cases h
      · next hnodes => cases h; exact ⟨ordered_ofValue hnode, itemsOrdered_ofItems hnodes⟩

theorem entriesOrdered_ofEntries {before nodes : Keyed Node} {entries : List (Value × Value)}
    (hsorted : Keyed.Sorted before) (hbefore : EntriesOrdered before)
    (h : ofEntries before entries = .ok nodes) : Keyed.Sorted nodes ∧ EntriesOrdered nodes := by
  match entries with
  | [] => cases h; exact ⟨hsorted, hbefore⟩
  | (k, v) :: rest =>
    rw [ofEntries] at h
    split at h
    · cases h
    · split at h
      · cases h
      · next hnode =>
        split at h
        · cases h
        · exact entriesOrdered_ofEntries (Keyed.sorted_insert _ _ hsorted)
            (entriesOrdered_insert (ordered_ofValue hnode) hbefore) h

end

theorem ordered_ofText {text : Text} {node : Node} (h : ofText text = .ok node) : node.Ordered := by
  simp only [ofText] at h
  split at h
  · cases h
  · next hnode =>
    split at h
    · cases h
    · cases h; exact ordered_ofValue hnode

end Yaml.Node

namespace Node

theorem keys_ofYamlEntries (keys : List Text) (entries : List (Text × Yaml.Node)) :
    Keyed.keys (ofYamlEntries keys entries).1 = Keyed.keys entries := by
  induction entries with
  | nil => rfl
  | cons entry rest ih => exact congrArg (entry.1 :: ·) ih

theorem sorted_ofYamlEntries (keys : List Text) {entries : List (Text × Yaml.Node)}
    (h : Keyed.Sorted entries) : Keyed.Sorted (ofYamlEntries keys entries).1 := by
  rw [Keyed.Sorted, ← List.pairwise_map] at h ⊢
  change (Keyed.keys _).Pairwise _
  rw [keys_ofYamlEntries]
  exact h

mutual

/-- Converting a node keeps its mappings in order. -/
theorem ordered_ofYamlAt (keys : List Text) {node : Yaml.Node} (h : node.Ordered) :
    (ofYamlAt keys node).1.Ordered := by
  match node with
  | .null => trivial
  | .scalar _ => trivial
  | .sequence _ => trivial
  | .mapping entries =>
    exact ⟨sorted_ofYamlEntries keys h.1, childrenOrdered_ofYamlEntries keys h.2⟩

theorem childrenOrdered_ofYamlEntries (keys : List Text) {entries : List (Text × Yaml.Node)}
    (h : Yaml.Node.EntriesOrdered entries) : ChildrenOrdered (ofYamlEntries keys entries).1 := by
  match entries with
  | [] => trivial
  | (key, node) :: rest =>
    exact ⟨ordered_ofYamlAt (keys ++ [key]) h.1, childrenOrdered_ofYamlEntries keys h.2⟩

end

theorem ordered_insert {key : Text} {n : Node} {entries : Keyed Node} (hn : n.Ordered)
    (h : (map entries).Ordered) : (map (Keyed.insert key n entries)).Ordered := by
  rw [ordered_map] at h ⊢
  refine ⟨Keyed.sorted_insert key n h.1, fun entry hentry => ?_⟩
  rcases Keyed.mem_insert hentry with rfl | hentry
  · exact hn
  · exact h.2 entry hentry

end Node

theorem TagDocument.ordered_read {d : TagDocument} {root : Node} {problems : List Problem}
    (h : d.read = .ok (root, problems)) : root.Ordered := by
  rw [read] at h
  split at h
  · cases h
  · split at h
    · cases h
    · next node hnode =>
      split at h
      · cases h
      · have hroot := Node.ordered_ofYamlAt [] (Yaml.Node.ordered_ofText hnode)
        dsimp only at h
        split at h
        · cases h
        · cases h
          exact hroot

namespace Store

theorem ordered_addDocument {store : Store} (h : (Node.map store.namespaces).Ordered)
    (d : TagDocument) : (Node.map (store.addDocument d).1.namespaces).Ordered := by
  rw [addDocument]
  split
  · next hread => exact Node.ordered_insert (TagDocument.ordered_read hread) h
  · exact h

theorem ordered_addAll {store : Store} (h : (Node.map store.namespaces).Ordered)
    (documents : List TagDocument) :
    (Node.map (store.addAll documents).1.namespaces).Ordered := by
  induction documents generalizing store with
  | nil => exact h
  | cons d ds ih => exact ih (ordered_addDocument h d)

/-- Every mapping of a loaded dictionary, its namespaces included, lists distinct keys in order. -/
theorem ordered_load (documents : List TagDocument) :
    (Node.map (load documents).1.namespaces).Ordered := by
  have hempty : (Node.map empty.namespaces).Ordered := ⟨List.Pairwise.nil, trivial⟩
  exact ordered_addAll hempty documents

end Store

end PromptTags
