import PromptTags.Proofs.Dictionary.Ordered
import PromptTags.Proofs.Text.Order

/-! What is left out when a tag tree is made of a YAML node: the collections that stand directly in a
sequence, where keys lead to the sequence from mapping to mapping. Every one of them is listed, with those
keys and its number, in the order of a walk down the node, and so none is listed twice. -/
namespace PromptTags

namespace Yaml.Node

/-- A sequence or a mapping. -/
def isCollection : Node → Bool
  | null => false
  | scalar _ => false
  | sequence _ => true
  | mapping _ => true

theorem plain?_eq_none_iff {node : Node} : node.plain? = none ↔ node.isCollection = true := by
  cases node <;> simp [plain?, isCollection]

/-- Without keys a node leads to itself, and a mapping leads by a key and further keys to what the value
under the key leads to. -/
inductive Leads : Node → List Text → Node → Prop
  | here (node : Node) : Leads node [] node
  | value {entries : List (Text × Node)} {entry : Text × Node} {keys : List Text} {node : Node}
      (hentry : entry ∈ entries) (h : Leads entry.2 keys node) :
      Leads (mapping entries) (entry.1 :: keys) node

/-- The collection with a number in a sequence that keys lead to. -/
def LeavesOut (root : Node) (keys : List Text) (index : Nat) : Prop :=
  ∃ items item, root.Leads keys (sequence items) ∧ items[index]? = some item ∧
    item.isCollection = true

variable {keys : List Text} {index : Nat}

@[simp] theorem leavesOut_null : ¬ null.LeavesOut keys index := by
  rintro ⟨items, item, hleads, -⟩
  cases hleads

@[simp] theorem leavesOut_scalar {text : Text} : ¬ (scalar text).LeavesOut keys index := by
  rintro ⟨items, item, hleads, -⟩
  cases hleads

@[simp] theorem leavesOut_sequence {items : List Node} :
    (sequence items).LeavesOut keys index ↔
      keys = [] ∧ ∃ item, items[index]? = some item ∧ item.isCollection = true := by
  constructor
  · rintro ⟨items', item, hleads, hitem⟩
    cases hleads
    exact ⟨rfl, item, hitem⟩
  · rintro ⟨rfl, item, hitem⟩
    exact ⟨items, item, .here _, hitem⟩

@[simp] theorem leavesOut_mapping {entries : List (Text × Node)} :
    (mapping entries).LeavesOut keys index ↔
      ∃ entry ∈ entries, ∃ more, keys = entry.1 :: more ∧ entry.2.LeavesOut more index := by
  constructor
  · rintro ⟨items, item, hleads, hitem⟩
    cases hleads with
    | value hentry h => exact ⟨_, hentry, _, rfl, items, item, h, hitem⟩
  · rintro ⟨entry, hentry, more, rfl, items, item, hleads, hitem⟩
    exact ⟨items, item, .value hentry hleads, hitem⟩

end Yaml.Node

/-- The order in which a walk down a node meets what is left out: by the octets of the first key in which the
keys differ, and by number within a sequence. -/
def Omission.Before (o o' : Omission) : Prop :=
  o.keys.map Text.octets < o'.keys.map Text.octets ∨ o.keys = o'.keys ∧ o.index < o'.index

theorem Omission.not_before_self (o : Omission) : ¬ o.Before o := by
  rintro (h | ⟨-, h⟩)
  · exact List.lt_irrefl _ h
  · exact Nat.lt_irrefl _ h

namespace Node

/-- Of a sequence the plain values are kept, in their order. -/
theorem values_plainItems (keys : List Text) (index : Nat) (items : List Yaml.Node) :
    (plainItems keys index items).1 = items.filterMap Yaml.Node.plain? := by
  induction items generalizing index with
  | nil => rfl
  | cons item rest ih =>
    rw [plainItems]
    cases hplain : item.plain? with
    | none => simpa [hplain] using ih (index + 1)
    | some text => simpa [hplain] using ih (index + 1)

/-- Of a sequence the collections are left out, each under its number. -/
theorem omissions_plainItems (keys : List Text) (index : Nat) (items : List Yaml.Node) :
    (plainItems keys index items).2 =
      ((items.zipIdx index).filter fun p => p.1.isCollection).map fun p => ⟨keys, p.2⟩ := by
  induction items generalizing index with
  | nil => rfl
  | cons item rest ih =>
    rw [plainItems, List.zipIdx_cons]
    cases hplain : item.plain? with
    | none =>
      have hcollection := Yaml.Node.plain?_eq_none_iff.1 hplain
      simp [ih, hcollection]
    | some text =>
      have hcollection : item.isCollection = false := by
        rw [← Bool.not_eq_true, ← Yaml.Node.plain?_eq_none_iff, hplain]
        simp
      simp [ih, hcollection]

theorem mem_plainItems {keys : List Text} {items : List Yaml.Node} {o : Omission} :
    o ∈ (plainItems keys 0 items).2 ↔
      o.keys = keys ∧ ∃ item, items[o.index]? = some item ∧ item.isCollection = true := by
  rw [omissions_plainItems, List.mem_map]
  constructor
  · rintro ⟨⟨item, i⟩, hmem, rfl⟩
    obtain ⟨hitem, hcollection⟩ := List.mem_filter.1 hmem
    exact ⟨rfl, item, List.mem_zipIdx_iff_getElem?.1 hitem, hcollection⟩
  · rintro ⟨rfl, item, hitem, hcollection⟩
    refine ⟨(item, o.index), List.mem_filter.2 ⟨?_, hcollection⟩, rfl⟩
    exact List.mem_zipIdx_iff_getElem?.2 hitem

theorem pairwise_plainItems (keys : List Text) (items : List Yaml.Node) :
    (plainItems keys 0 items).2.Pairwise Omission.Before := by
  rw [omissions_plainItems, List.pairwise_map]
  apply List.Pairwise.filter
  have hnumbers : ((items.zipIdx 0).map Prod.snd).Pairwise (· < ·) := by
    rw [List.zipIdx_map_snd]
    exact List.pairwise_lt_range'
  exact (List.pairwise_map.1 hnumbers).imp fun h => .inr ⟨rfl, h⟩

mutual

/-- Below some keys a node has those collections listed that it leaves out, under all keys that lead to
them. -/
theorem mem_ofYamlAt {keys : List Text} {node : Yaml.Node} {o : Omission} :
    o ∈ (ofYamlAt keys node).2 ↔ ∃ more, o.keys = keys ++ more ∧ node.LeavesOut more o.index := by
  match node with
  | .null => simp [ofYamlAt]
  | .scalar _ => simp [ofYamlAt]
  | .sequence items =>
    change o ∈ (plainItems keys 0 items).2 ↔ _
    rw [mem_plainItems]
    constructor
    · rintro ⟨hkeys, hitem⟩
      exact ⟨[], by simp [hkeys], Yaml.Node.leavesOut_sequence.2 ⟨rfl, hitem⟩⟩
    · rintro ⟨more, hkeys, hout⟩
      obtain ⟨rfl, hitem⟩ := Yaml.Node.leavesOut_sequence.1 hout
      exact ⟨by simpa using hkeys, hitem⟩
  | .mapping entries =>
    change o ∈ (ofYamlEntries keys entries).2 ↔ _
    simp only [mem_ofYamlEntries, Yaml.Node.leavesOut_mapping]
    constructor
    · rintro ⟨entry, hentry, more, hkeys, hout⟩
      exact ⟨entry.1 :: more, hkeys, entry, hentry, more, rfl, hout⟩
    · rintro ⟨_, hkeys, entry, hentry, more, rfl, hout⟩
      exact ⟨entry, hentry, more, hkeys, hout⟩

theorem mem_ofYamlEntries {keys : List Text} {entries : List (Text × Yaml.Node)} {o : Omission} :
    o ∈ (ofYamlEntries keys entries).2 ↔
      ∃ entry ∈ entries, ∃ more, o.keys = keys ++ entry.1 :: more ∧
        entry.2.LeavesOut more o.index := by
  match entries with
  | [] => simp [ofYamlEntries]
  | (key, node) :: rest =>
    change o ∈ (ofYamlAt (keys ++ [key]) node).2 ++ (ofYamlEntries keys rest).2 ↔ _
    rw [List.mem_append, mem_ofYamlAt, mem_ofYamlEntries]
    simp

end

mutual

/-- Where mappings are in order, entries are listed as a walk down the node meets them. -/
theorem pairwise_ofYamlAt (keys : List Text) {node : Yaml.Node} (h : node.Ordered) :
    (ofYamlAt keys node).2.Pairwise Omission.Before := by
  match node with
  | .null => exact List.Pairwise.nil
  | .scalar _ => exact List.Pairwise.nil
  | .sequence items => exact pairwise_plainItems keys items
  | .mapping entries => exact pairwise_ofYamlEntries keys h.1 h.2

theorem pairwise_ofYamlEntries (keys : List Text) {entries : List (Text × Yaml.Node)}
    (hsorted : Keyed.Sorted entries) (h : Yaml.Node.EntriesOrdered entries) :
    (ofYamlEntries keys entries).2.Pairwise Omission.Before := by
  match entries with
  | [] => exact List.Pairwise.nil
  | (key, node) :: rest =>
    obtain ⟨hfirst, hrest⟩ := List.pairwise_cons.1 hsorted
    change ((ofYamlAt (keys ++ [key]) node).2 ++ (ofYamlEntries keys rest).2).Pairwise _
    refine List.pairwise_append.2 ⟨pairwise_ofYamlAt (keys ++ [key]) h.1,
      pairwise_ofYamlEntries keys hrest h.2, ?_⟩
    intro o ho o' ho'
    -- the first key behind `keys` is smaller in the first list than anywhere in the second
    obtain ⟨more, hkeys, -⟩ := mem_ofYamlAt.1 ho
    obtain ⟨entry, hentry, more', hkeys', -⟩ := mem_ofYamlEntries.1 ho'
    left
    rw [hkeys, hkeys', List.append_assoc, List.singleton_append]
    exact Text.map_octets_lt keys (hfirst entry hentry) more more'

end

theorem nodup_ofYamlAt (keys : List Text) {node : Yaml.Node} (h : node.Ordered) :
    (ofYamlAt keys node).2.Nodup := by
  apply (pairwise_ofYamlAt keys h).imp
  rintro o _ hbefore rfl
  exact Omission.not_before_self o hbefore

/-- What is listed of a node are the collections that it leaves out. -/
theorem mem_ofYaml {node : Yaml.Node} {o : Omission} :
    o ∈ (ofYaml node).2 ↔ node.LeavesOut o.keys o.index := by
  rw [ofYaml, mem_ofYamlAt]
  simp

end Node

end PromptTags
