import PromptTags.Proofs.Tag.Routes
import PromptTags.Proofs.Text.Parts

/-! The paths that are listed. Each one is the keys of a path with colons between them, and leads to a
scalar or a list if it was listed below a path, else to the tree of a namespace. -/
namespace PromptTags

namespace Node

/-- The path to a leaf goes on from the path to its tree, by keys that lead down to the leaf. -/
theorem exists_keys_of_mem_leafPaths {n : Node} {path p : Text} (h : p ∈ n.leafPaths path) :
    ∃ keys leaf, p = path ++ keys.flatMap (':' :: ·) ∧ n.Leads keys leaf ∧
      ((∃ value, leaf = scalar value) ∨ ∃ values, leaf = list values) := by
  rw [leafPaths_eq_map_routes] at h
  obtain ⟨keys, hkeys, rfl⟩ := List.mem_map.1 h
  obtain ⟨leaf, hleads, hleaf⟩ := mem_routes.1 hkeys
  refine ⟨keys, leaf, rfl, hleads, ?_⟩
  cases leaf with
  | scalar value => exact .inl ⟨value, rfl⟩
  | list values => exact .inr ⟨values, rfl⟩
  | map children => cases hleaf

/-- A listed path is joined from keys that lead to a tree of the dictionary. -/
theorem exists_keys_of_mem_pathsBelow? {namespaces : Keyed Node}
    (hordered : (map namespaces).Ordered) {path : Option Text} {paths : List Text}
    (h : pathsBelow? namespaces path = some paths) {p : Text} (hp : p ∈ paths) :
    ∃ keys n, p = Text.join [':'] keys ∧ lookup namespaces keys = .ok n ∧
      (path.getD [] ≠ [] → (∃ value, n = scalar value) ∨ ∃ values, n = list values) := by
  simp only [pathsBelow?] at h
  split at h
  · next hempty =>
    cases h
    obtain ⟨entry, hentry, rfl⟩ := List.mem_map.1 hp
    refine ⟨[entry.1], entry.2, by simp [Text.join, List.intercalate],
      lookup_of_mem (ordered_map.1 hordered).1 hentry, ?_⟩
    intro hne
    exact absurd (List.isEmpty_iff.1 hempty) hne
  · split at h
    · next n hlookup =>
      cases h
      obtain ⟨keys, leaf, rfl, hkeys, hleaf⟩ := exists_keys_of_mem_leafPaths hp
      refine ⟨_, leaf, ?_, (leads_iff_lookup hordered hlookup).1 hkeys, fun _ => hleaf⟩
      rw [Text.join_append _ (ne_nil_of_lookup hlookup), Text.join_split]
      rfl
    · cases h

end Node

end PromptTags
