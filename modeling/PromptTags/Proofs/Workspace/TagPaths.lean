import PromptTags.Proofs.Tag.Routes
import PromptTags.Workspace.Commands

/-! Browsing a dictionary. What is listed below a path are the leaves there, one path each and in order; and
where no key holds the separator, a listed path leads back to its own leaf. -/
namespace PromptTags

namespace Workspace

variable {store : Store} {path : Text}

theorem pathsIn_of_lookup_ok (hpath : path ≠ []) {n : Node}
    (h : Node.lookup store.namespaces (Text.split ':' path) = .ok n) :
    pathsIn store (some path) = .ok (n.routes.map fun keys => path ++ keys.flatMap (':' :: ·)) := by
  have hempty : path.isEmpty = false := List.isEmpty_eq_false_iff.2 hpath
  simp [pathsIn, Node.pathsBelow?, hempty, h, Node.leafPaths_eq_map_routes]

theorem pathsIn_of_lookup_error (hpath : path ≠ []) {e : ResolutionError}
    (h : Node.lookup store.namespaces (Text.split ':' path) = .error e) :
    pathsIn store (some path) = .error (.tagNotFound path) := by
  have hempty : path.isEmpty = false := List.isEmpty_eq_false_iff.2 hpath
  simp [pathsIn, Node.pathsBelow?, hempty, h]

/-- A path that leads nowhere is reported as not found, whatever the reason. Below any other path all leaves
are listed, each by the keys that lead to it from there, in the order of a walk down the tree. Where no key
of the tree holds the separator, no path is listed twice and every leaf is found under its own. -/
theorem pathsIn_lists_leaves (hstore : (Node.map store.namespaces).Ordered) (hpath : path ≠ []) :
    (pathsIn store (some path) = .error (.tagNotFound path) ↔
      ∃ e, Node.lookup store.namespaces (Text.split ':' path) = .error e) ∧
    ∀ n, Node.lookup store.namespaces (Text.split ':' path) = .ok n →
      (∀ keys m, n.Leads keys m ↔
        Node.lookup store.namespaces (Text.split ':' path ++ keys) = .ok m) ∧
      ∃ routes : List (List Text),
        (∀ keys, keys ∈ routes ↔ ∃ leaf, n.Leads keys leaf ∧ leaf.isLeaf = true) ∧
        (routes.Pairwise fun a b => a.map Text.octets < b.map Text.octets) ∧
        let paths := routes.map fun keys => path ++ keys.flatMap (':' :: ·)
        pathsIn store (some path) = .ok paths ∧
        (n.isLeaf = true → paths = [path]) ∧
        (paths = [] ↔ ¬ ∃ leaf, Node.Within leaf n ∧ leaf.isLeaf = true) ∧
        ((∀ key, n.HasKey key → ':' ∉ key) →
          paths.Nodup ∧
          ∀ keys leaf, n.Leads keys leaf → leaf.isLeaf = true →
            path ++ keys.flatMap (':' :: ·) ∈ paths ∧
            Node.lookup store.namespaces (Text.split ':' (path ++ keys.flatMap (':' :: ·))) =
              .ok leaf) := by
  refine ⟨?_, ?_⟩
  · cases hlookup : Node.lookup store.namespaces (Text.split ':' path) with
    | error e => simp [pathsIn_of_lookup_error hpath hlookup]
    | ok n => simp [pathsIn_of_lookup_ok hpath hlookup]
  · intro n hn
    have hleads (keys : List Text) (m : Node) : n.Leads keys m ↔
        Node.lookup store.namespaces (Text.split ':' path ++ keys) = .ok m :=
      Node.leads_iff_lookup hstore hn
    have hpairwise := Node.pairwise_routes (Node.ordered_of_within (Node.within_of_lookup hn) hstore)
    refine ⟨hleads, n.routes, fun keys => Node.mem_routes, hpairwise,
      pathsIn_of_lookup_ok hpath hn, ?_, ?_, ?_⟩
    · intro hleaf
      simp [Node.routes_of_isLeaf hleaf]
    · rw [List.map_eq_nil_iff, Node.routes_eq_nil_iff]
    · intro hsep
      have hundivided {keys : List Text} (hkeys : keys ∈ n.routes) : ∀ key ∈ keys, ':' ∉ key :=
        Node.notMem_of_mem_routes hsep hkeys
      constructor
      · -- equal paths would be split into equal keys, but routes differ
        rw [List.Nodup, List.pairwise_map]
        apply hpairwise.imp_of_mem
        intro a b ha hb hab heq
        obtain rfl := Text.append_flatMap_inj (hundivided ha) (hundivided hb) heq
        exact List.lt_irrefl _ hab
      · intro keys leaf hkeys hleaf
        have hroute : keys ∈ n.routes := Node.mem_routes.2 ⟨leaf, hkeys, hleaf⟩
        refine ⟨List.mem_map.2 ⟨keys, hroute, rfl⟩, ?_⟩
        rw [Text.split_append_flatMap (hundivided hroute)]
        exact (hleads keys leaf).1 hkeys

/-- An empty key, an empty mapping and a list without values below a path of two keys. -/
theorem pathsIn_lists_leaves_empty_key :
    let hair : Node := .map [
      ([], .scalar (Text.lit "any")),
      (Text.lit "long", .map [(Text.lit "dark", .list [Text.lit "black"]), (Text.lit "fair", .list [])]),
      (Text.lit "none", .map [])]
    let store := Store.ofNamespaces [(Text.lit "look", .map [(Text.lit "hair", hair)])]
    let path := Text.lit "look:hair"
    let paths := [Text.lit "look:hair:", Text.lit "look:hair:long:dark", Text.lit "look:hair:long:fair"]
    (Node.map store.namespaces).Ordered ∧ path ≠ [] ∧
    Node.lookup store.namespaces (Text.split ':' path) = .ok hair ∧
    (∀ key, hair.HasKey key → ':' ∉ key) ∧
    pathsIn store (some path) = .ok paths ∧ paths.Nodup ∧
    Node.lookup store.namespaces (Text.split ':' (Text.lit "look:hair:")) =
      .ok (.scalar (Text.lit "any")) := by
  intro hair store path paths
  have hstore : (Node.map store.namespaces).Ordered := by
    simp only [store, hair, Store.ofNamespaces, Node.Ordered, Node.ChildrenOrdered, Keyed.Sorted]
    decide
  have hpath : path ≠ [] := by decide
  have hn : Node.lookup store.namespaces (Text.split ':' path) = .ok hair := rfl
  have hkeys : ∀ key, hair.HasKey key → ':' ∉ key := by
    intro key hkey
    simp only [hair, Node.hasKey_map, List.mem_cons, List.not_mem_nil, or_false, exists_eq_or_imp,
      exists_eq_left, Node.hasKey_list, Node.hasKey_scalar, false_and, exists_false] at hkey
    rcases hkey with rfl | (rfl | rfl | rfl) | rfl <;> decide
  have hpaths : pathsIn store (some path) = .ok paths := rfl
  obtain ⟨-, routes, -, -, hlisted, -, -, hunique⟩ := (pathsIn_lists_leaves hstore hpath).2 hair hn
  rw [hpaths] at hlisted
  obtain ⟨hnodup, hfound⟩ := hunique hkeys
  refine ⟨hstore, hpath, hn, hkeys, hpaths, Except.ok.inj hlisted ▸ hnodup, ?_⟩
  exact (hfound [[]] (.scalar (Text.lit "any")) (.child List.mem_cons_self (.here _)) rfl).2

end Workspace

end PromptTags
