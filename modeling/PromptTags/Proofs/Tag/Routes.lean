import PromptTags.Proofs.Tag.Subtree
import PromptTags.Proofs.Text.Order
import PromptTags.Tag.Listing

/-! Routes from a tree to its leaves. The keys that lead to a leaf are its route; a listing of paths writes
the routes down behind the path of the tree, in the order of a walk down it. Keys without a separator can be
read back from what is written. -/
namespace PromptTags

/-- Behind a path keys are written with a separator in front of each. -/
theorem Text.split_append_flatMap {sep : Char} {keys : List Text} (h : ∀ key ∈ keys, sep ∉ key)
    (path : Text) : split sep (path ++ keys.flatMap (sep :: ·)) = split sep path ++ keys := by
  induction keys generalizing path with
  | nil => simp
  | cons key keys ih =>
    have hrest := ih (fun k hk => h k (List.mem_cons_of_mem key hk)) key
    calc split sep (path ++ (key :: keys).flatMap (sep :: ·))
        = split sep (path ++ sep :: (key ++ keys.flatMap (sep :: ·))) := rfl
      _ = split sep path ++ split sep (key ++ keys.flatMap (sep :: ·)) := split_append_sep sep path _
      _ = split sep path ++ key :: keys := by
        rw [hrest, split_of_notMem (h key List.mem_cons_self)]
        rfl

/-- Paths below a path are told apart by their keys, where these hold no separator. -/
theorem Text.append_flatMap_inj {sep : Char} {path : Text} {keys keys' : List Text}
    (hkeys : ∀ key ∈ keys, sep ∉ key) (hkeys' : ∀ key ∈ keys', sep ∉ key)
    (h : path ++ keys.flatMap (sep :: ·) = path ++ keys'.flatMap (sep :: ·)) : keys = keys' := by
  have hsplit := congrArg (split sep) h
  rw [split_append_flatMap hkeys, split_append_flatMap hkeys'] at hsplit
  exact List.append_cancel_left hsplit

namespace Node

/-- A scalar or a list. -/
def isLeaf : Node → Bool
  | scalar _ => true
  | list _ => true
  | map _ => false

mutual

/-- The keys to each leaf of a tree. -/
def routes : Node → List (List Text)
  | scalar _ => [[]]
  | list _ => [[]]
  | map children => childRoutes children

def childRoutes : List (Text × Node) → List (List Text)
  | [] => []
  | (key, child) :: rest => (routes child).map (key :: ·) ++ childRoutes rest

end

theorem routes_of_isLeaf {n : Node} (h : n.isLeaf = true) : n.routes = [[]] := by
  cases n with
  | scalar value => rw [routes]
  | list values => rw [routes]
  | map children => cases h

theorem mem_childRoutes {children : List (Text × Node)} {keys : List Text} :
    keys ∈ childRoutes children ↔
      ∃ entry ∈ children, ∃ more ∈ entry.2.routes, keys = entry.1 :: more := by
  induction children with
  | nil => simp [childRoutes]
  | cons entry rest ih =>
    obtain ⟨key, child⟩ := entry
    simp [childRoutes, ih, eq_comm]

theorem mem_routes_of_isLeaf {n : Node} (hn : n.isLeaf = true) {keys : List Text} :
    keys ∈ n.routes ↔ ∃ leaf, n.Leads keys leaf ∧ leaf.isLeaf = true := by
  rw [routes_of_isLeaf hn, List.mem_singleton]
  constructor
  · rintro rfl
    exact ⟨n, .here n, hn⟩
  · rintro ⟨leaf, hleads, -⟩
    cases hleads with
    | here => rfl
    | child => cases hn

/-- The routes of a tree are the keys that lead to its leaves. -/
theorem mem_routes {n : Node} {keys : List Text} :
    keys ∈ n.routes ↔ ∃ leaf, n.Leads keys leaf ∧ leaf.isLeaf = true := by
  induction n generalizing keys with
  | scalar value => exact mem_routes_of_isLeaf rfl
  | list values => exact mem_routes_of_isLeaf rfl
  | map children ih =>
    rw [routes, mem_childRoutes]
    constructor
    · rintro ⟨entry, hentry, more, hmore, rfl⟩
      obtain ⟨leaf, hleads, hleaf⟩ := (ih entry hentry).1 hmore
      exact ⟨leaf, .child hentry hleads, hleaf⟩
    · rintro ⟨leaf, hleads, hleaf⟩
      cases hleads with
      | here => cases hleaf
      | child hentry h => exact ⟨_, hentry, _, (ih _ hentry).2 ⟨leaf, h, hleaf⟩, rfl⟩

theorem routes_eq_nil_iff {n : Node} :
    n.routes = [] ↔ ¬ ∃ leaf, Within leaf n ∧ leaf.isLeaf = true := by
  rw [List.eq_nil_iff_forall_not_mem]
  constructor
  · rintro h ⟨leaf, hwithin, hleaf⟩
    obtain ⟨keys, hkeys⟩ := within_iff_leads.1 hwithin
    exact h keys (mem_routes.2 ⟨leaf, hkeys, hleaf⟩)
  · intro h keys hkeys
    obtain ⟨leaf, hleads, hleaf⟩ := mem_routes.1 hkeys
    exact h ⟨leaf, within_iff_leads.2 ⟨keys, hleads⟩, hleaf⟩

theorem notMem_of_mem_routes {n : Node} {sep : Char} (hsep : ∀ key, n.HasKey key → sep ∉ key)
    {keys : List Text} (h : keys ∈ n.routes) : ∀ key ∈ keys, sep ∉ key := by
  obtain ⟨leaf, hleads, -⟩ := mem_routes.1 h
  intro key hkey
  exact hsep key (hasKey_of_leads hleads key hkey)

mutual

/-- Where mappings are in order, routes are listed as a walk down the tree meets the leaves. -/
theorem pairwise_routes {n : Node} (h : n.Ordered) :
    n.routes.Pairwise fun a b => a.map Text.octets < b.map Text.octets := by
  match n with
  | scalar value => exact List.pairwise_singleton _ _
  | list values => exact List.pairwise_singleton _ _
  | map children => exact pairwise_childRoutes h.1 h.2

theorem pairwise_childRoutes {children : List (Text × Node)} (hsorted : Keyed.Sorted children)
    (h : ChildrenOrdered children) :
    (childRoutes children).Pairwise fun a b => a.map Text.octets < b.map Text.octets := by
  match children with
  | [] => exact List.Pairwise.nil
  | (key, child) :: rest =>
    obtain ⟨hfirst, hrest⟩ := List.pairwise_cons.1 hsorted
    refine List.pairwise_append.2 ⟨?_, pairwise_childRoutes hrest h.2, ?_⟩
    · rw [List.pairwise_map]
      apply (pairwise_routes h.1).imp
      intro a b hab
      exact List.cons_lt_cons_iff.2 (.inr ⟨rfl, hab⟩)
    · -- every key of the rest comes after the first one
      intro a ha b hb
      obtain ⟨more, -, rfl⟩ := List.mem_map.1 ha
      obtain ⟨entry, hentry, more', -, rfl⟩ := mem_childRoutes.1 hb
      exact Text.map_octets_lt [] (hfirst entry hentry) more more'

end

mutual

/-- A listing is the routes, each written behind the path of the tree. -/
theorem leafPaths_eq_map_routes (path : Text) (n : Node) :
    n.leafPaths path = n.routes.map fun keys => path ++ keys.flatMap (':' :: ·) := by
  match n with
  | scalar value => simp [leafPaths, routes]
  | list values => simp [leafPaths, routes]
  | map children => exact childLeafPaths_eq_map_childRoutes path children

theorem childLeafPaths_eq_map_childRoutes (path : Text) (children : List (Text × Node)) :
    childLeafPaths path children =
      (childRoutes children).map fun keys => path ++ keys.flatMap (':' :: ·) := by
  match children with
  | [] => rfl
  | (key, child) :: rest =>
    rw [childLeafPaths, childRoutes, List.map_append, List.map_map,
      leafPaths_eq_map_routes (path ++ ':' :: key) child, childLeafPaths_eq_map_childRoutes path rest]
    simp [Function.comp_def]

end

end Node

end PromptTags
