import PromptTags.Proofs.Random.Draw
import PromptTags.Proofs.Tag.Leaves
import PromptTags.Proofs.Text.Order

/-! Picking from a tree as a plain walk. A pick goes down two mappings at a time and looks up the keys it
has drawn; where keys are distinct this is the walk that draws one child of every mapping it meets. So a
pick ends on a leaf or at an empty collection, and no key it looks up is missing. -/
namespace PromptTags.Node

/-- The walk down a tree: a scalar is its own value, a list gives a drawn element, and from a mapping the
walk goes on at a child that is drawn from all of them in the order of their keys. An empty list or
mapping ends it, and draws nothing. -/
def walk (node : Node) (s : Source) : Except ResolutionError Text × Source :=
  match node with
  | scalar value => (.ok value, s)
  | list values =>
    if h : values = [] then (.error .emptyCollection, s)
    else (.ok (s.draw values h).1, (s.draw values h).2)
  | map children =>
    if h : children = [] then (.error .emptyCollection, s)
    else (s.draw children h).1.2.walk (s.draw children h).2
termination_by sizeOf node
decreasing_by
  calc _ < sizeOf children := sizeOf_lt_of_mem (Source.draw_mem h s)
    _ < _ := by simp only [map.sizeOf_spec]; omega

theorem walk_scalar (value : Text) (s : Source) : (scalar value).walk s = (.ok value, s) := by
  rw [walk.eq_def]

theorem walk_list_nil (s : Source) : (list []).walk s = (.error .emptyCollection, s) := by
  rw [walk.eq_def]
  rfl

theorem walk_list {values : List Text} (h : values ≠ []) (s : Source) :
    (list values).walk s = (.ok (s.draw values h).1, (s.draw values h).2) := by
  rw [walk.eq_def]
  exact dif_neg h

theorem walk_map_nil (s : Source) : (map []).walk s = (.error .emptyCollection, s) := by
  rw [walk.eq_def]
  rfl

theorem walk_map {children : List (Text × Node)} (h : children ≠ []) (s : Source) :
    (map children).walk s = (s.draw children h).1.2.walk (s.draw children h).2 := by
  rw [walk.eq_def]
  exact dif_neg h

theorem pick_list {values : List Text} (h : values ≠ []) (s : Source) :
    (list values).pick s = (.ok (s.draw values h).1, (s.draw values h).2) := by
  rw [pick, Source.choose_eq_draw h]

theorem pick_map_nil (s : Source) : (map []).pick s = (.error .emptyCollection, s) := by
  rw [pick, pickChild]
  rfl

/-- A pick from a mapping is a pick from the child that is drawn first, also where that child is a
mapping and one of its own keys is drawn along with it. -/
theorem pick_map {children : List (Text × Node)} (h : (map children).Ordered) (hc : children ≠ [])
    (s : Source) :
    (map children).pick s = (s.draw children hc).1.2.pick (s.draw children hc).2 := by
  generalize hn : map children = n at h
  -- the second draw is the first of the inner mapping: by induction its pick begins with that one too
  induction n generalizing children s with
  | scalar value => cases hn
  | list values => cases hn
  | map children' ih =>
    obtain rfl := map.inj hn
    obtain ⟨hsorted, hchildren⟩ := ordered_map.1 h
    have hmem := Source.draw_mem hc s
    have hdraw := Source.choose_eq_draw hc s
    rw [pick, pickChild]
    generalize s.draw children hc = drawn at *
    obtain ⟨⟨key, child⟩, s'⟩ := drawn
    split
    · next hs => rw [hdraw] at hs; cases hs
    · next key' inner t hs =>
      rw [hdraw] at hs
      cases hs
      have hinner : (map inner).Ordered := hchildren _ hmem
      by_cases hi : inner = []
      · subst hi
        exact (pick_map_nil s').symm
      · have hpick : (map inner).pick s' = _ := ih _ hmem hi s' rfl hinner
        have hlookup := lookup_of_mem (ordered_map.1 hinner).1 (Source.draw_mem hi s')
        simp only [hpick, Source.choose_eq_draw hi]
        rw [hlookup]
    · next key' child' t _ hs =>
      rw [hdraw] at hs
      cases hs
      rw [lookup_of_mem hsorted hmem]

theorem pick_eq_walk {n : Node} (h : n.Ordered) (s : Source) : n.pick s = n.walk s := by
  induction n generalizing s with
  | scalar value => rw [pick, walk_scalar]
  | list values =>
    by_cases hv : values = []
    · rw [hv, pick, Source.choose_nil, walk_list_nil]
    · rw [pick_list hv, walk_list hv]
  | map children ih =>
    by_cases hc : children = []
    · rw [hc, pick_map_nil, walk_map_nil]
    · have hmem := Source.draw_mem hc s
      rw [pick_map h hc, walk_map hc, ih _ hmem ((ordered_map.1 h).2 _ hmem)]

theorem walk_of_isEmpty {n : Node} (h : n.isEmpty = true) (s : Source) :
    n.walk s = (.error .emptyCollection, s) := by
  cases n with
  | scalar value => cases h
  | list values =>
    obtain rfl := List.isEmpty_iff.1 h
    exact walk_list_nil s
  | map children =>
    obtain rfl := List.isEmpty_iff.1 h
    exact walk_map_nil s

/-- A walk ends on a leaf of its tree or at an empty collection in it. -/
theorem walk_outcome (n : Node) (s : Source) :
    (∃ v ∈ n.leaves, (n.walk s).1 = .ok v) ∨
      ((n.walk s).1 = .error .emptyCollection ∧ ∃ m, Within m n ∧ m.isEmpty = true) := by
  induction n generalizing s with
  | scalar value =>
    rw [walk_scalar]
    exact .inl ⟨value, by simp, rfl⟩
  | list values =>
    by_cases hv : values = []
    · subst hv
      rw [walk_list_nil]
      exact .inr ⟨rfl, _, .refl _, rfl⟩
    · rw [walk_list hv]
      exact .inl ⟨_, by simpa using Source.draw_mem hv s, rfl⟩
  | map children ih =>
    by_cases hc : children = []
    · subst hc
      rw [walk_map_nil]
      exact .inr ⟨rfl, _, .refl _, rfl⟩
    · have hmem := Source.draw_mem hc s
      rw [walk_map hc, leaves_map]
      rcases ih _ hmem (s.draw children hc).2 with ⟨v, hv, hwalk⟩ | ⟨hwalk, m, hm, hempty⟩
      · exact .inl ⟨v, mem_childrenLeaves.2 ⟨_, hmem, hv⟩, hwalk⟩
      · exact .inr ⟨hwalk, m, .child hmem hm, hempty⟩

/-- A pick from a tree is the plain walk down the tree, with the same value or failure and the same source
left over. The mappings it draws from are listed in the order of the octets of their keys, and it fails at
an empty collection only. -/
theorem pick_eq_plain_walk {n : Node} (h : n.Ordered) (s : Source) :
    n.pick s = n.walk s ∧
    (∀ children, n = map children → pickChild children s = n.walk s ∧
      children.Pairwise fun x y => Text.octets x.1 < Text.octets y.1) ∧
    ((∃ v ∈ n.leaves, (n.pick s).1 = .ok v) ∨
      ((n.pick s).1 = .error .emptyCollection ∧ ∃ m, Within m n ∧ m.isEmpty = true)) := by
  have hpick := pick_eq_walk h s
  refine ⟨hpick, ?_, ?_⟩
  · rintro children rfl
    rw [pick] at hpick
    exact ⟨hpick, Keyed.sorted_iff_octets.1 (ordered_map.1 h).1⟩
  · rw [hpick]
    exact walk_outcome n s

/-- Three mappings below each other: the first two draws are one step of the pick, and the walk takes them
singly. -/
theorem pick_eq_plain_walk_three_levels :
    let n : Node := .map [
      (Text.lit "hair", .map [
        (Text.lit "long", .map [
          (Text.lit "dark", .list [Text.lit "black", Text.lit "brown"]),
          (Text.lit "fair", .scalar (Text.lit "blonde"))]),
        (Text.lit "none", .list [])]),
      (Text.lit "hat", .scalar (Text.lit "cap"))]
    let s := Source.cycle [1, 2, 3, 4000000000]
    n.Ordered ∧ n.pick s = n.walk s ∧ (n.pick s).1.toOption = some (Text.lit "brown") := by
  intro n s
  have h : n.Ordered := by
    simp only [n, Ordered, ChildrenOrdered, Keyed.Sorted]
    decide
  exact ⟨h, (pick_eq_plain_walk h s).1, by decide +kernel⟩

end PromptTags.Node
