import PromptTags.Proofs.Tag.Subtree
import PromptTags.Tag.Pick

/-! The values that stand in a tag tree. Whatever is drawn from a tree is one of them, and a path only
leads to values of the tree it starts from. -/
namespace PromptTags

namespace Node

mutual

/-- The scalars and candidates of a tree, from left to right. -/
def leaves : Node → List Text
  | scalar value => [value]
  | list values => values
  | map children => childrenLeaves children

def childrenLeaves : List (Text × Node) → List Text
  | [] => []
  | (_, child) :: rest => leaves child ++ childrenLeaves rest

end

@[simp] theorem leaves_scalar (value : Text) : (scalar value).leaves = [value] := by rw [leaves]

@[simp] theorem leaves_list (values : List Text) : (list values).leaves = values := by rw [leaves]

@[simp] theorem leaves_map (children : List (Text × Node)) :
    (map children).leaves = childrenLeaves children := by rw [leaves]

theorem mem_childrenLeaves {children : List (Text × Node)} {v : Text} :
    v ∈ childrenLeaves children ↔ ∃ entry ∈ children, v ∈ entry.2.leaves := by
  induction children with
  | nil => simp [childrenLeaves]
  | cons entry rest ih =>
    obtain ⟨key, child⟩ := entry
    simp [childrenLeaves, ih]

/-- What is drawn from a tree is a leaf of it. -/
theorem mem_leaves_of_pick {n : Node} {s s' : Source} {v : Text} (h : n.pick s = (.ok v, s')) :
    v ∈ n.leaves := by
  match n with
  | scalar value =>
    rw [pick] at h
    cases h
    simp
  | list values =>
    rw [pick] at h
    split at h
    · next hc =>
      cases h
      simpa using Source.mem_of_choose hc
    · cases h
  | map children =>
    rw [pick, pickChild] at h
    rw [leaves_map, mem_childrenLeaves]
    split at h
    · cases h
    · next hc =>
      -- two levels at once: the node that is followed lies below the inner mapping
      split at h
      · cases h
      · split at h
        · next node hl =>
          have hmem := mem_of_lookup_singleton hl
          have hinner := sizeOf_lt_of_mem hmem
          have houter := sizeOf_lt_of_mem (Source.mem_of_choose hc)
          have hv := mem_leaves_of_pick h
          refine ⟨_, Source.mem_of_choose hc, ?_⟩
          rw [leaves_map, mem_childrenLeaves]
          exact ⟨_, hmem, hv⟩
        · cases h
    · split at h
      · next node hl =>
        have hchild := sizeOf_lt_of_mem (mem_of_lookup_singleton hl)
        exact ⟨_, mem_of_lookup_singleton hl, mem_leaves_of_pick h⟩
      · cases h
termination_by sizeOf n
decreasing_by all_goals simp only [map.sizeOf_spec] at *; omega

/-- The leaves of a tree are the scalars within it and the elements of the lists within it. -/
theorem mem_leaves_iff {n : Node} {v : Text} :
    v ∈ n.leaves ↔ Within (scalar v) n ∨ ∃ values, Within (list values) n ∧ v ∈ values := by
  induction n with
  | scalar value => simp
  | list values => simp
  | map children ih =>
    rw [leaves_map, mem_childrenLeaves]
    constructor
    · rintro ⟨entry, hentry, hv⟩
      rcases (ih entry hentry).1 hv with h | ⟨values, h, hv⟩
      · exact .inl (.child hentry h)
      · exact .inr ⟨values, .child hentry h, hv⟩
    · rintro (h | ⟨values, h, hv⟩)
      · cases h with
        | child hentry h => exact ⟨_, hentry, (ih _ hentry).2 (.inl h)⟩
      · cases h with
        | child hentry h => exact ⟨_, hentry, (ih _ hentry).2 (.inr ⟨values, h, hv⟩)⟩

theorem leaves_of_within {m n : Node} (h : Within m n) {v : Text} (hv : v ∈ m.leaves) :
    v ∈ n.leaves := by
  rcases mem_leaves_iff.1 hv with hm | ⟨values, hm, hv⟩
  · exact mem_leaves_iff.2 (.inl (within_trans hm h))
  · exact mem_leaves_iff.2 (.inr ⟨values, within_trans hm h, hv⟩)

theorem leaves_of_lookup {base : Keyed Node} {path : List Text} {n : Node}
    (h : lookup base path = .ok n) {v : Text} (hv : v ∈ n.leaves) :
    ∃ entry ∈ base, v ∈ entry.2.leaves :=
  mem_childrenLeaves.1 (leaves_map base ▸ leaves_of_within (within_of_lookup h) hv)

/-- Where there are only scalars, one key leads to a value and no second one further. -/
theorem mem_of_lookup_scalars {base : Keyed Node} (hbase : ∀ entry ∈ base, ∃ v, entry.2 = scalar v)
    {path : List Text} {n : Node} (h : lookup base path = .ok n) :
    ∃ key, path = [key] ∧ (key, n) ∈ base := by
  cases path with
  | nil => simp [lookup] at h
  | cons k ks =>
    simp only [lookup] at h
    split at h
    · next node hg =>
      have hmem := Keyed.mem_of_get? hg
      obtain ⟨v, hv⟩ := hbase _ hmem
      dsimp only at hv
      subst hv
      cases ks with
      | nil =>
        cases h
        exact ⟨k, rfl, hmem⟩
      | cons k' ks => simp [descend] at h
    · cases h

/-- A path that resolves gives a leaf of the trees it starts from. -/
theorem mem_leaves_of_resolve {base : Keyed Node} {path : List Text} {s s' : Source} {v : Text}
    (h : resolve base path s = (.ok v, s')) : ∃ entry ∈ base, v ∈ entry.2.leaves := by
  simp only [resolve] at h
  split at h
  · next node hl => exact leaves_of_lookup hl (mem_leaves_of_pick h)
  · cases h

end Node

end PromptTags
