import PromptTags.Proofs.Tag.Walk

/-! What resolving a path can give. Every draw in range is made by some words, so a walk can be led to any
tree within the one it starts from; and it ends nowhere but on a leaf or at an empty collection. -/
namespace PromptTags.Node

def width : Node → Nat
  | scalar _ => 0
  | list values => values.length
  | map children => children.length

/-- There are words that lead a walk to any tree within the one it starts from. -/
theorem exists_words_walk {m n : Node} (h : Within m n)
    (hwidth : ∀ m, Within m n → m.width < UInt32.size) :
    ∃ ws, ∀ more s, Source.Begins s (ws ++ more) →
      ∃ s', n.walk s = m.walk s' ∧ s'.Begins more := by
  induction h with
  | refl => exact ⟨[], fun more s hs => ⟨s, rfl, hs⟩⟩
  | @child entry children hentry _ ih =>
    -- the words for the child that is drawn here, and then those for the way on from it
    obtain ⟨ws, hws⟩ := Source.exists_words_draw hentry (Nat.le_of_lt (hwidth _ (.refl _)))
    obtain ⟨ws', hws'⟩ := ih fun m hm => hwidth m (.child hentry hm)
    refine ⟨ws ++ ws', ?_⟩
    intro more s hs
    rw [List.append_assoc] at hs
    obtain ⟨s₁, hdraw, hs₁⟩ := hws _ s hs
    obtain ⟨s₂, hwalk, hs₂⟩ := hws' _ s₁ hs₁
    exact ⟨s₂, by rw [walk_map (List.ne_nil_of_mem hentry), hdraw, hwalk], hs₂⟩

/-- What a path can resolve to is each leaf of the tree it leads to, and a failure for want of elements
just if an empty collection stands in that tree. -/
theorem exists_resolve_eq_iff {base : Keyed Node} (hbase : (map base).Ordered)
    (hwidth : ∀ m, Within m (map base) → m.width < UInt32.size) {path : List Text} {n : Node}
    (hn : lookup base path = .ok n) (o : Except ResolutionError Text) :
    (∃ s : Source, (resolve base path s).1 = o) ↔
      (∃ v ∈ n.leaves, o = .ok v) ∨
        (o = .error .emptyCollection ∧ ∃ m, Within m n ∧ m.isEmpty = true) := by
  have hbelow := within_of_lookup hn
  have hresolve (s : Source) : resolve base path s = n.walk s := by
    rw [resolve, hn]
    exact pick_eq_walk (ordered_of_within hbelow hbase) s
  have hreach {m : Node} (hm : Within m n) (more : List UInt32) :
      ∃ s s' : Source, (resolve base path s).1 = (m.walk s').1 ∧ s'.Begins more := by
    obtain ⟨ws, hws⟩ := exists_words_walk hm fun l hl => hwidth l (within_trans hl hbelow)
    obtain ⟨s', hwalk, hs'⟩ := hws more _ (Source.begins_cycle (ws ++ more))
    exact ⟨_, s', by rw [hresolve, hwalk], hs'⟩
  constructor
  · rintro ⟨s, rfl⟩
    rw [hresolve]
    exact walk_outcome n s
  · rintro (⟨v, hv, rfl⟩ | ⟨rfl, m, hm, hempty⟩)
    · rcases mem_leaves_iff.1 hv with hm | ⟨values, hm, hv⟩
      · obtain ⟨s, s', hs, -⟩ := hreach hm []
        exact ⟨s, by rw [hs, walk_scalar]⟩
      · have hlen := hwidth _ (within_trans hm hbelow)
        obtain ⟨ws, hws⟩ := Source.exists_words_draw hv (Nat.le_of_lt hlen)
        obtain ⟨s, s', hs, hs'⟩ := hreach hm (ws ++ [])
        obtain ⟨_, hdraw, -⟩ := hws [] s' hs'
        exact ⟨s, by rw [hs, walk_list (List.ne_nil_of_mem hv), hdraw]⟩
    · obtain ⟨s, s', hs, -⟩ := hreach hm []
      exact ⟨s, by rw [hs, walk_of_isEmpty hempty]⟩

/-- A path to a mapping with an empty list in it: the list makes the failure possible, and does not stand
in the way of the leaf beside it. -/
theorem exists_resolve_eq_iff_beside_empty :
    let hair : Node := .map [
      (Text.lit "long", .map [(Text.lit "dark", .list [Text.lit "black", Text.lit "brown"])]),
      (Text.lit "none", .list [])]
    let base : Keyed Node := [(Text.lit "hair", hair), (Text.lit "hat", .scalar (Text.lit "cap"))]
    let path := [Text.lit "hair"]
    (map base).Ordered ∧ (∀ m, Within m (map base) → m.width < UInt32.size) ∧
    lookup base path = .ok hair ∧
    (∃ s : Source, (resolve base path s).1 = .ok (Text.lit "brown")) ∧
    (∃ s : Source, (resolve base path s).1 = .error .emptyCollection) ∧
    ¬ ∃ s : Source, (resolve base path s).1 = .ok (Text.lit "cap") := by
  intro hair base path
  have hbase : (map base).Ordered := by
    simp only [base, hair, Ordered, ChildrenOrdered, Keyed.Sorted]
    decide
  have hwidth : ∀ m, Within m (map base) → m.width < UInt32.size := by
    intro m hm
    simp only [base, hair, within_map, List.mem_cons, List.not_mem_nil, or_false, exists_eq_or_imp,
      exists_eq_left, within_list, within_scalar] at hm
    rcases hm with rfl | (rfl | (rfl | rfl) | rfl) | rfl <;> decide
  have hn : lookup base path = .ok hair := rfl
  have hiff := exists_resolve_eq_iff hbase hwidth hn
  refine ⟨hbase, hwidth, hn, (hiff _).2 (.inl ⟨Text.lit "brown", ?_, rfl⟩),
    (hiff _).2 (.inr ⟨rfl, .list [], ?_, rfl⟩), ?_⟩
  · simp [hair, childrenLeaves]
  · simp [hair]
  · intro h
    have hcap : Text.lit "cap" = Text.lit "black" ∨ Text.lit "cap" = Text.lit "brown" := by
      simpa [hair, childrenLeaves] using (hiff _).1 h
    exact absurd hcap (by decide)

end PromptTags.Node
