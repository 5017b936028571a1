import PromptTags.Proofs.Directive.Gap
import PromptTags.Proofs.Tag.Listing
import PromptTags.Proofs.Text.Parts
import PromptTags.Report

/-! Lists of tag paths read as prompts. A path stands between two markers on a line of its own, so where its
keys hold nothing that means something within a directive, the line is read as one directive with this path,
and the scan goes on with the next line. -/
namespace PromptTags

namespace Text

/-- A part without the character between two texts lies within one of them. -/
theorem infix_of_infix_append_cons {part x y : Text} {c : Char} (hc : c ∉ part)
    (h : part <:+: x ++ c :: y) : part <:+: x ∨ part <:+: y := by
  have hfront {x : Text} (hx : part <+: x ++ c :: y) : part <+: x := by
    rcases List.prefix_or_prefix_of_prefix hx (List.prefix_append x (c :: y)) with h | ⟨r, rfl⟩
    · exact h
    · rw [List.prefix_append_right_inj] at hx
      cases r with
      | nil => simp
      | cons d ds =>
        obtain ⟨z, hz⟩ := hx
        obtain rfl := (List.cons.inj hz).1
        simp at hc
  induction x with
  | nil =>
    rcases List.infix_cons_iff.1 h with h | h
    · exact .inl (hfront h).isInfix
    · exact .inr h
  | cons d ds ih =>
    rcases List.infix_cons_iff.1 h with h | h
    · exact .inl (hfront h).isInfix
    · exact (ih h).imp_left fun h => h.trans (List.suffix_cons d ds).isInfix

/-- A part without the separator lies within one of the pieces that are joined. -/
theorem exists_infix_of_infix_join {sep : Char} {part : Text} (hsep : sep ∉ part)
    {pieces : List Text} (hne : pieces ≠ []) (h : part <:+: join [sep] pieces) :
    ∃ piece ∈ pieces, part <:+: piece := by
  induction pieces with
  | nil => exact absurd rfl hne
  | cons p ps ih =>
    cases ps with
    | nil => exact ⟨p, List.mem_cons_self, by simpa [join, List.intercalate] using h⟩
    | cons q qs =>
      have hsplit : join [sep] (p :: q :: qs) = p ++ sep :: join [sep] (q :: qs) := by
        simp [join, List.intercalate]
      rw [hsplit] at h
      rcases infix_of_infix_append_cons hsep h with h | h
      · exact ⟨p, List.mem_cons_self, h⟩
      · obtain ⟨piece, hpiece, hpart⟩ := ih (List.cons_ne_nil q qs) h
        exact ⟨piece, List.mem_cons_of_mem p hpiece, hpart⟩

end Text

namespace Report

/-- A key that can be written in a path: some text without separator, marker, barrier or two signs in a
row. -/
structure IsWritable (key : Text) : Prop where
  ne_nil : key ≠ []
  undivided : keySeparator ∉ key
  unmarked : marker ∉ key
  within : barrier ∉ key
  unsigned : ¬ [repeatSign, repeatSign] <:+: key

instance (key : Text) : Decidable (IsWritable key) :=
  letI := List.instDecidableIsInfixOfDecidableEq [repeatSign, repeatSign] key
  decidable_of_iff (key ≠ [] ∧ keySeparator ∉ key ∧ marker ∉ key ∧ barrier ∉ key ∧
      ¬ [repeatSign, repeatSign] <:+: key)
    ⟨fun ⟨h₁, h₂, h₃, h₄, h₅⟩ => ⟨h₁, h₂, h₃, h₄, h₅⟩,
      fun ⟨h₁, h₂, h₃, h₄, h₅⟩ => ⟨h₁, h₂, h₃, h₄, h₅⟩⟩

variable {keys : List Text}

theorem notMem_join_of_isWritable {c : Char} (hkeys : ∀ key ∈ keys, IsWritable key)
    (hsep : c ≠ keySeparator) (h : ∀ key, IsWritable key → c ∉ key) :
    c ∉ Text.join [keySeparator] keys := by
  intro hc
  rcases Text.mem_join hc with hc | ⟨key, hkey, hc⟩
  · exact hsep (List.mem_singleton.1 hc)
  · exact h key (hkeys key hkey) hc

theorem split_join_of_isWritable (hne : keys ≠ []) (hkeys : ∀ key ∈ keys, IsWritable key) :
    Text.split keySeparator (Text.join [keySeparator] keys) = keys :=
  Text.split_join hne fun key hkey => (hkeys key hkey).undivided

/-- Writable keys make a path that is read as it stands. -/
theorem isBare_join (hne : keys ≠ []) (hkeys : ∀ key ∈ keys, IsWritable key) :
    Mention.IsBare (Text.join [keySeparator] keys) := by
  refine ⟨?_, ?_, ?_, ?_⟩
  · intro hnil
    have hsplit := split_join_of_isWritable hne hkeys
    rw [hnil] at hsplit
    exact (hkeys [] (by rw [← hsplit]; exact List.mem_singleton.2 rfl)).ne_nil rfl
  · exact notMem_join_of_isWritable hkeys (by decide) fun _ h => h.unmarked
  · exact notMem_join_of_isWritable hkeys (by decide) fun _ h => h.within
  · intro hsigns
    obtain ⟨key, hkey, h⟩ := Text.exists_infix_of_infix_join (by decide) hne hsigns
    exact (hkeys key hkey).unsigned h

/-- The directive that a line of a list shows. -/
def directiveOf (path : Text) : Directive :=
  ⟨marker :: path ++ [marker], .once, Text.split keySeparator path⟩

/-- Every line of a list is read as its own directive, and nothing else is. -/
theorem scan_tagList {paths : List Text} (h : ∀ path ∈ paths, Mention.IsBare path) :
    Directive.scan (tagList paths) = paths.map directiveOf := by
  have hlines : Directive.scan (paths.flatMap fun path => marker :: path ++ [marker, '\n']) =
      paths.map directiveOf := by
    induction paths with
    | nil => exact Directive.scan_nil
    | cons path paths ih =>
      have hread := Mention.after?_of_isBare (h path List.mem_cons_self)
      rw [List.flatMap_cons, List.cons_append, List.cons_append, List.append_assoc,
        List.cons_append, Directive.scan_marker_of_some (hread _), List.singleton_append,
        Directive.scan_cons_of_ne (by decide), ih fun p hp => h p (List.mem_cons_of_mem path hp)]
      rfl
  cases paths with
  | nil => decide +kernel
  | cons path paths => exact hlines

/-- A printed list of tag paths is a prompt with exactly the listed paths for its directives, each for one
value, and each found in the dictionary. -/
theorem scan_tagList_pathsBelow? {namespaces : Keyed Node} (hordered : (Node.map namespaces).Ordered)
    (hkeys : ∀ key, (Node.map namespaces).HasKey key → IsWritable key) {path : Option Text}
    {paths : List Text} (h : Node.pathsBelow? namespaces path = some paths) :
    Directive.scan (tagList paths) = paths.map directiveOf ∧
    (Directive.scan (tagList paths)).length = paths.length ∧
    ∀ d ∈ Directive.scan (tagList paths), d.range = ⟨1, 1⟩ ∧
      ∃ n, Node.lookup namespaces d.path = .ok n ∧
        (path.getD [] ≠ [] → (∃ value, n = .scalar value) ∨ ∃ values, n = .list values) := by
  have hpaths : ∀ p ∈ paths, ∃ keys, (∀ key ∈ keys, IsWritable key) ∧ keys ≠ [] ∧
      p = Text.join [keySeparator] keys ∧ ∃ n, Node.lookup namespaces keys = .ok n ∧
        (path.getD [] ≠ [] → (∃ value, n = .scalar value) ∨ ∃ values, n = .list values) := by
    intro p hp
    obtain ⟨keys, n, hjoin, hlookup, hleaf⟩ := Node.exists_keys_of_mem_pathsBelow? hordered h hp
    exact ⟨keys, fun key hkey => hkeys key (Node.hasKey_of_lookup hlookup key hkey),
      Node.ne_nil_of_lookup hlookup, hjoin, n, hlookup, hleaf⟩
  have hscan : Directive.scan (tagList paths) = paths.map directiveOf := by
    apply scan_tagList
    intro p hp
    obtain ⟨keys, hwritable, hne, rfl, -⟩ := hpaths p hp
    exact isBare_join hne hwritable
  refine ⟨hscan, by rw [hscan, List.length_map], ?_⟩
  intro d hd
  rw [hscan] at hd
  obtain ⟨p, hp, rfl⟩ := List.mem_map.1 hd
  obtain ⟨keys, hwritable, hne, rfl, n, hlookup, hleaf⟩ := hpaths p hp
  refine ⟨rfl, n, ?_, hleaf⟩
  rw [directiveOf, split_join_of_isWritable hne hwritable]
  exact hlookup

/-- Keys with a sign at either end and with a line break, beside a mapping without leaves. -/
theorem scan_tagList_pathsBelow?_signs :
    let namespaces : Keyed Node := [(Text.lit "a$", .map [
      (Text.lit "$\nb", .list [Text.lit "@x@"]),
      (Text.lit "none", .map []),
      (Text.lit "one two", .map [(Text.lit "$", .scalar [])])])]
    let path := some (Text.lit "a$")
    let paths := [Text.lit "a$:$\nb", Text.lit "a$:one two:$"]
    (Node.map namespaces).Ordered ∧
    (∀ key, (Node.map namespaces).HasKey key → IsWritable key) ∧
    Node.pathsBelow? namespaces path = some paths ∧
    Directive.scan (tagList paths) = paths.map directiveOf := by
  intro namespaces path paths
  have hordered : (Node.map namespaces).Ordered := by
    simp only [namespaces, Node.Ordered, Node.ChildrenOrdered, Keyed.Sorted]
    decide
  have hkeys : ∀ key, (Node.map namespaces).HasKey key → IsWritable key := by
    intro key hkey
    simp only [namespaces, Node.hasKey_map, List.mem_cons, List.not_mem_nil, or_false,
      exists_eq_or_imp, exists_eq_left, Node.hasKey_list, Node.hasKey_scalar, false_and,
      exists_false] at hkey
    rcases hkey with rfl | rfl | rfl | rfl | rfl <;> decide +kernel
  have hpaths : Node.pathsBelow? namespaces path = some paths := by decide +kernel
  exact ⟨hordered, hkeys, hpaths, (scan_tagList_pathsBelow? hordered hkeys hpaths).1⟩

end Report

end PromptTags
